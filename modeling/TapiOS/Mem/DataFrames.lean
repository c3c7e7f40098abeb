import TapiOS.Mem.Mapping

/-!
# Frames that hold data

A store into a frame that is no page table changes no translation, and an allocation
changes no such frame. If no two entries of the directory share a table, an allocation
maps the one page that was asked for.
-/
namespace TapiOS.Mem.Vmm

open Lib Util
open Mem.Pmm (isFreePage kallocPageFrame)

theorem wordByte_putByte (w : Word) (b : Byte) {i j : Nat} (hj : j < 4) :
    wordByte (putByte w i b) j = if j = i then b else wordByte w j := by
  apply BitVec.eq_of_getLsbD_eq
  intro k hk
  have hmask : (0xFF#32) = (BitVec.allOnes 8).setWidth 32 := by decide
  have hlt : 8 * j + k < 32 := by omega
  unfold wordByte putByte
  rw [hmask]
  simp only [BitVec.getLsbD_extractLsb', BitVec.getLsbD_or, BitVec.getLsbD_and, BitVec.getLsbD_not,
    BitVec.getLsbD_shiftLeft, BitVec.getLsbD_setWidth, BitVec.getLsbD_allOnes, hk, hlt,
    decide_true, Bool.true_and]
  by_cases h : j = i
  · subst h
    have h1 : ¬ 8 * j + k < 8 * j := by omega
    have h2 : 8 * j + k - 8 * j = k := by omega
    have h3 : k < 32 := by omega
    simp [h1, h2, h3, hk]
  · rw [if_neg h]
    by_cases hlow : 8 * j + k < 8 * i
    · simp [hlow, hk]
    · have h2 : ¬ 8 * j + k - 8 * i < 8 := by omega
      have h3 : b.getLsbD (8 * j + k - 8 * i) = false := BitVec.getLsbD_of_ge _ _ (by omega)
      simp [hlow, h2, h3, hk]

/-- A frame that is in use and holds no table. -/
structure DataFrame (m : Machine) (g : Nat) : Prop where
  reserved : Reserved m g
  noTable : ∀ i, present (m.pde i) → m.table i ≠ g

section DataFrame
variable {m m' : Machine} {g : Nat} {lent : Nat → Prop}

theorem DataFrame.ne_cr3 (h : DataFrame m g) (hm : m.SelfMapped) : g ≠ m.cr3 :=
  fun he => h.noTable 1023 hm.mapped (hm.own.trans he.symm)

theorem Grown.ram (h : Grown lent m m') (hg : DataFrame m g) (hl : ¬ lent g) :
    m'.ram g = m.ram g := by
  funext k
  by_contra hne
  obtain ⟨-, i, hi, ht⟩ := h.cells g k hg.reserved hl hne
  exact hg.noTable i hi ht

theorem Grown.dataFrame (h : Grown lent m m') (hg : DataFrame m g) (hl : ¬ lent g) :
    DataFrame m' g := by
  constructor
  · intro p hp
    exact h.reserved p (hg.reserved p hp)
  · intro i hi he
    rcases h.tables i hi with hsame | hlent | ⟨p, hp, hframe⟩
    · rw [hsame] at hi
      exact hg.noTable i hi ((congrArg frameOf hsame).symm.trans he)
    · exact hl (he ▸ hlent)
    · exact hg.reserved.ne_fresh hp (hframe.trans he)

theorem translate_setCell_data (hm : m.SelfMapped) (hg : DataFrame m g) (j : Index) (w a : Word) :
    (m.setCell g j w).translate a = m.translate a := by
  have hpde : ∀ i, (m.setCell g j w).pde i = m.pde i := Machine.setCell_pde (hg.ne_cr3 hm)
  rw [Machine.translate, Machine.translate, hpde]
  by_cases hd : present (m.pde (pdi a))
  · have hpte : (m.setCell g j w).pte (pdi a) (pti a) = m.pte (pdi a) (pti a) := by
      rw [Machine.pte_of_pde (hpde _), Machine.setCell_ram, if_neg]
      · rfl
      · exact fun he => hg.noTable _ hd he.1
    rw [hpte]
  · rw [if_neg hd, if_neg hd]

theorem Space.setCell_data {j : Index} {w : Word} (h : Space m) (hg : DataFrame m g) :
    Space (m.setCell g j w) := by
  have hpde : ∀ i, (m.setCell g j w).pde i = m.pde i :=
    Machine.setCell_pde (hg.ne_cr3 h.toSelfMapped)
  refine ⟨h.toSelfMapped.setCell (hg.ne_cr3 h.toSelfMapped), ?_⟩
  intro i hi
  rw [hpde] at hi ⊢
  exact h.tables i hi

theorem DataFrame.setCell_data {f : Nat} {j : Index} {w : Word} (hm : m.SelfMapped)
    (hf : DataFrame m f) (hg : DataFrame m g) : DataFrame (m.setCell f j w) g := by
  have hpde : ∀ i, (m.setCell f j w).pde i = m.pde i := Machine.setCell_pde (hf.ne_cr3 hm)
  refine ⟨hg.reserved, ?_⟩
  intro i hi
  rw [Machine.table, hpde] at *
  exact hg.noTable i hi

end DataFrame

/-! ## Bytes -/

section Bytes
variable {m : Machine} {f : Nat} {a : Word}

theorem sameByte_iff (x y : Word) :
    (wordOf x = wordOf y ∧ byteOf x = byteOf y) ↔ x.toNat % 0x1000 = y.toNat % 0x1000 := by
  unfold wordOf byteOf
  rw [Fin.mk.injEq]
  omega

theorem loadByte_eq (ht : m.translate a = some f) :
    m.loadByte a = .ok (wordByte (m.ram f (wordOf a)) (byteOf a)) := by
  rw [Machine.loadByte, ht]

theorem storeByte_eq (ht : m.translate a = some f) (b : Byte) : m.storeByte a b =
    .ok (m.setCell f (wordOf a) (putByte (m.ram f (wordOf a)) (byteOf a) b)) := by
  rw [Machine.storeByte, ht]

theorem loadByte_setCell_other (hm : m.SelfMapped) (hf : DataFrame m f) {x : Word}
    (hx : m.translate x ≠ some f) (j : Index) (w : Word) :
    (m.setCell f j w).loadByte x = m.loadByte x := by
  rw [Machine.loadByte, Machine.loadByte, translate_setCell_data hm hf]
  cases ht : m.translate x with
  | none => rfl
  | some g =>
    dsimp only
    rw [Machine.setCell_ram, if_neg]
    intro he
    rw [ht, he.1] at hx
    exact hx rfl

theorem loadByte_storeByte (hm : m.SelfMapped) (hf : DataFrame m f) (b : Byte) (x : Word) :
    (m.setCell f (wordOf a) (putByte (m.ram f (wordOf a)) (byteOf a) b)).loadByte x =
      if m.translate x = some f ∧ x.toNat % 0x1000 = a.toNat % 0x1000 then .ok b
      else m.loadByte x := by
  by_cases hx : m.translate x = some f
  · have hb : byteOf x < 4 := Nat.mod_lt _ (by decide)
    rw [loadByte_eq ((translate_setCell_data hm hf _ _ _).trans hx), loadByte_eq hx,
      Machine.setCell_ram]
    by_cases hw : wordOf x = wordOf a
    · rw [if_pos ⟨rfl, hw⟩, wordByte_putByte _ _ hb, hw]
      by_cases hy : byteOf x = byteOf a
      · rw [if_pos hy, if_pos ⟨hx, (sameByte_iff x a).mp ⟨hw, hy⟩⟩]
      · rw [if_neg hy, if_neg fun he => hy ((sameByte_iff x a).mpr he.2).2]
    · rw [if_neg fun he => hw he.2, if_neg fun he => hw ((sameByte_iff x a).mpr he.2).1]
  · rw [if_neg fun he => hx he.1]
    exact loadByte_setCell_other hm hf hx _ _

theorem Grown.loadByte {m' : Machine} (h : Allocated m m') (hs : Space m)
    (ht : m.translate a = some f) (hf : DataFrame m f) : m'.loadByte a = m.loadByte a := by
  rw [loadByte_eq ht, loadByte_eq ((h.extend hs fun _ _ => id).translate ht), h.ram hf id]

end Bytes

/-! ## Another directory -/

theorem entry_cases {i : Index} {a b c : Word} (h : present
    (if i = 1023 then a else if i = 0 then b else if i = 1 then c else 0)) :
    i = 0 ∨ i = 1 ∨ i = 1023 := by
  split_ifs at h with h1 h2 h3
  · exact .inr (.inr h1)
  · exact .inl h2
  · exact .inr (.inl h3)
  · exact absurd h (by decide)

/-- The machine with another directory in use. -/
def Machine.under (m : Machine) (c : Nat) : Machine := { m with cr3 := c }

section Under
variable {m m' : Machine} {c : Nat}

/-- What allocations do to another address space: its directory stays, and its entries that
are present, as it may share tables with the one in use. -/
theorem Grown.under (h : Allocated m m') (hc : DataFrame m c) (hs : Space (m.under c)) :
    (∀ i, (m'.under c).pde i = (m.under c).pde i) ∧ Space (m'.under c) ∧
      (m.under c).Extends (m'.under c) := by
  have hpde : ∀ i, (m'.under c).pde i = (m.under c).pde i := fun i => congrFun (h.ram hc id) i
  refine ⟨hpde, ⟨⟨?_, ?_⟩, ?_⟩, rfl, fun i _ => hpde i, ?_⟩
  · rw [hpde]
    exact hs.mapped
  · rw [Machine.table, hpde]
    exact hs.own
  · intro i hi
    rw [hpde] at hi ⊢
    exact h.reserved _ (hs.tables i hi)
  · intro i j hi hj
    rw [Machine.pte_of_pde (hpde i)]
    by_contra hne
    have hab := (h.cells _ j (hs.reserved_table hi) id hne).1
    rw [← Bool.not_eq_true] at hab
    exact hab hj

theorem DataFrame.under {g : Nat} (h : Allocated m m') (hg : DataFrame (m.under c) g)
    (hpde : ∀ i, (m'.under c).pde i = (m.under c).pde i) : DataFrame (m'.under c) g := by
  refine ⟨fun p hp => h.reserved p (hg.reserved p hp), ?_⟩
  intro i hi
  rw [Machine.table, hpde]
  rw [hpde] at hi
  exact hg.noTable i hi

end Under

/-! ## Separate tables -/

/-- No frame is the table of two entries. -/
def Separate (m : Machine) : Prop :=
  ∀ i k, present (m.pde i) → present (m.pde k) → m.table i = m.table k → i = k

section Separate
variable {m : Machine} {i j : Index}

/-- vaddr_to_physaddr gives 0 for the page, or has no table to read. -/
def Vacant (m : Machine) (a : Word) : Prop :=
  present (m.pde (pdi a)) → m.pte (pdi a) (pti a) &&& 0xFFFFF000 = 0

theorem Vacant.congr {m' : Machine} {a : Word} (h : Vacant m a)
    (hpde : m'.pde (pdi a) = m.pde (pdi a))
    (hpte : present (m.pde (pdi a)) → m'.pte (pdi a) (pti a) = m.pte (pdi a) (pti a)) :
    Vacant m' a := by
  intro hd
  rw [hpde] at hd
  rw [hpte hd]
  exact h hd

theorem translate_none_of_absent {a : Word} (h : present (m.pde (pdi a)) = false) :
    m.translate a = none := by
  rw [Machine.translate, h]
  rfl

theorem Separate.ne_cr3 (h : Separate m) (hs : m.SelfMapped) (hi : present (m.pde i))
    (hne : i ≠ 1023) : m.table i ≠ m.cr3 :=
  fun he => hne (h i 1023 hi hs.mapped (he.trans hs.own.symm))

theorem Separate.setCell {w : Word} (h : Separate m) (hs : m.SelfMapped)
    (hi : present (m.pde i)) (hne : i ≠ 1023) :
    Separate (m.setCell (m.table i) j w) ∧
      ∀ a, ¬ (pdi a = i ∧ pti a = j) →
        (m.setCell (m.table i) j w).translate a = m.translate a ∧
        (Vacant m a → Vacant (m.setCell (m.table i) j w) a) := by
  have hpde : ∀ k, (m.setCell (m.table i) j w).pde k = m.pde k :=
    Machine.setCell_pde (h.ne_cr3 hs hi hne)
  constructor
  · intro k l hk hl he
    rw [hpde] at hk hl
    exact h k l hk hl ((congrArg frameOf (hpde k)).symm.trans (he.trans (congrArg frameOf (hpde l))))
  · intro a ha
    have hpte : present (m.pde (pdi a)) →
        (m.setCell (m.table i) j w).pte (pdi a) (pti a) = m.pte (pdi a) (pti a) := by
      intro hd
      rw [Machine.pte_of_pde (hpde _), Machine.setCell_ram, if_neg]
      · rfl
      · exact fun he => ha ⟨h _ _ hd hi he.1, he.2⟩
    refine ⟨?_, fun hv => hv.congr (hpde _) hpte⟩
    rw [Machine.translate, Machine.translate, hpde]
    by_cases hd : present (m.pde (pdi a))
    · rw [hpte hd]
    · rw [if_neg hd, if_neg hd]

theorem Separate.freshTable {flags : Word} (h : Separate m) (hs : m.SelfMapped)
    (hi : present (m.pde i) = false)
    (hnew : ∀ k, present (m.pde k) → frameOf (kallocPageFrame m.pmm).1 ≠ m.table k)
    (hflags : flags.toNat < 0x1000) (hbit : flags.getLsbD 0) :
    Separate (m.freshTable i flags) ∧
      ∀ a, pdi a ≠ 1023 → (m.freshTable i flags).translate a = m.translate a ∧
        (Vacant m a → Vacant (m.freshTable i flags) a) := by
  have hcr3 : frameOf (kallocPageFrame m.pmm).1 ≠ m.cr3 := hs.own ▸ hnew 1023 hs.mapped
  have hpdei : (m.freshTable i flags).pde i = (kallocPageFrame m.pmm).1 ||| flags :=
    (Machine.withTable_pde hcr3 i).trans (if_pos rfl)
  have hpi : present ((m.freshTable i flags).pde i) := by
    rw [hpdei]
    exact present_or _ hbit
  have htable : (m.freshTable i flags).table i = frameOf (kallocPageFrame m.pmm).1 := by
    rw [Machine.table, hpdei, frameOf_or _ hflags]
  have hzero : ∀ j, (m.freshTable i flags).pte i j = 0 := by
    intro j
    rw [Machine.pte, htable]
    exact if_pos rfl
  have hpde : ∀ k, k ≠ i → (m.freshTable i flags).pde k = m.pde k :=
    fun k hk => (Machine.withTable_pde hcr3 k).trans (if_neg hk)
  have hold : ∀ k, k ≠ i → present (m.pde k) →
      (m.freshTable i flags).table k ≠ (m.freshTable i flags).table i := by
    intro k hk hp he
    rw [htable, Machine.table, hpde k hk] at he
    exact hnew k hp he.symm
  constructor
  · intro k l hk hl he
    by_cases hki : k = i
    · by_cases hli : l = i
      · rw [hki, hli]
      · rw [hpde l hli] at hl
        rw [hki] at he
        exact absurd he.symm (hold l hli hl)
    · rw [hpde k hki] at hk
      by_cases hli : l = i
      · rw [hli] at he
        exact absurd he (hold k hki hk)
      · rw [hpde l hli] at hl
        rw [Machine.table, Machine.table, hpde k hki, hpde l hli] at he
        exact h k l hk hl he
  · intro a ha
    by_cases hd : pdi a = i
    · constructor
      · have hnone : m.translate a = none := translate_none_of_absent (by rw [hd]; exact hi)
        rw [hnone, Machine.translate, hd, if_pos hpi, hzero]
        rfl
      · intro _ _
        rw [hd, hzero]
        rfl
    · have hpte : present (m.pde (pdi a)) →
          (m.freshTable i flags).pte (pdi a) (pti a) = m.pte (pdi a) (pti a) := by
        intro hp
        rw [Machine.pte_of_pde (hpde _ hd)]
        show (if m.table (pdi a) = frameOf (kallocPageFrame m.pmm).1 then 0
          else if m.table (pdi a) = m.cr3 ∧ pti a = i then (kallocPageFrame m.pmm).1 ||| flags
          else m.ram (m.table (pdi a)) (pti a)) = _
        rw [if_neg (Ne.symm (hnew _ hp)), if_neg]
        · rfl
        · exact fun he => h.ne_cr3 hs hp ha he.1
      refine ⟨?_, fun hv => hv.congr (hpde _ hd) hpte⟩
      rw [Machine.translate, Machine.translate, hpde _ hd]
      by_cases hp : present (m.pde (pdi a))
      · rw [hpte hp]
      · rw [if_neg hp, if_neg hp]

/-- An allocation in a space with separate tables, outside of the window on the tables. -/
structure MapsOnly (target : Word) (f : Nat) (m m' : Machine) : Prop where
  separate : Separate m'
  noTable : ∀ k, present (m'.pde k) → m'.table k ≠ f
  other : ∀ a, pdi a ≠ 1023 → a.toNat / 0x1000 ≠ target.toNat / 0x1000 →
    m'.translate a = m.translate a ∧ (Vacant m a → Vacant m' a)

variable {source target : Word} (kernel readwrite : Bool) (h : Separate m) (hs : Space m)
  (h0 : source ≠ 0) (hpage : pageAlign target ≠ 0) (hwin : pdi target ≠ 1023)
  (hun : m.translate target = none)
include kernel readwrite h hs h0 hpage hwin hun

/-- kalloc_page_from maps no page but the one it returns. -/
theorem kallocPageFrom_only (hres : isFreePage m.pmm.bitmap source = false)
    (hsource : ∀ k, present (m.pde k) → m.table k ≠ frameOf source)
    (hsup : Supplies m.pmm (newTables m target)) {r : Word} {m' : Machine}
    (hcall : m.kallocPageFrom source target kernel readwrite = .ok (r, m')) :
    MapsOnly target (frameOf source) m m' := by
  have hflags := entryFlags_lt kernel readwrite
  have hbit := entryFlags_present kernel readwrite
  by_cases hd : present (m.pde (pdi target))
  · rw [kallocPageFrom_table kernel readwrite hs.toSelfMapped h0 hpage hd
      ((translate_eq_none hd).mp hun) hres] at hcall
    cases hcall
    obtain ⟨hsep, hother⟩ := h.setCell (j := pti target)
      (w := source ||| entryFlags kernel readwrite) hs.toSelfMapped hd hwin
    have hpde := Machine.setCell_pde (j := pti target)
      (w := source ||| entryFlags kernel readwrite) (h.ne_cr3 hs.toSelfMapped hd hwin)
    refine ⟨hsep, ?_, fun a _ ha => hother a fun he => ha ((samePage_iff a target).mp he)⟩
    intro k hk
    rw [hpde] at hk
    exact fun he => hsource k hk ((congrArg frameOf (hpde k)).symm.trans he)
  · rw [Bool.not_eq_true] at hd
    have hone : newTables m target = 1 := by
      rw [newTables, hd]
      rfl
    rw [hone] at hsup
    have hpfree : isFreePage m.pmm.bitmap (kallocPageFrame m.pmm).1 :=
      (hsup 0 Nat.one_pos).2
    have hres' := kallocPageFrame_reserved (hsup 0 Nat.one_pos).1 hres
    obtain ⟨hsep₁, hother₁⟩ := h.freshTable hs.toSelfMapped hd
      (fun k hk => hs.fresh_table hpfree hk) hflags hbit
    obtain ⟨hgrown, hpi, htable, -⟩ := Grown.freshTable (fun _ => False) hs hd hsup hflags hbit
    rw [kallocPageFrom_newTable kernel readwrite hs.toSelfMapped h0 hpage hd
      (hs.fresh_cr3 hpfree) hres', ← htable] at hcall
    cases hcall
    obtain ⟨hsep, hother⟩ := hsep₁.setCell (j := pti target)
      (w := source ||| entryFlags kernel readwrite) hgrown.space.toSelfMapped hpi hwin
    have hpde := Machine.setCell_pde (j := pti target)
      (w := source ||| entryFlags kernel readwrite) (hsep₁.ne_cr3 hgrown.space.toSelfMapped hpi hwin)
    refine ⟨hsep, ?_, ?_⟩
    · intro k hk he
      have he' := (congrArg frameOf (hpde k)).symm.trans he
      rw [hpde] at hk
      rcases hgrown.tables k hk with hsame | hl | ⟨p, hp, hframe⟩
      · rw [hsame] at hk
        exact hsource k hk ((congrArg frameOf hsame).symm.trans he')
      · exact hl
      · exact frameOf_ne hp hres (hframe.trans he')
    · intro a ha hne
      obtain ⟨h1, h2⟩ := hother a fun he => hne ((samePage_iff a target).mp he)
      obtain ⟨h3, h4⟩ := hother₁ a ha
      exact ⟨h1.trans h3, fun hv => h2 (h4 hv)⟩

theorem kallocPageFrom_data (hdata : DataFrame m (frameOf source))
    (hsup : Supplies m.pmm (newTables m target)) :
    ∃ m', m.kallocPageFrom source target kernel readwrite = .ok (pageAlign target, m') ∧
      Allocated m m' ∧ m'.translate target = some (frameOf source) ∧
      MapsOnly target (frameOf source) m m' ∧ m'.pmm = taken (newTables m target) m.pmm := by
  obtain ⟨m', hcall, hgrown, ht, hpmm⟩ := kallocPageFrom_spec target kernel readwrite
    (fun _ => False) hs h0 hpage hun (hdata.reserved source rfl)
    (fun hd he => h.ne_cr3 hs.toSelfMapped hd hwin he) hsup
  exact ⟨m', hcall, hgrown, ht, kallocPageFrom_only kernel readwrite h hs h0 hpage hwin hun
    (hdata.reserved source rfl) hdata.noTable hsup hcall, hpmm⟩

omit h0 in
/-- kalloc_page maps no page but the one it returns, to a frame of data. -/
theorem kallocPage_only (hsup : Supplies m.pmm (1 + newTables m target)) :
    ∃ m' f, m.kallocPage target kernel readwrite = .ok (pageAlign target, m') ∧ Allocated m m' ∧
      m'.translate target = some f ∧ (∃ p, isFreePage m.pmm.bitmap p ∧ frameOf p = f) ∧
      Reserved m' f ∧ MapsOnly target f m m' ∧
      m'.pmm = taken (1 + newTables m target) m.pmm := by
  obtain ⟨m', hcall, hgrown, ht, hpmm⟩ := kallocPage_spec kernel readwrite hs hpage hun hsup
  obtain ⟨hs0, hsfree⟩ := hsup 0 (by omega)
  change (kallocPageFrame m.pmm).1 ≠ 0 at hs0
  have hres : isFreePage (kallocPageFrame m.pmm).2.bitmap (kallocPageFrame m.pmm).1 = false := by
    rw [kallocPageFrame_isFreePage hs0, if_pos rfl]
  have hpagenum : (pageAlign target).toNat / 0x1000 = target.toNat / 0x1000 := by
    rw [pageAlign_toNat]
    omega
  have hcall' := hcall
  rw [kallocPage_eq kernel readwrite hpage] at hcall'
  obtain ⟨hsep, hno, hother⟩ := kallocPageFrom_only kernel readwrite
    (m := { m with pmm := (kallocPageFrame m.pmm).2 }) h (hs.takeFrame hs0) hs0
    (by rw [pageAlign_of_aligned (by rw [pageAlign_toNat]; omega)]; exact hpage)
    (by rw [pdi_pageAlign]; exact hwin) (by rw [translate_pageAlign]; exact hun) hres
    (fun k hk => Ne.symm (hs.fresh_table hsfree hk))
    (by
      rw [newTables, pdi_pageAlign]
      exact hsup.rest) hcall'
  rw [hpagenum] at hother
  refine ⟨m', _, hcall, hgrown, ht, ⟨_, hsfree, rfl⟩, ?_, ⟨hsep, hno, hother⟩, hpmm⟩
  intro p hp
  rw [hpmm, isFreePage_congr hp, ← taken_add]
  exact hsup.rest.reserved hres

end Separate

/-- The frame was free, and holds data now. -/
def NewData (m m' : Machine) (f : Nat) : Prop :=
  (∃ p, isFreePage m.pmm.bitmap p ∧ frameOf p = f) ∧ DataFrame m' f

/-- What a loop over unmapped pages does: each one gets a frame of its own. -/
structure MapsEach (pages : List Word) (m m' : Machine) : Prop where
  grown : Allocated m m'
  separate : Separate m'
  other : ∀ a, pdi a ≠ 1023 → (∀ page ∈ pages, a.toNat / 0x1000 ≠ page.toNat / 0x1000) →
    m'.translate a = m.translate a
  mapped : ∀ page ∈ pages, ∃ f, m'.translate page = some f ∧ NewData m m' f
  distinct : ∀ a ∈ pages, ∀ b ∈ pages, m'.translate a = m'.translate b →
    a.toNat / 0x1000 = b.toNat / 0x1000

section MapsEach
variable {m m' : Machine} {page : Word} {pages : List Word}

theorem Grown.free_before (h : Allocated m m') {p : Word}
    (hp : isFreePage m'.pmm.bitmap p) : isFreePage m.pmm.bitmap p := by
  by_contra hp'
  rw [Bool.not_eq_true] at hp'
  rw [h.reserved p hp'] at hp
  cases hp

theorem MapsEach.cons {m₁ : Machine} {f : Nat} (hg : Allocated m m₁)
    (ht : m₁.translate page = some f)
    (hf : ∃ p, isFreePage m.pmm.bitmap p ∧ frameOf p = f) (hres : Reserved m₁ f)
    (honly : MapsOnly page f m m₁) (hwin : pdi page ≠ 1023)
    (hne : ∀ b ∈ pages, page.toNat / 0x1000 ≠ b.toNat / 0x1000) (h : MapsEach pages m₁ m') :
    MapsEach (page :: pages) m m' := by
  have hpage : m'.translate page = some f := (h.other page hwin hne).trans ht
  have hfirst : NewData m m' f := ⟨hf, h.grown.dataFrame ⟨hres, honly.noTable⟩ id⟩
  have hrest : ∀ b ∈ pages, ∃ g, m'.translate b = some g ∧ NewData m m' g ∧ g ≠ f := by
    intro b hb
    obtain ⟨g, hg', ⟨p, hp, hpg⟩, hdata⟩ := h.mapped b hb
    refine ⟨g, hg', ⟨⟨p, hg.free_before hp, hpg⟩, hdata⟩, ?_⟩
    rw [← hpg]
    exact hres.ne_fresh hp
  refine ⟨hg.trans h.grown, h.separate, ?_, ?_, ?_⟩
  · intro a ha hnot
    obtain ⟨h1, h2⟩ := List.forall_mem_cons.mp hnot
    rw [h.other a ha h2, (honly.other a ha h1).1]
  · intro a ha
    rcases List.mem_cons.mp ha with rfl | ha
    · exact ⟨f, hpage, hfirst⟩
    · obtain ⟨g, hg', hnew, -⟩ := hrest a ha
      exact ⟨g, hg', hnew⟩
  · intro a ha b hb he
    rcases List.mem_cons.mp ha with heq | hin
    · rcases List.mem_cons.mp hb with heq' | hin'
      · rw [heq, heq']
      · obtain ⟨g, hg', -, hgf⟩ := hrest b hin'
        rw [heq, hpage, hg'] at he
        exact absurd (Option.some.inj he).symm hgf
    · rcases List.mem_cons.mp hb with heq' | hin'
      · obtain ⟨g, hg', -, hgf⟩ := hrest a hin
        rw [heq', hpage, hg'] at he
        exact absurd (Option.some.inj he) hgf
      · exact h.distinct a hin b hin' he

/-- With frames for these pages and for some `rest`, there are frames for the rest later. -/
theorem kallocPages_only (kernel readwrite : Bool) (h : Separate m) (hs : Space m)
    (hpages : ∀ page ∈ pages, pageAlign page ≠ 0 ∧ pdi page ≠ 1023 ∧ m.translate page = none)
    (hdist : pages.Pairwise fun a b => a.toNat / 0x1000 ≠ b.toNat / 0x1000) (rest : List Word)
    (hsup : Supplies m.pmm ((pages ++ rest).length + (missing m (pages ++ rest)).card)) :
    ∃ m', m.kallocPages pages kernel readwrite = .ok m' ∧ MapsEach pages m m' ∧
      Supplies m'.pmm (rest.length + (missing m' rest).card) := by
  induction pages generalizing m with
  | nil =>
    exact ⟨m, rfl, ⟨.refl hs, h, fun _ _ _ => rfl, by simp, by simp⟩, hsup⟩
  | cons page pages ih =>
    obtain ⟨⟨hpage, hwin, hun⟩, hlater⟩ := List.forall_mem_cons.mp hpages
    obtain ⟨hne, hdist'⟩ := List.pairwise_cons.mp hdist
    have hnew := newTables_le m page (pages ++ rest)
    rw [List.cons_append, List.length_cons] at hsup
    obtain ⟨m₁, f, hcall, hg, ht, hf, hres, honly, hpmm⟩ :=
      kallocPage_only kernel readwrite h hs hpage hwin hun (hsup.mono (by omega))
    have hmiss := missing_cons (pages ++ rest) (hg.extend hs fun _ _ => id)
      (translate_of_present (a := page) (by rw [ht]; rfl))
    have hsup' : Supplies m.pmm (1 + newTables m page +
        ((pages ++ rest).length + (missing m₁ (pages ++ rest)).card)) := hsup.mono (by omega)
    obtain ⟨m', hloop, heach, hrest⟩ := ih honly.separate hg.space
      (fun b hb => ⟨(hlater b hb).1, (hlater b hb).2.1, by
        rw [(honly.other b (hlater b hb).2.1 (Ne.symm (hne b hb))).1]
        exact (hlater b hb).2.2⟩) hdist' (by rw [hpmm]; exact hsup'.rest)
    refine ⟨m', ?_, MapsEach.cons hg ht hf hres honly hwin hne heach, hrest⟩
    rw [Machine.kallocPages, List.foldlM_cons, hcall]
    exact hloop

end MapsEach

end TapiOS.Mem.Vmm
