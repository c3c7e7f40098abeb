import TapiOS.Mem.Vmm

/-!
# What a page allocation changes

In a directory that maps itself, the array at PAGE_DIRECTORY is the tables. A new table
is a frame of zeros under one entry of the directory, a new page is one entry of a table;
every page that was mapped before stays mapped to the frame it had.
-/
namespace TapiOS.Mem.Vmm

open Lib Util
open Mem.Pmm (PhysAddr isFreePage kallocPageFrame)

/-! ## Addresses -/

variable {flags page : Word} {n : Nat}

section Addresses
variable (i j : Index)

theorem cellAddr_toNat : (cellAddr PAGE_DIRECTORY i j).toNat = 0xFFC00000 + 4 * (i * 0x400 + j) := by
  show (0xFFC00000 + 4 * (i.val * 0x400 + j.val) % 2 ^ 32) % 2 ^ 32 = _
  omega

theorem pdi_cellAddr : pdi (cellAddr PAGE_DIRECTORY i j) = 1023 := by
  apply Fin.ext
  show (cellAddr PAGE_DIRECTORY i j).toNat / 0x400000 = 1023
  rw [cellAddr_toNat]
  omega

theorem pti_cellAddr : pti (cellAddr PAGE_DIRECTORY i j) = i := by
  apply Fin.ext
  show (cellAddr PAGE_DIRECTORY i j).toNat % 0x400000 / 0x1000 = i
  rw [cellAddr_toNat]
  omega

theorem wordOf_cellAddr : wordOf (cellAddr PAGE_DIRECTORY i j) = j := by
  apply Fin.ext
  show (cellAddr PAGE_DIRECTORY i j).toNat % 0x1000 / 4 = j
  rw [cellAddr_toNat]
  omega

variable {a : Word}

theorem pdi_pageAlign : pdi (pageAlign a) = pdi a := by
  apply Fin.ext
  show (pageAlign a).toNat / 0x400000 = a.toNat / 0x400000
  rw [pageAlign_toNat]
  omega

theorem pti_pageAlign : pti (pageAlign a) = pti a := by
  apply Fin.ext
  show (pageAlign a).toNat % 0x400000 / 0x1000 = a.toNat % 0x400000 / 0x1000
  rw [pageAlign_toNat]
  omega

theorem samePage_iff (a b : Word) :
    (pdi a = pdi b ∧ pti a = pti b) ↔ a.toNat / 0x1000 = b.toNat / 0x1000 := by
  unfold pdi pti
  rw [Fin.mk.injEq, Fin.mk.injEq]
  omega

theorem translate_page (m : Machine) {a b : Word} (h : a.toNat / 0x1000 = b.toNat / 0x1000) :
    m.translate a = m.translate b := by
  obtain ⟨hpdi, hpti⟩ := (samePage_iff a b).mpr h
  rw [Machine.translate, hpdi, hpti]
  rfl

end Addresses

/-! ## The tables through the directory's own entry -/

namespace Machine

/-- The last entry of the directory maps the directory. -/
structure SelfMapped (m : Machine) : Prop where
  mapped : present (m.pde 1023)
  own : m.table 1023 = m.cr3

section Access
variable {m : Machine} (h : m.SelfMapped) (i j : Index)
include h

theorem SelfMapped.translate_cell : m.translate (cellAddr PAGE_DIRECTORY i j) =
    if present (m.pde i) then some (m.table i) else none := by
  have hpte : m.pte 1023 i = m.pde i := by
    rw [pte, h.own]
    rfl
  rw [translate, pdi_cellAddr, pti_cellAddr, if_pos h.mapped, hpte]
  rfl

theorem SelfMapped.getPageTableEntry : m.getPageTableEntry i j =
    if present (m.pde i) then .ok (m.pte i j) else .error .pageFault := by
  rw [Machine.getPageTableEntry, load, h.translate_cell]
  by_cases hi : present (m.pde i)
  · rw [if_pos hi, if_pos hi]
    rw [wordOf_cellAddr]
    rfl
  · rw [if_neg hi, if_neg hi]

theorem SelfMapped.setPageTableEntry (w : Word) : m.setPageTableEntry i j w =
    if present (m.pde i) then .ok (m.setCell (m.table i) j w) else .error .pageFault := by
  rw [Machine.setPageTableEntry, store, h.translate_cell]
  by_cases hi : present (m.pde i)
  · rw [if_pos hi, if_pos hi]
    rw [wordOf_cellAddr]
  · rw [if_neg hi, if_neg hi]

theorem SelfMapped.pageTableExists : m.pageTableExists i = .ok (present (m.pde i)) := by
  rw [Machine.pageTableExists, h.getPageTableEntry, if_pos h.mapped, pte, h.own]
  rfl

end Access

/-! ## A new table -/

/-- The cells `l` of a frame set to zero. -/
def zeroed (m : Machine) (f : Nat) (l : List Index) : Machine :=
  { m with ram := fun g j => if g = f ∧ j ∈ l then 0 else m.ram g j }

/-- A frame of zeros as table `i`. -/
def withTable (m : Machine) (i : Index) (p flags : Word) : Machine :=
  { m with ram := fun g j =>
      if g = frameOf p then 0 else if g = m.cr3 ∧ j = i then p ||| flags else m.ram g j }

/-- The next frame of the allocator as table `i`. -/
def freshTable (m : Machine) (i : Index) (flags : Word) : Machine :=
  withTable { m with pmm := (kallocPageFrame m.pmm).2 } i (kallocPageFrame m.pmm).1 flags

section Cells
variable {m : Machine} {f : Nat} {i j : Index} {w : Word}

theorem setCell_ram (g : Nat) (k : Index) :
    (m.setCell f j w).ram g k = if g = f ∧ k = j then w else m.ram g k := rfl

theorem setCell_pde (hf : f ≠ m.cr3) (k : Index) : (m.setCell f j w).pde k = m.pde k := by
  show (if m.cr3 = f ∧ k = j then w else m.ram m.cr3 k) = _
  rw [if_neg (fun h => hf h.1.symm)]
  rfl

theorem SelfMapped.setCell (h : m.SelfMapped) (hf : f ≠ m.cr3) : (m.setCell f j w).SelfMapped := by
  constructor
  · rw [setCell_pde hf]
    exact h.mapped
  · rw [table, setCell_pde hf]
    exact h.own

theorem clearTable (h : m.SelfMapped) (hi : present (m.pde i)) (hf : m.table i ≠ m.cr3)
    (l : List Index) : l.foldlM (fun m j => m.setPageTableEntry i j 0) m =
      .ok (m.zeroed (m.table i) l) := by
  induction l generalizing m with
  | nil =>
    show Except.ok m = _
    congr 1
    unfold zeroed
    simp
  | cons j l ih =>
    have hpde := setCell_pde (j := j) (w := 0) hf i
    have htable : (m.setCell (m.table i) j 0).table i = m.table i := by
      rw [table, hpde]
      rfl
    rw [List.foldlM_cons, h.setPageTableEntry, if_pos hi, ok_bind,
      ih (h.setCell hf) (by rw [hpde]; exact hi) (by rw [htable]; exact hf), htable]
    congr 1
    unfold zeroed
    congr 1
    funext g k
    rw [setCell_ram]
    by_cases hg : g = m.table i
    · simp only [hg, true_and, List.mem_cons]
      by_cases hk : k ∈ l
      · rw [if_pos hk, if_pos (.inr hk)]
      · simp [hk]
    · simp [hg]

/-- The entry is set, and then each cell of the new table to zero. -/
theorem newPageTable_eq (h : m.SelfMapped) (hi : i ≠ 1023) (kernel readwrite : Bool)
    (hp : frameOf (kallocPageFrame m.pmm).1 ≠ m.cr3) :
    m.newPageTable i kernel readwrite = .ok (m.freshTable i (entryFlags kernel readwrite)) := by
  set p := (kallocPageFrame m.pmm).1 with hpdef
  set pmm := (kallocPageFrame m.pmm).2 with hpmm
  have hframe := frameOf_or p (entryFlags_lt kernel readwrite)
  have hh : ({ m with pmm := pmm } : Machine).SelfMapped := ⟨h.mapped, h.own⟩
  have hown : ({ m with pmm := pmm } : Machine).table 1023 = m.cr3 := h.own
  rw [newPageTable]
  dsimp only
  rw [hh.setPageTableEntry, if_pos hh.mapped, ok_bind, hown]
  set m₁ := setCell { m with pmm := pmm } m.cr3 i (p ||| entryFlags kernel readwrite)
  have hpde : m₁.pde i = p ||| entryFlags kernel readwrite := if_pos ⟨rfl, rfl⟩
  have hlast : m₁.pde 1023 = m.pde 1023 := if_neg fun he => hi he.2.symm
  have htable : m₁.table i = frameOf p := by rw [table, hpde, hframe]
  have hself : m₁.SelfMapped := by
    constructor
    · rw [hlast]
      exact h.mapped
    · rw [table, hlast]
      exact h.own
  rw [clearTable hself (by rw [hpde]; exact present_or p (entryFlags_present kernel readwrite))
    (by rw [htable]; exact hp), htable]
  congr 1
  unfold zeroed freshTable withTable
  congr 1
  funext g j
  simp only [List.mem_finRange, and_true]
  rfl

end Cells

/-! ## Growing tables -/

/-- Every entry that is present stays as it is. -/
structure Extends (m m' : Machine) : Prop where
  cr3 : m'.cr3 = m.cr3
  pde : ∀ i, present (m.pde i) → m'.pde i = m.pde i
  pte : ∀ i j, present (m.pde i) → present (m.pte i j) → m'.pte i j = m.pte i j

section Extends
variable {m m' m'' : Machine}

theorem Extends.refl (m : Machine) : Extends m m := ⟨rfl, fun _ _ => rfl, fun _ _ _ _ => rfl⟩

theorem Extends.trans (h : Extends m m') (h' : Extends m' m'') : Extends m m'' := by
  constructor
  · exact h'.cr3.trans h.cr3
  · intro i hi
    have he := h.pde i hi
    exact (h'.pde i (he ▸ hi)).trans he
  · intro i j hi hj
    have hd := h.pde i hi
    have he := h.pte i j hi hj
    exact (h'.pte i j (hd ▸ hi) (he ▸ hj)).trans he

theorem pte_of_pde {i j : Index} (h : m'.pde i = m.pde i) : m'.pte i j = m'.ram (m.table i) j := by
  rw [pte, table, h]
  rfl

/-- Pages stay mapped, each to the frame it had. -/
theorem Extends.translate (h : Extends m m') {a : Word} {f : Nat} (ha : m.translate a = some f) :
    m'.translate a = some f := by
  unfold Machine.translate at ha ⊢
  by_cases hd : present (m.pde (pdi a))
  · rw [if_pos hd] at ha
    by_cases ht : present (m.pte (pdi a) (pti a))
    · rw [if_pos ht] at ha
      rw [h.pde _ hd, if_pos hd, h.pte _ _ hd ht, if_pos ht]
      exact ha
    · rw [if_neg ht] at ha
      cases ha
  · rw [if_neg hd] at ha
    cases ha

theorem extends_setCell {i j : Index} (w : Word) (hj : present (m.pte i j) = false) :
    Extends m (m.setCell (m.table i) j w) := by
  have hcell : ∀ g k, present (m.ram g k) →
      (m.setCell (m.table i) j w).ram g k = m.ram g k := by
    intro g k hk
    rw [setCell_ram, if_neg]
    intro he
    rw [he.1, he.2, ← Bool.not_eq_false] at hk
    exact hk hj
  constructor
  · rfl
  · intro k hk
    exact hcell _ _ hk
  · intro k l hk hl
    have hpde : (m.setCell (m.table i) j w).pde k = m.pde k := hcell _ _ hk
    rw [pte_of_pde hpde]
    exact hcell _ _ hl

theorem withTable_pde {i : Index} {p : Word} (hp : frameOf p ≠ m.cr3) (k : Index) :
    (m.withTable i p flags).pde k = if k = i then p ||| flags else m.pde k := by
  show (if m.cr3 = frameOf p then 0 else if m.cr3 = m.cr3 ∧ k = i then p ||| flags
    else m.ram m.cr3 k) = _
  rw [if_neg (Ne.symm hp)]
  simp only [true_and]
  rfl

/-- A table under an entry that was not present, in a frame that is no table yet. -/
theorem extends_withTable {i : Index} {p : Word} (hp : frameOf p ≠ m.cr3)
    (hi : present (m.pde i) = false)
    (hfresh : ∀ k, present (m.pde k) → frameOf p ≠ m.table k) :
    Extends m (m.withTable i p flags) := by
  have hpde : ∀ k, present (m.pde k) → (m.withTable i p flags).pde k = m.pde k := by
    intro k hk
    rw [withTable_pde hp, if_neg]
    intro he
    rw [he, hi] at hk
    cases hk
  constructor
  · rfl
  · exact hpde
  · intro k l hk hl
    rw [pte_of_pde (hpde k hk)]
    show (if m.table k = frameOf p then 0 else if m.table k = m.cr3 ∧ l = i then p ||| flags
      else m.ram (m.table k) l) = _
    rw [if_neg (Ne.symm (hfresh k hk)), if_neg]
    · rfl
    · intro he
      have hd : m.pte k l = m.pde i := by
        rw [pte, he.1, he.2]
        rfl
      rw [hd, hi] at hl
      cases hl

end Extends
end Machine

/-! ## Frames -/

section Frames
variable {b : Pmm.Bitmap} {s : Pmm.State} {a c : Word}

theorem isFreePage_congr (h : frameOf a = frameOf c) : isFreePage b a = isFreePage b c := by
  obtain ⟨hw, ho⟩ := (Pmm.sameFrame_iff a c).mpr h
  unfold isFreePage Pmm.frameMask
  rw [hw, ho]

theorem frameOf_ne (ha : isFreePage b a) (hc : isFreePage b c = false) :
    frameOf a ≠ frameOf c := by
  intro h
  rw [isFreePage_congr h, hc] at ha
  cases ha

/-- The frame handed out is reserved, and no other one changes. -/
theorem kallocPageFrame_isFreePage (h : (kallocPageFrame s).1 ≠ 0) (c : Word) :
    isFreePage (kallocPageFrame s).2.bitmap c =
      if frameOf (kallocPageFrame s).1 = frameOf c then false else isFreePage s.bitmap c := by
  rcases Pmm.kallocPageFrame_spec s with ⟨-, he⟩ | ⟨i, o, -, -, -, he, -⟩
  · rw [he] at h
    exact absurd rfl h
  · rw [he]
    exact Pmm.isFreePage_setPageReserved _ _ _ _

theorem kallocPageFrame_reserved (h : (kallocPageFrame s).1 ≠ 0)
    (hc : isFreePage s.bitmap c = false) :
    isFreePage (kallocPageFrame s).2.bitmap c = false := by
  rw [kallocPageFrame_isFreePage h]
  by_cases he : frameOf (kallocPageFrame s).1 = frameOf c
  · rw [if_pos he]
  · rw [if_neg he, hc]

/-- The allocator after `n` frames. -/
def taken (n : Nat) (s : Pmm.State) : Pmm.State := (fun s => (kallocPageFrame s).2)^[n] s

/-- `n` calls of kalloc_page_frame each give a frame that was not in use. -/
def Supplies (s : Pmm.State) (n : Nat) : Prop :=
  ∀ k < n, (kallocPageFrame (taken k s)).1 ≠ 0 ∧
    isFreePage (taken k s).bitmap (kallocPageFrame (taken k s)).1

theorem taken_add (k n : Nat) (s : Pmm.State) : taken n (taken k s) = taken (k + n) s := by
  unfold taken
  rw [Nat.add_comm, Function.iterate_add_apply]

theorem Supplies.mono {k : Nat} (h : Supplies s n) (hk : k ≤ n) : Supplies s k :=
  fun i hi => h i (Nat.lt_of_lt_of_le hi hk)

theorem Supplies.rest {k : Nat} (h : Supplies s (k + n)) : Supplies (taken k s) n := by
  intro i hi
  rw [taken_add]
  exact h (k + i) (Nat.add_lt_add_left hi k)

theorem Supplies.reserved (h : Supplies s n) (hc : isFreePage s.bitmap c = false) :
    isFreePage (taken n s).bitmap c = false := by
  induction n with
  | zero => exact hc
  | succ n ih =>
    rw [← taken_add]
    exact kallocPageFrame_reserved (h n (Nat.lt_succ_self n)).1 (ih (h.mono (Nat.le_succ n)))

end Frames

/-! ## Address spaces -/

/-- A directory that maps itself, with all its tables in reserved frames. -/
structure Space (m : Machine) : Prop extends m.SelfMapped where
  tables : ∀ i, present (m.pde i) → isFreePage m.pmm.bitmap (m.pde i) = false

section Space
variable {m m' : Machine} {i j : Index} {w p : Word}

theorem Space.fresh_table (h : Space m) (hp : isFreePage m.pmm.bitmap p)
    (hi : present (m.pde i)) : frameOf p ≠ m.table i :=
  frameOf_ne hp (h.tables i hi)

theorem Space.fresh_cr3 (h : Space m) (hp : isFreePage m.pmm.bitmap p) :
    frameOf p ≠ m.cr3 := by
  rw [← h.own]
  exact h.fresh_table hp h.mapped

theorem Machine.Extends.selfMapped (he : Machine.Extends m m') (h : m.SelfMapped) :
    m'.SelfMapped := by
  have hpde := he.pde 1023 h.mapped
  constructor
  · rw [hpde]
    exact h.mapped
  · rw [Machine.table, hpde, he.cr3]
    exact h.own

/-- The frame taken from the allocator is reserved in addition. -/
theorem Space.takeFrame (h : Space m) (hp : (kallocPageFrame m.pmm).1 ≠ 0) :
    Space { m with pmm := (kallocPageFrame m.pmm).2 } :=
  ⟨⟨h.mapped, h.own⟩, fun i hi => kallocPageFrame_reserved hp (h.tables i hi)⟩

theorem Space.setCell (h : Space m) (hj : present (m.pte i j) = false)
    (hw : isFreePage m.pmm.bitmap w = false) : Space (m.setCell (m.table i) j w) := by
  refine ⟨(Machine.extends_setCell w hj).selfMapped h.toSelfMapped, ?_⟩
  intro k hk
  have hpde : (m.setCell (m.table i) j w).pde k =
      if m.cr3 = m.table i ∧ k = j then w else m.pde k := rfl
  rw [hpde] at hk ⊢
  by_cases he : m.cr3 = m.table i ∧ k = j
  · rw [if_pos he]
    exact hw
  · rw [if_neg he] at hk ⊢
    exact h.tables k hk

theorem Space.withTable (h : Space m) (hi : present (m.pde i) = false)
    (hp : ∀ k, present (m.pde k) → frameOf p ≠ m.table k)
    (hres : isFreePage m.pmm.bitmap p = false) (hflags : flags.toNat < 0x1000) :
    Space (m.withTable i p flags) := by
  have hcr3 : frameOf p ≠ m.cr3 := h.own ▸ hp 1023 h.mapped
  refine ⟨(Machine.extends_withTable hcr3 hi hp).selfMapped h.toSelfMapped, ?_⟩
  intro k hk
  rw [Machine.withTable_pde hcr3] at hk ⊢
  by_cases he : k = i
  · rw [if_pos he]
    exact (isFreePage_congr (frameOf_or p hflags)).trans hres
  · rw [if_neg he] at hk ⊢
    exact h.tables k hk

/-- A frame that is in use. -/
def Reserved (m : Machine) (g : Nat) : Prop :=
  ∀ p, frameOf p = g → isFreePage m.pmm.bitmap p = false

theorem Reserved.ne_fresh {g : Nat} (h : Reserved m g) (hp : isFreePage m.pmm.bitmap p) :
    frameOf p ≠ g := by
  intro he
  rw [h p he] at hp
  cases hp

theorem Space.reserved_table (h : Space m) (hi : present (m.pde i)) :
    Reserved m (m.table i) := fun _ hp => (isFreePage_congr hp).trans (h.tables i hi)

/-- What allocations change: of the frames in use, entries of tables that were not present;
and new tables are in frames that were free, or lent by the caller. -/
structure Grown (lent : Nat → Prop) (m m' : Machine) : Prop where
  space : Space m'
  cr3 : m'.cr3 = m.cr3
  reserved : ∀ p, isFreePage m.pmm.bitmap p = false → isFreePage m'.pmm.bitmap p = false
  cells : ∀ g k, Reserved m g → ¬ lent g → m'.ram g k ≠ m.ram g k →
    present (m.ram g k) = false ∧ ∃ i, present (m.pde i) ∧ m.table i = g
  tables : ∀ i, present (m'.pde i) → m'.pde i = m.pde i ∨ lent (m'.table i) ∨
    ∃ p, isFreePage m.pmm.bitmap p ∧ frameOf p = m'.table i

/-- With no frame lent. -/
abbrev Allocated (m m' : Machine) : Prop := Grown (fun _ => False) m m'

section Grown
variable {lent : Nat → Prop} {m'' : Machine}

theorem Grown.refl (h : Space m) : Grown lent m m :=
  ⟨h, rfl, fun _ hp => hp, fun _ _ _ _ hne => absurd rfl hne, fun _ _ => .inl rfl⟩

theorem Grown.trans (h : Grown lent m m') (h' : Grown lent m' m'') : Grown lent m m'' := by
  have hres : ∀ g, Reserved m g → Reserved m' g := fun g hg p hp => h.reserved p (hg p hp)
  refine ⟨h'.space, h'.cr3.trans h.cr3, fun p hp => h'.reserved p (h.reserved p hp), ?_, ?_⟩
  · intro g k hg hl hne
    by_cases he : m'.ram g k = m.ram g k
    · obtain ⟨hab, i, hi, ht⟩ := h'.cells g k (hres g hg) hl (by rw [he]; exact hne)
      rw [he] at hab
      refine ⟨hab, i, ?_⟩
      rcases h.tables i hi with hsame | hlent | ⟨p, hp, hframe⟩
      · rw [hsame] at hi
        exact ⟨hi, (congrArg frameOf hsame).symm.trans ht⟩
      · exact absurd (ht ▸ hlent) hl
      · exact absurd (hframe.trans ht) (hg.ne_fresh hp)
    · exact h.cells g k hg hl he
  · intro i hi
    rcases h'.tables i hi with hsame | hlent | ⟨p, hp, hframe⟩
    · rw [Machine.table, hsame]
      rw [hsame] at hi
      exact h.tables i hi
    · exact .inr (.inl hlent)
    · refine .inr (.inr ⟨p, ?_, hframe⟩)
      by_contra hp'
      rw [Bool.not_eq_true] at hp'
      rw [h.reserved p hp'] at hp
      cases hp

/-- Entries that are present stay, in the directory in use. -/
theorem Grown.extend (h : Grown lent m m') (hs : Space m)
    (hl : ∀ i, present (m.pde i) → ¬ lent (m.table i)) : m.Extends m' := by
  have hcell : ∀ i j, present (m.pde i) → present (m.pte i j) →
      m'.ram (m.table i) j = m.pte i j := by
    intro i j hi hj
    by_contra hne
    have hab := (h.cells _ j (hs.reserved_table hi) (hl i hi) hne).1
    rw [← Bool.not_eq_true] at hab
    exact hab hj
  have hpde : ∀ i, present (m.pde i) → m'.pde i = m.pde i := by
    intro i hi
    have hown : m.pte 1023 i = m.pde i := by
      rw [Machine.pte, hs.own]
      rfl
    have hc := hcell 1023 i hs.mapped (by rw [hown]; exact hi)
    rw [hown, hs.own, ← h.cr3] at hc
    exact hc
  refine ⟨h.cr3, hpde, ?_⟩
  intro i j hi hj
  rw [Machine.pte_of_pde (hpde i hi)]
  exact hcell i j hi hj

end Grown

variable {lent : Nat → Prop}

theorem Grown.takeFrame (h : Space m) (hp : (kallocPageFrame m.pmm).1 ≠ 0) :
    Grown lent m { m with pmm := (kallocPageFrame m.pmm).2 } :=
  ⟨h.takeFrame hp, rfl, fun _ hc => kallocPageFrame_reserved hp hc,
    fun _ _ _ _ hne => absurd rfl hne, fun _ _ => .inl rfl⟩

theorem Grown.setCell (h : Space m) (hi : present (m.pde i))
    (hj : present (m.pte i j) = false) (hw : isFreePage m.pmm.bitmap w = false)
    (hl : m.table i = m.cr3 → lent (frameOf w)) : Grown lent m (m.setCell (m.table i) j w) := by
  refine ⟨h.setCell hj hw, rfl, fun _ hp => hp, ?_, ?_⟩
  · intro g k _ _ hne
    rw [Machine.setCell_ram] at hne
    by_cases he : g = m.table i ∧ k = j
    · rw [he.1, he.2]
      exact ⟨hj, i, hi, rfl⟩
    · rw [if_neg he] at hne
      exact absurd rfl hne
  · intro k _
    have hpde : (m.setCell (m.table i) j w).pde k =
        if m.cr3 = m.table i ∧ k = j then w else m.pde k := rfl
    by_cases he : m.cr3 = m.table i ∧ k = j
    · rw [if_pos he] at hpde
      exact .inr (.inl (show lent (frameOf _) by rw [hpde]; exact hl he.1.symm))
    · rw [if_neg he] at hpde
      exact .inl hpde

theorem Grown.freshTable (lent : Nat → Prop) (h : Space m) (hi : present (m.pde i) = false)
    (hsup : Supplies m.pmm 1) (hflags : flags.toNat < 0x1000) (hbit : flags.getLsbD 0) :
    Grown lent m (m.freshTable i flags) ∧ present ((m.freshTable i flags).pde i) ∧
      (m.freshTable i flags).table i = frameOf (kallocPageFrame m.pmm).1 ∧
      ∀ j, (m.freshTable i flags).pte i j = 0 := by
  obtain ⟨hp0, hpfree⟩ := hsup 0 Nat.one_pos
  change (kallocPageFrame m.pmm).1 ≠ 0 at hp0
  change isFreePage m.pmm.bitmap (kallocPageFrame m.pmm).1 = true at hpfree
  have hcr3 := h.fresh_cr3 hpfree
  have hpde : ∀ k, (m.freshTable i flags).pde k =
      if k = i then (kallocPageFrame m.pmm).1 ||| flags else m.pde k :=
    fun k => Machine.withTable_pde hcr3 k
  have hnew := (hpde i).trans (if_pos rfl)
  have htable : (m.freshTable i flags).table i = frameOf (kallocPageFrame m.pmm).1 := by
    rw [Machine.table, hnew, frameOf_or _ hflags]
  refine ⟨⟨?_, rfl, fun _ hc => kallocPageFrame_reserved hp0 hc, ?_, ?_⟩, ?_, htable, ?_⟩
  · apply (h.takeFrame hp0).withTable hi (fun k hk => h.fresh_table hpfree hk) _ hflags
    rw [kallocPageFrame_isFreePage hp0, if_pos rfl]
  · intro g k hg _ hne
    have hram : (m.freshTable i flags).ram g k = if g = frameOf (kallocPageFrame m.pmm).1 then 0
        else if g = m.cr3 ∧ k = i then (kallocPageFrame m.pmm).1 ||| flags else m.ram g k := rfl
    rw [hram, if_neg (Ne.symm (hg.ne_fresh hpfree))] at hne
    by_cases he : g = m.cr3 ∧ k = i
    · rw [he.1, he.2]
      exact ⟨hi, 1023, h.mapped, h.own⟩
    · rw [if_neg he] at hne
      exact absurd rfl hne
  · intro k _
    by_cases he : k = i
    · rw [he]
      exact .inr (.inr ⟨_, hpfree, htable.symm⟩)
    · rw [hpde, if_neg he]
      exact .inl rfl
  · rw [hnew]
    exact present_or _ hbit
  · intro j
    rw [Machine.pte, htable]
    exact if_pos rfl

end Space

/-! ## kalloc_page -/

section Alloc
variable {m : Machine} {source target : Word} (kernel readwrite : Bool)

theorem mapPage_eq (h : m.SelfMapped) (hd : present (m.pde (pdi page))) :
    m.mapPage source page kernel readwrite =
      if isFreePage m.pmm.bitmap source = true then .error .frameNotReserved
      else .ok (page, m.setCell (m.table (pdi page)) (pti page)
        (source ||| entryFlags kernel readwrite)) := by
  unfold Machine.mapPage
  by_cases hfree : isFreePage m.pmm.bitmap source
  · rw [if_pos hfree, if_pos hfree]
  · rw [if_neg hfree, if_neg hfree, h.setPageTableEntry, if_pos hd]
    rfl

theorem freshTable_selfMapped (h : m.SelfMapped) {i : Index} (hi : i ≠ 1023)
    (hp : frameOf (kallocPageFrame m.pmm).1 ≠ m.cr3) :
    (m.freshTable i (entryFlags kernel readwrite)).SelfMapped ∧
      present ((m.freshTable i (entryFlags kernel readwrite)).pde i) ∧
      (m.freshTable i (entryFlags kernel readwrite)).table i =
        frameOf (kallocPageFrame m.pmm).1 := by
  set m₁ := m.freshTable i (entryFlags kernel readwrite) with hm₁
  have hpde : ∀ k, m₁.pde k = if k = i then
      (kallocPageFrame m.pmm).1 ||| entryFlags kernel readwrite else m.pde k :=
    fun k => Machine.withTable_pde hp k
  have hnew : m₁.pde i = (kallocPageFrame m.pmm).1 ||| entryFlags kernel readwrite := by
    rw [hpde, if_pos rfl]
  have hlast : m₁.pde 1023 = m.pde 1023 := by rw [hpde, if_neg (Ne.symm hi)]
  refine ⟨⟨hlast ▸ h.mapped, (congrArg frameOf hlast).trans h.own⟩, ?_, ?_⟩
  · rw [hnew]
    exact present_or _ (entryFlags_present kernel readwrite)
  · rw [Machine.table, hnew, frameOf_or _ (entryFlags_lt kernel readwrite)]

section From
variable (h : m.SelfMapped) (hs : source ≠ 0) (hpage : pageAlign target ≠ 0)
include h hs hpage

theorem kallocPageFrom_present (hd : present (m.pde (pdi target)))
    (ht : present (m.pte (pdi target) (pti target)) = false) :
    m.kallocPageFrom source target kernel readwrite =
      if isFreePage m.pmm.bitmap source = true then .error .frameNotReserved
      else .ok (pageAlign target, m.setCell (m.table (pdi target)) (pti target)
        (source ||| entryFlags kernel readwrite)) := by
  unfold Machine.kallocPageFrom
  rw [if_neg hs, if_neg hpage, h.pageTableExists, pdi_pageAlign, pti_pageAlign, hd,
    h.getPageTableEntry, if_pos hd]
  show (if present (m.pte (pdi target) (pti target)) = true then _ else _) = _
  rw [ht]
  show m.mapPage source (pageAlign target) kernel readwrite = _
  rw [mapPage_eq kernel readwrite h (by rw [pdi_pageAlign]; exact hd), pdi_pageAlign, pti_pageAlign]

theorem kallocPageFrom_table (hd : present (m.pde (pdi target)))
    (ht : present (m.pte (pdi target) (pti target)) = false)
    (hres : isFreePage m.pmm.bitmap source = false) :
    m.kallocPageFrom source target kernel readwrite =
      .ok (pageAlign target, m.setCell (m.table (pdi target)) (pti target)
        (source ||| entryFlags kernel readwrite)) := by
  rw [kallocPageFrom_present kernel readwrite h hs hpage hd ht, hres]
  rfl

variable (hd : present (m.pde (pdi target)) = false)
  (hp : frameOf (kallocPageFrame m.pmm).1 ≠ m.cr3)
include hd hp

theorem kallocPageFrom_absent :
    m.kallocPageFrom source target kernel readwrite =
      if isFreePage (kallocPageFrame m.pmm).2.bitmap source = true then .error .frameNotReserved
      else .ok (pageAlign target,
        (m.freshTable (pdi target) (entryFlags kernel readwrite)).setCell
          (frameOf (kallocPageFrame m.pmm).1) (pti target)
          (source ||| entryFlags kernel readwrite)) := by
  have hne : pdi target ≠ 1023 := by
    intro he
    rw [he, h.mapped] at hd
    cases hd
  obtain ⟨hself, hpres, htable⟩ := freshTable_selfMapped kernel readwrite h hne hp
  unfold Machine.kallocPageFrom
  rw [if_neg hs, if_neg hpage, h.pageTableExists, pdi_pageAlign, hd,
    Machine.newPageTable_eq h hne kernel readwrite hp]
  show (m.freshTable (pdi target) (entryFlags kernel readwrite)).mapPage source (pageAlign target)
    kernel readwrite = _
  rw [mapPage_eq kernel readwrite hself (by rw [pdi_pageAlign]; exact hpres), pdi_pageAlign,
    pti_pageAlign, htable]
  rfl

theorem kallocPageFrom_newTable
    (hres : isFreePage (kallocPageFrame m.pmm).2.bitmap source = false) :
    m.kallocPageFrom source target kernel readwrite =
      .ok (pageAlign target,
        (m.freshTable (pdi target) (entryFlags kernel readwrite)).setCell
          (frameOf (kallocPageFrame m.pmm).1) (pti target)
          (source ||| entryFlags kernel readwrite)) := by
  rw [kallocPageFrom_absent kernel readwrite h hs hpage hd hp, hres]
  rfl

end From

/-- The tables that a page still needs. -/
def newTables (m : Machine) (target : Word) : Nat := if present (m.pde (pdi target)) then 0 else 1

theorem translate_eq_none (h : present (m.pde (pdi target))) :
    m.translate target = none ↔ present (m.pte (pdi target) (pti target)) = false := by
  rw [Machine.translate, if_pos h]
  by_cases ht : present (m.pte (pdi target) (pti target))
  · rw [if_pos ht, ht]
    simp
  · rw [if_neg ht]
    simpa using ht

theorem translate_setCell {i j : Index} {w : Word} (hi : present (m.pde i))
    (hj : present (m.pte i j) = false) (hw : present w) {a : Word} (hpdi : pdi a = i)
    (hpti : pti a = j) : (m.setCell (m.table i) j w).translate a = some (frameOf w) := by
  have hpde := (Machine.extends_setCell w hj).pde i hi
  have hpte : (m.setCell (m.table i) j w).pte i j = w := by
    rw [Machine.pte_of_pde hpde, Machine.setCell_ram, if_pos ⟨rfl, rfl⟩]
  rw [Machine.translate, hpdi, hpti, hpde, if_pos hi, hpte, if_pos hw]

variable (target) in
/-- An unmapped page is mapped to a frame that is in use. In the window on the tables, the
frame becomes a table. -/
theorem kallocPageFrom_spec (lent : Nat → Prop) (h : Space m) (hs : source ≠ 0)
    (hpage : pageAlign target ≠ 0) (hun : m.translate target = none)
    (hres : isFreePage m.pmm.bitmap source = false)
    (hl : present (m.pde (pdi target)) → m.table (pdi target) = m.cr3 →
      lent (frameOf source))
    (hsup : Supplies m.pmm (newTables m target)) :
    ∃ m', m.kallocPageFrom source target kernel readwrite = .ok (pageAlign target, m') ∧
      Grown lent m m' ∧ m'.translate target = some (frameOf source) ∧
      m'.pmm = taken (newTables m target) m.pmm := by
  have hflags := entryFlags_lt kernel readwrite
  have hw := frameOf_or source hflags
  have hpres := present_or source (entryFlags_present kernel readwrite)
  by_cases hd : present (m.pde (pdi target))
  · have ht := (translate_eq_none hd).mp hun
    refine ⟨_, kallocPageFrom_table kernel readwrite h.toSelfMapped hs hpage hd ht hres,
      .setCell h hd ht ((isFreePage_congr hw).trans hres) (by rw [hw]; exact hl hd), ?_, ?_⟩
    · rw [← hw]
      exact translate_setCell hd ht hpres rfl rfl
    · rw [newTables, if_pos hd]
      rfl
  · rw [Bool.not_eq_true] at hd
    have hone : newTables m target = 1 := by
      rw [newTables, hd]
      rfl
    rw [hone] at hsup ⊢
    obtain ⟨hgrown, hdp, htable, hzero⟩ := Grown.freshTable lent h hd hsup hflags
      (entryFlags_present kernel readwrite)
    have hcr3 := h.fresh_cr3 (hsup 0 Nat.one_pos).2
    have ht : present ((m.freshTable (pdi target) (entryFlags kernel readwrite)).pte
        (pdi target) (pti target)) = false := by
      rw [hzero]
      decide
    have hres' := kallocPageFrame_reserved (hsup 0 Nat.one_pos).1 hres
    have hcall := kallocPageFrom_newTable kernel readwrite h.toSelfMapped hs hpage hd hcr3 hres'
    rw [← htable] at hcall
    refine ⟨_, hcall, hgrown.trans (.setCell hgrown.space hdp ht
      ((isFreePage_congr hw).trans hres') ?_), ?_, rfl⟩
    · intro he
      rw [htable] at he
      exact absurd he hcr3
    · rw [← hw]
      exact translate_setCell hdp ht hpres rfl rfl

theorem Grown.allocated {m' m₁ : Machine} (h₁ : Allocated m m₁)
    (hfree : isFreePage m.pmm.bitmap source)
    (h : Grown (· = frameOf source) m₁ m') : Allocated m m' := by
  have hsame : Grown (· = frameOf source) m m₁ := ⟨h₁.space, h₁.cr3, h₁.reserved,
    fun g k hg _ => h₁.cells g k hg id, fun i hi => (h₁.tables i hi).imp_right (.imp_left False.elim)⟩
  obtain ⟨hspace, hcr3, hres, hcells, htables⟩ := hsame.trans h
  refine ⟨hspace, hcr3, hres, ?_, ?_⟩
  · intro g k hg _
    exact hcells g k hg fun he => hg.ne_fresh hfree he.symm
  · intro i hi
    rcases htables i hi with he | hl | hp
    · exact .inl he
    · exact .inr (.inr ⟨source, hfree, hl.symm⟩)
    · exact .inr (.inr hp)

theorem kallocPage_eq (hpage : pageAlign target ≠ 0) : m.kallocPage target kernel readwrite =
    Machine.kallocPageFrom { m with pmm := (kallocPageFrame m.pmm).2 } (kallocPageFrame m.pmm).1
      (pageAlign target) kernel readwrite := by
  unfold Machine.kallocPage
  rw [if_neg hpage]

theorem translate_pageAlign (m : Machine) (a : Word) :
    m.translate (pageAlign a) = m.translate a := by
  rw [Machine.translate, pdi_pageAlign, pti_pageAlign]
  rfl

/-- An unmapped page is mapped to the first frame of the allocator. -/
theorem kallocPage_spec (h : Space m) (hpage : pageAlign target ≠ 0)
    (hun : m.translate target = none) (hsup : Supplies m.pmm (1 + newTables m target)) :
    ∃ m', m.kallocPage target kernel readwrite = .ok (pageAlign target, m') ∧ Allocated m m' ∧
      m'.translate target = some (frameOf (kallocPageFrame m.pmm).1) ∧
      m'.pmm = taken (1 + newTables m target) m.pmm := by
  obtain ⟨hs0, hsfree⟩ := hsup 0 (by omega)
  change (kallocPageFrame m.pmm).1 ≠ 0 at hs0
  set source := (kallocPageFrame m.pmm).1 with hsource
  set m₁ : Machine := { m with pmm := (kallocPageFrame m.pmm).2 } with hm₁
  have hres : isFreePage m₁.pmm.bitmap source = false := by
    rw [kallocPageFrame_isFreePage hs0, if_pos rfl]
  have halign : pageAlign (pageAlign target) = pageAlign target :=
    pageAlign_of_aligned (by rw [pageAlign_toNat]; omega)
  have htables : newTables m₁ (pageAlign target) = newTables m target := by
    rw [newTables, pdi_pageAlign]
    rfl
  obtain ⟨m', hcall, hgrown, ht, hpmm⟩ := kallocPageFrom_spec
    (pageAlign target) kernel readwrite (· = frameOf source) (h.takeFrame hs0) hs0
    (by rw [halign]; exact hpage) (by rw [translate_pageAlign]; exact hun) hres (fun _ _ => rfl)
    (by rw [htables]; exact hsup.rest)
  refine ⟨m', ?_, .allocated (.takeFrame h hs0) hsfree hgrown, ?_, ?_⟩
  · rw [kallocPage_eq kernel readwrite hpage, hcall, halign]
  · rw [← translate_pageAlign]
    exact ht
  · rw [hpmm, htables, ← taken_add]
    rfl

theorem kallocPageFrom_mapped (h : m.SelfMapped) (hs : source ≠ 0) (hpage : pageAlign target ≠ 0)
    (hmap : (m.translate target).isSome) :
    m.kallocPageFrom source target kernel readwrite = .ok (0, m) := by
  have hd : present (m.pde (pdi target)) := by
    by_contra hd
    rw [Machine.translate, if_neg hd] at hmap
    cases hmap
  have ht : present (m.pte (pdi target) (pti target)) := by
    by_contra ht
    rw [Bool.not_eq_true, ← translate_eq_none hd] at ht
    rw [ht] at hmap
    cases hmap
  unfold Machine.kallocPageFrom
  rw [if_neg hs, if_neg hpage, h.pageTableExists, pdi_pageAlign, pti_pageAlign, h.getPageTableEntry,
    hd]
  exact if_pos ht

/-- A page that is mapped already costs a frame, and changes nothing else. -/
theorem kallocPage_mapped (h : Space m) (hpage : pageAlign target ≠ 0)
    (hmap : (m.translate target).isSome) (hsup : Supplies m.pmm 1) :
    m.kallocPage target kernel readwrite =
        .ok (0, { m with pmm := (kallocPageFrame m.pmm).2 }) ∧
      Allocated m { m with pmm := (kallocPageFrame m.pmm).2 } := by
  have hs0 : (kallocPageFrame m.pmm).1 ≠ 0 := (hsup 0 Nat.one_pos).1
  have halign : pageAlign (pageAlign target) = pageAlign target :=
    pageAlign_of_aligned (by rw [pageAlign_toNat]; omega)
  refine ⟨?_, .takeFrame h hs0⟩
  rw [kallocPage_eq kernel readwrite hpage]
  apply kallocPageFrom_mapped kernel readwrite (h.takeFrame hs0).toSelfMapped hs0
  · rw [halign]
    exact hpage
  · rw [translate_pageAlign]
    exact hmap

theorem kallocPage_total (h : Space m) (hpage : pageAlign target ≠ 0)
    (hsup : Supplies m.pmm (1 + newTables m target)) :
    ∃ r m', m.kallocPage target kernel readwrite = .ok (r, m') ∧ Allocated m m' ∧
      (m'.translate target).isSome ∧ m'.pmm = taken (1 + newTables m target) m.pmm := by
  cases hmap : m.translate target with
  | none =>
    obtain ⟨m', hcall, hgrown, ht, hpmm⟩ :=
      kallocPage_spec kernel readwrite h hpage hmap hsup
    exact ⟨_, m', hcall, hgrown, by rw [ht]; rfl, hpmm⟩
  | some f =>
    have hd : newTables m target = 0 := by
      unfold newTables
      by_contra hd
      rw [ite_eq_left_iff, not_forall] at hd
      obtain ⟨hd, -⟩ := hd
      rw [Machine.translate, if_neg hd] at hmap
      cases hmap
    rw [hd] at hsup ⊢
    obtain ⟨hcall, hgrown⟩ := kallocPage_mapped kernel readwrite h hpage (by rw [hmap]; rfl) hsup
    refine ⟨_, _, hcall, hgrown, ?_, rfl⟩
    show (m.translate target).isSome
    rw [hmap]
    rfl

end Alloc

/-! ## Many pages -/

/-- The entries of the directory that the pages need and do not have. -/
def missing (m : Machine) (pages : List Word) : Finset Index :=
  (pages.map pdi).toFinset.filter fun i => present (m.pde i) = false

variable {m : Machine}

theorem translate_of_present {a : Word} (h : (m.translate a).isSome) :
    present (m.pde (pdi a)) := by
  by_contra hd
  rw [Machine.translate, if_neg hd] at h
  cases h

theorem mem_missing (pages : List Word) (hp : ¬ present (m.pde (pdi page))) :
    pdi page ∈ missing m (page :: pages) := by
  refine Finset.mem_filter.mpr ⟨?_, by simpa using hp⟩
  rw [List.map_cons, List.toFinset_cons]
  exact Finset.mem_insert_self _ _

theorem newTables_le (m : Machine) (page : Word) (pages : List Word) :
    newTables m page ≤ (missing m (page :: pages)).card := by
  unfold newTables
  by_cases hp : present (m.pde (pdi page))
  · rw [if_pos hp]
    exact Nat.zero_le _
  · rw [if_neg hp]
    exact Finset.card_pos.mpr ⟨_, mem_missing pages hp⟩

/-- What is missing after a page is missing before, and the table of the page was. -/
theorem missing_cons {m m' : Machine} (pages : List Word) (he : m.Extends m')
    (hpage : present (m'.pde (pdi page))) :
    newTables m page + (missing m' pages).card ≤ (missing m (page :: pages)).card := by
  have hsub : missing m' pages ⊆ (missing m (page :: pages)).erase (pdi page) := by
    intro i hi
    obtain ⟨hmem, hab⟩ := Finset.mem_filter.mp hi
    refine Finset.mem_erase.mpr ⟨?_, Finset.mem_filter.mpr ⟨?_, ?_⟩⟩
    · intro heq
      rw [heq, hpage] at hab
      cases hab
    · rw [List.map_cons, List.toFinset_cons]
      exact Finset.mem_insert_of_mem hmem
    · rw [← Bool.not_eq_true]
      intro hp
      rw [he.pde i hp, hp] at hab
      cases hab
  have hcard := Finset.card_le_card hsub
  unfold newTables
  by_cases hp : present (m.pde (pdi page))
  · rw [if_pos hp, Nat.zero_add]
    exact hcard.trans (Finset.card_le_card (Finset.erase_subset _ _))
  · have hmem := mem_missing pages hp
    rw [Finset.card_erase_of_mem hmem] at hcard
    have hpos := Finset.card_pos.mpr ⟨_, hmem⟩
    rw [if_neg hp]
    omega

/-- With a frame for each page and each missing table, all pages are mapped. -/
theorem kallocPages_spec (kernel readwrite : Bool) (h : Space m) (pages : List Word)
    (hpages : ∀ page ∈ pages, pageAlign page ≠ 0)
    (hsup : Supplies m.pmm (pages.length + (missing m pages).card)) :
    ∃ m', m.kallocPages pages kernel readwrite = .ok m' ∧ Allocated m m' ∧
      ∀ page ∈ pages, (m'.translate page).isSome := by
  induction pages generalizing m with
  | nil => exact ⟨m, rfl, .refl h, by simp⟩
  | cons page pages ih =>
    obtain ⟨hpage, hrest⟩ := List.forall_mem_cons.mp hpages
    have hnew := newTables_le m page pages
    rw [List.length_cons] at hsup
    obtain ⟨r, m₁, hcall, hgrown, ht, hpmm⟩ :=
      kallocPage_total kernel readwrite h hpage (hsup.mono (by omega))
    have hmiss := missing_cons pages (hgrown.extend h fun _ _ => id) (translate_of_present ht)
    have hsup' : Supplies m.pmm (1 + newTables m page + (pages.length + (missing m₁ pages).card)) :=
      hsup.mono (by omega)
    obtain ⟨m', hloop, hgrown', hall⟩ := ih hgrown.space hrest (by rw [hpmm]; exact hsup'.rest)
    refine ⟨m', ?_, hgrown.trans hgrown', ?_⟩
    · rw [Machine.kallocPages, List.foldlM_cons, hcall]
      exact hloop
    · intro a ha
      rcases List.mem_cons.mp ha with rfl | ha
      · obtain ⟨f, hf⟩ := Option.isSome_iff_exists.mp ht
        rw [(hgrown'.extend hgrown.space fun _ _ => id).translate hf]
        rfl
      · exact hall a ha

end TapiOS.Mem.Vmm
