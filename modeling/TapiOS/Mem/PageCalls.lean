import TapiOS.Mem.Ascending
import TapiOS.Mem.DataFrames

/-!
# What one call of kalloc_page_from and kalloc_page changes

A page that gets mapped, and nothing beside it: the walk of the tables by the processor is
the same for every other address below the window on the tables. A call that fails takes
its frame before it looks at the page.
-/
namespace TapiOS.Mem.Vmm

open Lib Util
open Mem.Pmm (isFreePage kallocPageFrame setPageReserved)

/-! ## A page is mapped -/

section Mapping
variable {m m' : Machine} {source target r : Word} {kernel readwrite : Bool}

theorem kallocPageFrom_cases (h : m.SelfMapped)
    (hnew : present (m.pde (pdi target)) = false → frameOf (kallocPageFrame m.pmm).1 ≠ m.cr3)
    (hc : m.kallocPageFrom source target kernel readwrite = .ok (r, m')) :
    (r = 0 ∧ m' = m) ∨
    (present (m.pde (pdi target)) ∧ present (m.pte (pdi target) (pti target)) = false ∧
      m' = m.setCell (m.table (pdi target)) (pti target) (source ||| entryFlags kernel readwrite)) ∨
    (present (m.pde (pdi target)) = false ∧
      m' = (m.freshTable (pdi target) (entryFlags kernel readwrite)).setCell
        (frameOf (kallocPageFrame m.pmm).1) (pti target)
        (source ||| entryFlags kernel readwrite)) := by
  have hs : source ≠ 0 := by
    intro hs
    rw [Machine.kallocPageFrom, if_pos hs] at hc
    cases hc
  by_cases hpage : pageAlign target = 0
  · left
    unfold Machine.kallocPageFrom at hc
    rw [if_neg hs, if_pos hpage] at hc
    cases hc
    exact ⟨rfl, rfl⟩
  cases hd : present (m.pde (pdi target)) with
  | false =>
    right; right
    refine ⟨rfl, ?_⟩
    rw [kallocPageFrom_absent kernel readwrite h hs hpage hd (hnew hd)] at hc
    split_ifs at hc
    cases hc
    rfl
  | true =>
    cases ht : present (m.pte (pdi target) (pti target)) with
    | true =>
      left
      have hmap : (m.translate target).isSome := by
        rw [Machine.translate, if_pos hd, if_pos ht]
        rfl
      rw [kallocPageFrom_mapped kernel readwrite h hs hpage hmap] at hc
      cases hc
      exact ⟨rfl, rfl⟩
    | false =>
      right; left
      refine ⟨rfl, rfl, ?_⟩
      rw [kallocPageFrom_present kernel readwrite h hs hpage hd ht] at hc
      split_ifs at hc
      cases hc
      rfl

/-- No entry of the directory has the frame as its table; the directory is the table of its
own last entry. -/
def NoTable (m : Machine) (f : Nat) : Prop := ∀ k, present (m.pde k) → m.table k ≠ f

theorem entry_parts {source : Word} (h : source.toNat % 0x1000 = 0) (kernel readwrite : Bool) :
    (source ||| entryFlags kernel readwrite) &&& 0xFFFFF000 = source ∧
      (source ||| entryFlags kernel readwrite) &&& 0xFFF = entryFlags kernel readwrite := by
  have hlow : source &&& 0xFFF = 0#32 := by
    apply BitVec.eq_of_toNat_eq
    show source.toNat &&& (2 ^ 12 - 1) = 0
    rw [Nat.and_two_pow_sub_one_eq_mod]
    exact h
  have hhigh : source &&& 0xFFFFF000 = source := by
    have hall : source &&& (0xFFFFF000 ||| 0xFFF) = source := by
      rw [show (0xFFFFF000 ||| 0xFFF : Word) = BitVec.allOnes 32 by decide, BitVec.and_allOnes]
    rw [BitVec.and_or_distrib_left, hlow, BitVec.or_zero] at hall
    exact hall
  have hflags : entryFlags kernel readwrite &&& 0xFFFFF000 = 0#32 ∧
      entryFlags kernel readwrite &&& 0xFFF = entryFlags kernel readwrite := by
    revert kernel readwrite
    decide
  constructor
  · rw [BitVec.and_or_distrib_right, hhigh, hflags.1, BitVec.or_zero]
  · rw [BitVec.and_or_distrib_right, hlow, hflags.2, BitVec.zero_or]

/-- An entry for the page, in a table that may be new: it is found by the walk, and no other
page changes. -/
theorem Separate.setEntry {m₀ : Machine} {w : Word} (hsep : Separate m) (hself : m.SelfMapped)
    (hd : present (m.pde (pdi target))) (hwin : pdi target ≠ 1023)
    (ht : present (m.pte (pdi target) (pti target)) = false) (hw : present w)
    (hsame : ∀ a, pdi a ≠ 1023 → m.translate a = m₀.translate a) :
    (∀ a, a.toNat / 0x1000 = target.toNat / 0x1000 →
      (m.setCell (m.table (pdi target)) (pti target) w).translate a = some (frameOf w) ∧
      (m.setCell (m.table (pdi target)) (pti target) w).pte (pdi a) (pti a) = w) ∧
    ∀ a, pdi a ≠ 1023 → a.toNat / 0x1000 ≠ target.toNat / 0x1000 →
      (m.setCell (m.table (pdi target)) (pti target) w).translate a = m₀.translate a := by
  have hpde : ∀ k, (m.setCell (m.table (pdi target)) (pti target) w).pde k = m.pde k :=
    Machine.setCell_pde (hsep.ne_cr3 hself hd hwin)
  constructor
  · intro a ha
    obtain ⟨hpdi, hpti⟩ := (samePage_iff a target).mpr ha
    refine ⟨translate_setCell hd ht hw hpdi hpti, ?_⟩
    rw [hpdi, hpti, Machine.pte_of_pde (hpde _), Machine.setCell_ram, if_pos ⟨rfl, rfl⟩]
  · intro a ha hne
    have hother := (hsep.setCell (j := pti target) (w := w) hself hd hwin).2 a
      fun he => hne ((samePage_iff a target).mp he)
    exact hother.1.trans (hsame a ha)

/-- When kalloc_page_from returns a page, the walk finds the frame there, with the flags asked
for; every other address below the window is translated as before, and the other pages of a
new table are not mapped. -/
theorem page_mapped_alone (m m' : Machine) (source target r : Word) (kernel readwrite : Bool)
    (hself : m.SelfMapped) (hsep : Separate m) (hwin : pdi target ≠ 1023)
    (haligned : source.toNat % 0x1000 = 0)
    (hnew : present (m.pde (pdi target)) = false →
      NoTable m (frameOf (kallocPageFrame m.pmm).1))
    (hcall : m.kallocPageFrom source target kernel readwrite = .ok (r, m')) (hr : r ≠ 0) :
    (∀ a, a.toNat / 0x1000 = target.toNat / 0x1000 →
      m'.translate a = some (frameOf source) ∧
      m'.pte (pdi a) (pti a) &&& 0xFFFFF000 = source ∧
      m'.pte (pdi a) (pti a) &&& 0xFFF = entryFlags kernel readwrite) ∧
    (∀ a, pdi a ≠ 1023 → a.toNat / 0x1000 ≠ target.toNat / 0x1000 →
      m'.translate a = m.translate a) ∧
    (present (m.pde (pdi target)) = false → ∀ a, pdi a = pdi target →
      a.toNat / 0x1000 ≠ target.toNat / 0x1000 → m'.translate a = none) := by
  have hflags := entryFlags_lt kernel readwrite
  have hbit := entryFlags_present kernel readwrite
  have hw : present (source ||| entryFlags kernel readwrite) := present_or _ hbit
  have hparts := entry_parts haligned kernel readwrite
  have hcr3 : present (m.pde (pdi target)) = false →
      frameOf (kallocPageFrame m.pmm).1 ≠ m.cr3 := by
    intro hd
    rw [← hself.own]
    exact (hnew hd 1023 hself.mapped).symm
  -- both ways of mapping end in one new entry
  have hentry : (∀ a, a.toNat / 0x1000 = target.toNat / 0x1000 →
      m'.translate a = some (frameOf (source ||| entryFlags kernel readwrite)) ∧
      m'.pte (pdi a) (pti a) = source ||| entryFlags kernel readwrite) ∧
      ∀ a, pdi a ≠ 1023 → a.toNat / 0x1000 ≠ target.toNat / 0x1000 →
        m'.translate a = m.translate a := by
    rcases kallocPageFrom_cases hself hcr3 hcall with ⟨h0, -⟩ | ⟨hd, ht, rfl⟩ | ⟨hd, rfl⟩
    · exact absurd h0 hr
    · exact hsep.setEntry hself hd hwin ht hw fun _ _ => rfl
    · obtain ⟨hself₁, hd₁, htable⟩ := freshTable_selfMapped kernel readwrite hself hwin (hcr3 hd)
      obtain ⟨hsep₁, hsame⟩ := hsep.freshTable hself hd (fun k hk => (hnew hd k hk).symm) hflags hbit
      have hzero : present ((m.freshTable (pdi target) (entryFlags kernel readwrite)).pte
          (pdi target) (pti target)) = false := by
        rw [Machine.pte, htable]
        show present (if frameOf (kallocPageFrame m.pmm).1 = frameOf (kallocPageFrame m.pmm).1 then 0
          else _) = false
        rw [if_pos rfl]
        decide
      rw [← htable]
      exact hsep₁.setEntry hself₁ hd₁ hwin hzero hw fun a ha => (hsame a ha).1
  refine ⟨fun a ha => ?_, hentry.2, fun hd a ha hne => ?_⟩
  · obtain ⟨htr, hpte⟩ := hentry.1 a ha
    rw [frameOf_or _ hflags] at htr
    rw [hpte]
    exact ⟨htr, hparts⟩
  · rw [hentry.2 a (by rw [ha]; exact hwin) hne]
    apply translate_none_of_absent
    rw [ha]
    exact hd

end Mapping

/-- A directory in frame 1 whose first table, in frame 2, maps page 1 to frame 3. The frames
from 4 on are free. -/
def smallSpace : Machine where
  ram := fun g j =>
    if g = 1 then if j = 1023 then 0x1003 else if j = 0 then 0x2007 else 0
    else if g = 2 ∧ j = 1 then 0x3007 else 0
  cr3 := 1
  pmm := ⟨fun i => if i = 0 then 0xF0000000 else 0, 0x4000⟩

theorem smallSpace_selfMapped : smallSpace.SelfMapped := ⟨by decide, by decide⟩

theorem smallSpace_separate : Separate smallSpace := by
  have hentry : ∀ i, present (smallSpace.pde i) → i = 0 ∨ i = 1023 := by decide +kernel
  intro i k hi hk he
  rcases hentry i hi with rfl | rfl <;> rcases hentry k hk with rfl | rfl
  · rfl
  · exact absurd he (by decide)
  · exact absurd he (by decide)
  · rfl

/-- Frame 3 again, behind a new table in frame 4. -/
theorem page_mapped_alone_smallSpace : ∃ m',
    smallSpace.kallocPageFrom 0x3000 0x400000 false true = .ok (0x400000, m') ∧
      m'.translate 0x400ABC = some 3 ∧ m'.translate 0x1000 = some 3 ∧
      m'.translate 0x401000 = none := by
  have hframe : (kallocPageFrame smallSpace.pmm).1 = 0x4000 := by decide +kernel
  have hcall := @kallocPageFrom_newTable smallSpace 0x3000 0x400000 false true
    smallSpace_selfMapped (by decide) (by decide) (by decide)
    (by rw [hframe]; decide) (by decide +kernel)
  have hno : NoTable smallSpace 4 := by
    unfold NoTable
    decide +kernel
  obtain ⟨hin, hother, hrest⟩ := page_mapped_alone smallSpace _ _ _ _ _ _ smallSpace_selfMapped
    smallSpace_separate (by decide) (by decide)
    (fun _ => by rw [hframe]; exact hno) hcall (by decide)
  refine ⟨_, hcall, (hin 0x400ABC (by decide)).1, (hother 0x1000 (by decide) (by decide)).trans ?_,
    hrest (by decide) 0x401000 (by decide) (by decide)⟩
  decide

/-! ## A call that fails -/

section Failing
variable {m m' : Machine} {source target : Word} {kernel readwrite : Bool}

/-- The page is mapped, as kalloc_page_from sees it. -/
def SeenMapped (m : Machine) (a : Word) : Prop :=
  m.pageTableExists (pdi a) = .ok true ∧
    ∃ entry, m.getPageTableEntry (pdi a) (pti a) = .ok entry ∧ present entry

theorem mapPage_page {page r : Word}
    (h : m.mapPage source page kernel readwrite = .ok (r, m')) : r = page := by
  unfold Machine.mapPage at h
  split_ifs at h
  obtain ⟨m₁, -, h⟩ := bind_eq_ok.mp h
  cases h
  rfl

/-- kalloc_page_from returns NULL for a mapped page, and then it has done nothing. -/
theorem kallocPageFrom_null (hpage : pageAlign target ≠ 0) :
    m.kallocPageFrom source target kernel readwrite = .ok (0, m') ↔
      source ≠ 0 ∧ SeenMapped m target ∧ m' = m := by
  unfold Machine.kallocPageFrom SeenMapped
  by_cases hs : source = 0
  · rw [if_pos hs]
    constructor
    · intro h
      cases h
    · exact fun h => absurd hs h.1
  rw [if_neg hs]
  rw [if_neg hpage, pdi_pageAlign, pti_pageAlign]
  constructor
  · intro h
    refine ⟨hs, ?_⟩
    obtain ⟨e, he, h⟩ := bind_eq_ok.mp h
    cases e with
    | false =>
      obtain ⟨m₁, -, h⟩ := bind_eq_ok.mp h
      exact absurd (mapPage_page h).symm hpage
    | true =>
      obtain ⟨entry, hentry, h⟩ := bind_eq_ok.mp h
      by_cases hp : present entry
      · rw [if_pos hp] at h
        cases h
        exact ⟨⟨he, entry, hentry, hp⟩, rfl⟩
      · rw [if_neg hp] at h
        exact absurd (mapPage_page h).symm hpage
  · intro h
    obtain ⟨-, ⟨he, entry, hentry, hp⟩, rfl⟩ := h
    rw [he, ok_bind, if_neg (by decide), hentry, ok_bind, if_pos hp]

theorem kallocPage_null (hpage : pageAlign target ≠ 0) :
    m.kallocPage target kernel readwrite = .ok (0, m') ↔
      (kallocPageFrame m.pmm).1 ≠ 0 ∧ SeenMapped m target ∧
        m' = { m with pmm := (kallocPageFrame m.pmm).2 } := by
  have halign : pageAlign (pageAlign target) = pageAlign target :=
    pageAlign_of_aligned (by rw [pageAlign_toNat]; omega)
  rw [kallocPage_eq kernel readwrite hpage, kallocPageFrom_null (by rw [halign]; exact hpage)]
  unfold SeenMapped
  rw [pdi_pageAlign, pti_pageAlign]
  rfl

/-- What a failing call must not touch: the frames and the entries. -/
def LeavesNoTrace (m : Machine) (target : Word) (kernel readwrite : Bool) : Prop :=
  ∀ m', m.kallocPage target kernel readwrite = .ok (0, m') →
    m'.pmm.bitmap = m.pmm.bitmap ∧ m'.ram = m.ram

end Failing

/-- A failing call leaves no trace exactly if it fails for page 0, or if there is no frame
that it could lose; a page that is mapped already costs one. -/
theorem failed_page_traceless_iff (m : Machine) (target : Word) (kernel readwrite : Bool) :
    LeavesNoTrace m target kernel readwrite ↔
      pageAlign target = 0 ∨ ¬ SeenMapped m target ∨ ¬ Supplies m.pmm 1 := by
  have hsupplies : Supplies m.pmm 1 ↔ (kallocPageFrame m.pmm).1 ≠ 0 ∧
      isFreePage m.pmm.bitmap (kallocPageFrame m.pmm).1 := by
    constructor
    · intro h
      exact h 0 Nat.one_pos
    · intro h k hk
      obtain rfl : k = 0 := by omega
      exact h
  by_cases hpage : pageAlign target = 0
  · refine iff_of_true ?_ (.inl hpage)
    intro m' hc
    unfold Machine.kallocPage at hc
    dsimp only at hc
    rw [if_pos hpage] at hc
    cases hc
    exact ⟨rfl, rfl⟩
  constructor
  · intro h
    by_contra hnot
    rw [not_or, not_or, not_not, not_not] at hnot
    obtain ⟨-, hseen, hsup⟩ := hnot
    obtain ⟨hne, hfree⟩ := hsupplies.mp hsup
    have hb := (h _ ((kallocPage_null hpage).mpr ⟨hne, hseen, rfl⟩)).1
    have hres := kallocPageFrame_isFreePage hne (kallocPageFrame m.pmm).1
    rw [if_pos rfl, show (kallocPageFrame m.pmm).2.bitmap = m.pmm.bitmap from hb, hfree] at hres
    cases hres
  · intro h m' hc
    obtain ⟨hne, hseen, rfl⟩ := (kallocPage_null hpage).mp hc
    refine ⟨?_, rfl⟩
    have hres : isFreePage m.pmm.bitmap (kallocPageFrame m.pmm).1 = false := by
      rw [← Bool.not_eq_true]
      intro hfree
      rcases h with h | h | h
      · exact hpage h
      · exact h hseen
      · exact h (hsupplies.mpr ⟨hne, hfree⟩)
    rcases Pmm.kallocPageFrame_spec m.pmm with ⟨-, he⟩ | ⟨i, o, -, -, -, he, -⟩
    · rw [he] at hne
      exact absurd rfl hne
    · rw [he] at hres
      show (kallocPageFrame m.pmm).2.bitmap = m.pmm.bitmap
      rw [he]
      exact Pmm.setPageReserved_reserved hres

/-- Page 1 of the small space is mapped; another request for it takes frame 4. -/
theorem failed_page_costs_frame : ¬ ∀ m target kernel readwrite,
    LeavesNoTrace m target kernel readwrite := by
  intro h
  have hseen : SeenMapped smallSpace 0x1000 := by
    refine ⟨?_, 0x3007, ?_, by decide⟩
    · rw [smallSpace_selfMapped.pageTableExists]
      rfl
    · rw [smallSpace_selfMapped.getPageTableEntry]
      rfl
  have hcall : smallSpace.kallocPage 0x1000 false true = .ok (0, _) :=
    (kallocPage_null (by decide)).mpr ⟨by decide +kernel, hseen, rfl⟩
  have hb := congrFun (h smallSpace 0x1000 false true _ hcall).1 0
  exact absurd hb (by decide +kernel)

end TapiOS.Mem.Vmm
