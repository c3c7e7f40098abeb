import Mathlib.Data.Set.Lattice
import Mathlib.Order.CompletePartialOrder
import TapiOS.Mem.Mapping

/-!
# The user heap, _sbrk of syscall/syscalls.c

The break is rounded up to 8 bytes, and the pages between its old and its new page are
allocated. The page of the break itself is mapped before and after.
-/
namespace TapiOS.Task.Sbrk

open Lib Util Mem.Vmm

/-- The break of current_process, and the memory. -/
structure Process where
  machine : Machine
  brk : Word

/-- `(brk+increment+7) & ~7` -/
def newBreak (brk increment : Word) : Word := (brk + increment + 7) &&& ~~~7

/-- The addresses `oldbrk + i * 0x1000` for `i` from 1 to `n`. -/
def pagesBehind (oldbrk : Word) (n : Nat) : List Word :=
  (List.range' 1 n).map fun i => oldbrk + BitVec.ofNat 32 (i * 0x1000)

def sbrk (p : Process) (increment : Word) : Except Stop (Word × Process) :=
  if increment.toInt < 0 then .error .negativeIncrement
  else if increment = 0 then .ok (p.brk, p)
  else
    let oldbrk := p.brk
    let newbrk := newBreak p.brk increment
    let pagediff := (newbrk / 0x1000 - oldbrk / 0x1000).toInt
    if pagediff = 0 then .ok (oldbrk, { p with brk := newbrk })
    else if 0 < pagediff then do
      let m ← p.machine.kallocPages (pagesBehind oldbrk pagediff.toNat) false true
      return (oldbrk, ⟨m, newbrk⟩)
    else do
      let m ← (pagesBehind oldbrk (-pagediff).toNat).foldlM Machine.kfreePage p.machine
      return (oldbrk, ⟨m, newbrk⟩)

section Growth
variable {p : Process} {increment : Word}

def Mapped (m : Machine) (a : Word) : Prop := (m.translate a).isSome

/-- The pages that a call with this increment allocates. -/
def pagesFor (p : Process) (increment : Word) : List Word :=
  pagesBehind p.brk ((newBreak p.brk increment).toNat / 0x1000 - p.brk.toNat / 0x1000)

/-- The increment is not negative, the new break does not wrap, and there are frames for the
new pages and the tables they need. Pages that are mapped already do no harm. -/
structure CanGrow (p : Process) (increment : Word) : Prop where
  nonneg : 0 ≤ increment.toInt
  noWrap : p.brk.toNat + increment.toNat + 7 < 2 ^ 32
  frames : Supplies p.machine.pmm ((pagesFor p increment).length +
    (missing p.machine (pagesFor p increment)).card)

theorem newBreak_toNat (h : p.brk.toNat + increment.toNat + 7 < 2 ^ 32) :
    (newBreak p.brk increment).toNat = (p.brk.toNat + increment.toNat + 7) / 8 * 8 := by
  have hsum : (p.brk + increment + 7).toNat = p.brk.toNat + increment.toNat + 7 := by
    show ((p.brk.toNat + increment.toNat) % 2 ^ 32 + 7) % 2 ^ 32 = _
    omega
  rw [newBreak, show ~~~(7 : Word) = BitVec.allOnes 32 <<< 3 by decide, and_mask_toNat, hsum]
  rfl

theorem pagediff_eq {old new : Word} (h : old.toNat ≤ new.toNat) :
    (new / 0x1000 - old / 0x1000).toInt = (new.toNat / 0x1000 - old.toNat / 0x1000 : Nat) := by
  have hdiff : (new / 0x1000 - old / 0x1000).toNat = new.toNat / 0x1000 - old.toNat / 0x1000 := by
    show (2 ^ 32 - old.toNat / 0x1000 + new.toNat / 0x1000) % 2 ^ 32 = _
    omega
  rw [BitVec.toInt_eq_toNat_of_lt (by omega), hdiff]

theorem pagesBehind_toNat {old : Word} {n : Nat} (hn : old.toNat + n * 0x1000 < 2 ^ 32)
    {page : Word} (h : page ∈ pagesBehind old n) :
    ∃ i, 1 ≤ i ∧ i ≤ n ∧ page.toNat = old.toNat + i * 0x1000 := by
  obtain ⟨i, hi, rfl⟩ := List.mem_map.mp h
  rw [List.mem_range'_1] at hi
  refine ⟨i, hi.1, by omega, ?_⟩
  rw [BitVec.toNat_add, BitVec.toNat_ofNat]
  omega

theorem exists_pageBehind {old : Word} {n i : Nat} (hn : old.toNat + n * 0x1000 < 2 ^ 32)
    (h1 : 1 ≤ i) (hi : i ≤ n) :
    ∃ page ∈ pagesBehind old n, page.toNat = old.toNat + i * 0x1000 := by
  refine ⟨_, List.mem_map.mpr ⟨i, List.mem_range'_1.mpr (by omega), rfl⟩, ?_⟩
  rw [BitVec.toNat_add, BitVec.toNat_ofNat]
  omega

/-- One call: it returns the old break, and maps the pages up to that of the new one. -/
theorem sbrk_spec (hs : Space p.machine) (h : CanGrow p increment) :
    ∃ p', sbrk p increment = .ok (p.brk, p') ∧ Allocated p.machine p'.machine ∧
      p.brk.toNat + increment.toNat ≤ p'.brk.toNat ∧
      ∀ a : Word, p.brk.toNat / 0x1000 < a.toNat / 0x1000 →
        a.toNat / 0x1000 ≤ p'.brk.toNat / 0x1000 → Mapped p'.machine a := by
  have hwrap := h.noWrap
  have hnew := newBreak_toNat hwrap
  unfold sbrk
  rw [if_neg (Int.not_lt.mpr h.nonneg)]
  by_cases h0 : increment = 0
  · rw [if_pos h0]
    refine ⟨p, rfl, .refl hs, by rw [h0]; exact Nat.le_refl _, ?_⟩
    intro a h1 h2
    omega
  rw [if_neg h0]
  dsimp only
  rw [pagediff_eq (by omega)]
  set n := (newBreak p.brk increment).toNat / 0x1000 - p.brk.toNat / 0x1000 with hn
  by_cases hz : n = 0
  · rw [if_pos (by omega)]
    refine ⟨_, rfl, .refl hs, by dsimp only; omega, ?_⟩
    intro a h1 h2
    dsimp only at h2
    omega
  rw [if_neg (by omega), if_pos (by omega), Int.toNat_natCast]
  have hbound : p.brk.toNat + n * 0x1000 < 2 ^ 32 := by
    omega
  obtain ⟨m', hloop, hgrown, hall⟩ := kallocPages_spec false true hs (pagesBehind p.brk n)
    (by
      intro page hpage
      obtain ⟨i, h1, -, hi⟩ := pagesBehind_toNat hbound hpage
      intro hzero
      have hal := pageAlign_toNat page
      rw [hzero] at hal
      change 0 = page.toNat / 0x1000 * 0x1000 at hal
      omega) h.frames
  rw [hloop]
  refine ⟨_, rfl, hgrown, by dsimp only; omega, ?_⟩
  intro a h1 h2
  dsimp only at h2
  have hle : a.toNat / 0x1000 - p.brk.toNat / 0x1000 ≤ n := by omega
  obtain ⟨page, hmem, hpage⟩ := exists_pageBehind hbound (by omega) hle
  rw [Mapped, translate_page m' (b := page) (by omega)]
  exact hall page hmem

end Growth

section Runs
variable {p : Process} {incs : List Word} {tr : List (Transition Process Word Word)}

/-- From the page of the first break to that of the break all pages are mapped. -/
structure Heap (first : Word) (p : Process) : Prop where
  space : Space p.machine
  above : first.toNat ≤ p.brk.toNat
  mapped : ∀ a : Word, first.toNat / 0x1000 ≤ a.toNat / 0x1000 →
    a.toNat / 0x1000 ≤ p.brk.toNat / 0x1000 → Mapped p.machine a

theorem Heap.sbrk {first increment : Word} (h : Heap first p) (hc : CanGrow p increment) :
    ∃ p', sbrk p increment = .ok (p.brk, p') ∧ Heap first p' ∧
      p.brk.toNat + increment.toNat ≤ p'.brk.toNat := by
  obtain ⟨p', hcall, hgrown, hbrk, hmap⟩ := sbrk_spec h.space hc
  refine ⟨p', hcall, ⟨hgrown.space, by have := h.above; omega, ?_⟩, hbrk⟩
  intro a h1 h2
  by_cases hold : a.toNat / 0x1000 ≤ p.brk.toNat / 0x1000
  · obtain ⟨f, hf⟩ := Option.isSome_iff_exists.mp (h.mapped a h1 hold)
    rw [Mapped, (hgrown.extend h.space fun _ _ => id).translate hf]
    rfl
  · exact hmap a (by omega) h2

/-- The bytes that a call has given out. -/
def given (x : Transition Process Word Word) : Set Word :=
  {a | x.output.toNat ≤ a.toNat ∧ a.toNat < x.output.toNat + x.input.toNat}

/-- Where the bytes of a call lie between the breaks of the run. -/
theorem given_between (hr : run sbrk p incs = some tr)
    (hstep : ∀ x ∈ tr, x.output = x.pre.brk ∧
      x.pre.brk.toNat + x.input.toNat ≤ x.post.brk.toNat) :
    p.brk.toNat ≤ (lastState p tr).brk.toNat ∧
    (∀ x ∈ tr, p.brk.toNat ≤ x.output.toNat ∧
      x.output.toNat + x.input.toNat ≤ (lastState p tr).brk.toNat) ∧
    tr.Pairwise fun x y => x.output.toNat + x.input.toNat ≤ y.output.toNat := by
  induction incs generalizing p tr with
  | nil =>
    rw [run_nil hr]
    exact ⟨Nat.le_refl _, by simp, List.Pairwise.nil⟩
  | cons inc incs ih =>
    obtain ⟨o, t, rest, -, hrest, rfl⟩ := run_cons hr
    obtain ⟨⟨ho, hbrk⟩, hlater⟩ := List.forall_mem_cons.mp hstep
    dsimp only at ho hbrk
    obtain ⟨hlast, hall, hpair⟩ := ih hrest hlater
    rw [lastState_cons]
    dsimp only
    refine ⟨by omega, ?_, List.pairwise_cons.mpr ⟨?_, hpair⟩⟩
    · intro x hx
      rcases List.mem_cons.mp hx with rfl | hx
      · dsimp only
        rw [ho]
        omega
      · have h := hall x hx
        omega
    · intro y hy
      have h := hall y hy
      dsimp only
      rw [ho]
      omega

end Runs

/-- Each call returns the break before it; the pages from the first break to the break are
mapped after every call; the bytes given out are mapped, and belong to one call only. -/
theorem sbrk_runs (p : Process) (incs : List Word) (hs : Space p.machine)
    (hbrk : Mapped p.machine p.brk) (hc : Meets sbrk CanGrow p incs) :
    ∃ tr, run sbrk p incs = some tr ∧
      (∀ x ∈ tr, x.output = x.pre.brk) ∧
      (∀ x ∈ tr, ∀ a : Word, p.brk.toNat / 0x1000 ≤ a.toNat / 0x1000 →
        a.toNat / 0x1000 ≤ x.post.brk.toNat / 0x1000 → Mapped x.post.machine a) ∧
      (∀ x ∈ tr, ∀ a ∈ given x, Mapped (lastState p tr).machine a) ∧
      tr.Pairwise fun x y => Disjoint (given x) (given y) := by
  have h0 : Heap p.brk p := by
    refine ⟨hs, Nat.le_refl _, ?_⟩
    intro a h1 h2
    rw [Mapped, translate_page _ (Nat.le_antisymm h2 h1)]
    exact hbrk
  obtain ⟨tr, hr, hall⟩ := run_total (I := Heap p.brk) (fun s inc hh hg => by
    obtain ⟨t, ht, hh', -⟩ := hh.sbrk hg
    exact ⟨_, t, ht, hh'⟩) h0 hc
  have hstep : ∀ x ∈ tr, (x.output = x.pre.brk ∧
      x.pre.brk.toNat + x.input.toNat ≤ x.post.brk.toNat) ∧ Heap p.brk x.post := by
    intro x hx
    obtain ⟨hg, hh⟩ := hall x hx
    obtain ⟨t, ht, hh', hle⟩ := hh.sbrk hg
    have he := Except.ok.inj ((run_step hr x hx).symm.trans ht)
    rw [Prod.mk.injEq] at he
    rw [he.2]
    exact ⟨⟨he.1, hle⟩, hh'⟩
  obtain ⟨-, hin, hpair⟩ := given_between hr fun x hx => (hstep x hx).1
  have hlast : Heap p.brk (lastState p tr) :=
    run_invariant_last (C := fun x => Heap p.brk x.post) (fun x _ hx _ => hx) hr h0
      fun x hx => (hstep x hx).2
  refine ⟨tr, hr, fun x hx => (hstep x hx).1.1, fun x hx => (hstep x hx).2.mapped, ?_, ?_⟩
  · intro x hx a ha
    have h := hin x hx
    obtain ⟨ha1, ha2⟩ := ha
    exact hlast.mapped a (Nat.div_le_div_right (by omega)) (Nat.div_le_div_right (by omega))
  · apply hpair.imp
    intro x y hxy
    rw [Set.disjoint_left]
    intro a hx hy
    have h1 := hx.2
    have h2 := hy.1
    omega

/-- A process with its break at 0x1800, in frame 3. Frame 1 is the directory and frame 2
its first table; the frames from 4 on are free. -/
def smallProcess : Process where
  machine :=
    { ram := fun g j =>
        if g = 1 then if j = 1023 then 0x1003 else if j = 0 then 0x2007 else 0
        else if g = 2 ∧ j = 1 then 0x3007 else 0
      cr3 := 1
      pmm := ⟨fun i => if i = 0 then 0xF0000000 else 0, 0x4000⟩ }
  brk := 0x1800

theorem smallProcess_space : Space smallProcess.machine :=
  ⟨⟨by decide, by decide⟩, by decide +kernel⟩

/-- 16 bytes in the same page, and then two pages. -/
theorem sbrk_runs_small : Mapped smallProcess.machine smallProcess.brk ∧
    Meets sbrk CanGrow smallProcess [0x10, 0x1800] ∧
    ∃ tr, run sbrk smallProcess [0x10, 0x1800] = some tr ∧
      ∀ x ∈ tr, ∀ a ∈ given x, Mapped (lastState smallProcess tr).machine a := by
  have hmap : Mapped smallProcess.machine smallProcess.brk := by
    unfold Mapped
    decide
  have hfirst : sbrk smallProcess 0x10 = .ok (0x1800, { smallProcess with brk := 0x1810 }) := by
    rfl
  have hmeets : Meets sbrk CanGrow smallProcess [0x10, 0x1800] := by
    refine ⟨⟨by decide, by decide, ?_⟩, ?_⟩
    · unfold Supplies
      decide
    · intro o t ht
      rw [hfirst] at ht
      cases ht
      refine ⟨⟨by decide, by decide, ?_⟩, fun _ _ _ => trivial⟩
      unfold Supplies
      decide +kernel
  obtain ⟨tr, hr, -, -, hgiven, -⟩ := sbrk_runs smallProcess _ smallProcess_space hmap hmeets
  exact ⟨hmap, hmeets, tr, hr, hgiven⟩

/-! ## Calls that cannot be served -/

section Failure
variable {p p' : Process} {increment r : Word}

/-- The pages behind the break that a call has to allocate. -/
def neededPages (p : Process) (increment : Word) : List Word :=
  if increment = 0 then [] else pagesFor p increment

def Wraps (p : Process) (increment : Word) : Prop :=
  increment ≠ 0 ∧ 2 ^ 32 ≤ p.brk.toNat + increment.toNat + 7

/-- None of the pages is mapped, and there are unused frames for them and for the tables
they need. -/
def FreshlyMappable (m : Machine) (pages : List Word) : Prop :=
  (∀ page ∈ pages, m.translate page = none) ∧
    Supplies m.pmm (pages.length + (missing m pages).card)

/-- A call that cannot be served changes nothing and does not return the old break; the bytes
that a call gives out are in no page that was mapped, except for the one of the break; and a
positive increment takes no page away. -/
structure FailsCleanly (p : Process) (increment : Word) : Prop where
  failure : Wraps p increment ∨ ¬ FreshlyMappable p.machine (neededPages p increment) →
    ∃ r, sbrk p increment = .ok (r, p) ∧ r ≠ p.brk
  range : ∀ r p', sbrk p increment = .ok (r, p') → ∀ a : Word, (a - r).toNat < increment.toNat →
    a.toNat / 0x1000 ≠ p.brk.toNat / 0x1000 → ¬ Mapped p.machine a
  keeps : increment ≠ 0 → ∀ r p', sbrk p increment = .ok (r, p') →
    ∀ a, Mapped p.machine a → Mapped p'.machine a

/-- Every call that returns gives the old break. -/
theorem sbrk_returns (h : sbrk p increment = .ok (r, p')) : r = p.brk := by
  unfold sbrk at h
  dsimp only at h
  split_ifs at h
  · cases h
    rfl
  · cases h
    rfl
  · obtain ⟨m, -, h⟩ := bind_eq_ok.mp h
    cases h
    rfl
  · obtain ⟨m, -, h⟩ := bind_eq_ok.mp h
    cases h
    rfl

/-- The bytes behind the page of the break lie in needed pages. -/
theorem range_needed (hwrap : p.brk.toNat + increment.toNat + 7 < 2 ^ 32) (h0 : increment ≠ 0)
    {a : Word} (ha : (a - p.brk).toNat < increment.toNat)
    (hne : a.toNat / 0x1000 ≠ p.brk.toNat / 0x1000) :
    ∃ page ∈ neededPages p increment, a.toNat / 0x1000 = page.toNat / 0x1000 := by
  have hnew := newBreak_toNat hwrap
  have hsub : a.toNat = p.brk.toNat + (a - p.brk).toNat := by
    rw [BitVec.toNat_sub] at ha ⊢
    omega
  rw [neededPages, if_neg h0]
  set n := (newBreak p.brk increment).toNat / 0x1000 - p.brk.toNat / 0x1000 with hn
  have hbound : p.brk.toNat + n * 0x1000 < 2 ^ 32 := by
    omega
  obtain ⟨page, hmem, hpage⟩ := exists_pageBehind (i := a.toNat / 0x1000 - p.brk.toNat / 0x1000)
    hbound (by omega) (by omega)
  exact ⟨page, hmem, by omega⟩

end Failure

/-- A call keeps the promise exactly when it can be served: otherwise it still returns the old
break, or stops. -/
theorem sbrk_fails_cleanly_iff (p : Process) (increment : Word) (hs : Space p.machine)
    (hinc : 0 ≤ increment.toInt) :
    FailsCleanly p increment ↔
      ¬ Wraps p increment ∧ FreshlyMappable p.machine (neededPages p increment) := by
  constructor
  · intro h
    by_contra hnot
    rw [not_and_or, not_not] at hnot
    obtain ⟨r, hcall, hne⟩ := h.failure hnot
    exact hne (sbrk_returns hcall)
  · intro h
    obtain ⟨hwrap, hun, hsup⟩ := h
    by_cases h0 : increment = 0
    · subst h0
      refine ⟨fun hf => absurd hf ?_, ?_, fun hne => absurd rfl hne⟩
      · rw [not_or, not_not]
        exact ⟨hwrap, hun, hsup⟩
      · intro r p' _ a ha
        change (a - r).toNat < 0 at ha
        omega
    have hno : p.brk.toNat + increment.toNat + 7 < 2 ^ 32 := by
      by_contra hle
      exact hwrap ⟨h0, by omega⟩
    have hpages : neededPages p increment = pagesFor p increment := if_neg h0
    refine ⟨fun hf => absurd hf ?_, ?_, ?_⟩
    · rw [not_or, not_not]
      exact ⟨hwrap, hun, hsup⟩
    · intro r p' hcall a ha hne
      rw [sbrk_returns hcall] at ha
      obtain ⟨page, hmem, hpage⟩ := range_needed hno h0 ha hne
      rw [Mapped, translate_page _ hpage, hun page hmem]
      exact Bool.false_ne_true
    · intro _ r p' hcall a ha
      rw [hpages] at hsup
      obtain ⟨p₁, hcall₁, hgrown, -⟩ := sbrk_spec hs ⟨hinc, hno, hsup⟩
      rw [hcall] at hcall₁
      cases hcall₁
      obtain ⟨f, hf⟩ := Option.isSome_iff_exists.mp ha
      rw [Mapped, (hgrown.extend hs fun _ _ => id).translate hf]
      rfl

theorem sbrk_fails_cleanly_small : FailsCleanly smallProcess 0x1000 := by
  have hpages : neededPages smallProcess 0x1000 = [0x2800] := by decide
  refine (sbrk_fails_cleanly_iff smallProcess 0x1000 smallProcess_space (by decide)).mpr ⟨?_, ?_, ?_⟩
  · intro hw
    have hle := hw.2
    change 2 ^ 32 ≤ 0x1800 + 0x1000 + 7 at hle
    omega
  · rw [hpages, List.forall_mem_singleton]
    decide
  · unfold Supplies
    decide +kernel

/-- A process with its break in the page below one that is mapped already. -/
def lowProcess : Process := { smallProcess with brk := 0x800 }

/-- The break moves into the mapped page, and the old one is returned as if all was well. -/
theorem sbrk_overlaps_mapped : ¬ ∀ (p : Process) (increment : Word), Space p.machine →
    0 ≤ increment.toInt → FailsCleanly p increment := by
  intro h
  have hmapped : lowProcess.machine.translate 0x1800 = some 3 := by decide
  have hclean := h lowProcess 0x1000 smallProcess_space (by decide)
  have hblocked : ¬ FreshlyMappable lowProcess.machine (neededPages lowProcess 0x1000) := by
    intro hf
    have hnone := hf.1 0x1800 (by decide)
    rw [hmapped] at hnone
    cases hnone
  obtain ⟨r, hcall, hne⟩ := hclean.failure (.inr hblocked)
  exact hne (sbrk_returns hcall)

end TapiOS.Task.Sbrk
