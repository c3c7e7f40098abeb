import Mathlib.Data.List.Basic
import Mathlib.Tactic.Ring

/-!
# Lists of intervals that tile a range

An interval is a start and a length. A list tiles `[lo, hi)` when it has no
empty interval and covers every point of the range once and no other point.
Counting how often a point is covered makes the notion independent of the order
of the list; splitting an interval and extending the range keep it.
-/
namespace TapiOS.Lib

variable {lo hi : Nat}

structure Interval where
  start : Nat
  len : Nat
  deriving DecidableEq, Repr

variable {xs : List Interval}

namespace Interval

def Covers (x : Interval) (a : Nat) : Prop := x.start ≤ a ∧ a < x.start + x.len

def Disjoint (x y : Interval) : Prop := x.start + x.len ≤ y.start ∨ y.start + y.len ≤ x.start

end Interval

open TapiOS.Lib.Interval

/-- How many intervals of the list cover the point. -/
def cover (xs : List Interval) (a : Nat) : Nat :=
  xs.countP (fun x => decide (x.start ≤ a ∧ a < x.start + x.len))

structure Tiles (lo hi : Nat) (xs : List Interval) : Prop where
  nonempty : ∀ x ∈ xs, 0 < x.len
  once : ∀ a, cover xs a = if lo ≤ a ∧ a < hi then 1 else 0

@[simp] theorem cover_nil (a : Nat) : cover [] a = 0 := rfl

@[simp] theorem cover_append (xs ys : List Interval) (a : Nat) :
    cover (xs ++ ys) a = cover xs a + cover ys a := by
  simp [cover]

@[simp] theorem cover_cons (x : Interval) (xs : List Interval) (a : Nat) :
    cover (x :: xs) a =
      (if x.start ≤ a ∧ a < x.start + x.len then 1 else 0) + cover xs a := by
  simp [cover, List.countP_cons, Nat.add_comm]

theorem cover_pos_iff {a : Nat} : 0 < cover xs a ↔ ∃ x ∈ xs, x.Covers a := by
  simp [cover, List.countP_pos_iff, Covers]

theorem tiles_nil (lo : Nat) : Tiles lo lo [] := by
  refine ⟨by simp, fun a => ?_⟩
  rw [cover_nil, if_neg (by omega)]

/-- Cutting `k` units off the end of one interval. -/
theorem tiles_split {s n k : Nat} {ys : List Interval} (h : Tiles lo hi (xs ++ ⟨s, n⟩ :: ys))
    (hk : 0 < k) (hkn : k < n) : Tiles lo hi (xs ++ ⟨s, n - k⟩ :: ys ++ [⟨s + (n - k), k⟩]) := by
  refine ⟨?_, fun a => ?_⟩
  · intro x hx
    simp only [List.mem_append, List.mem_cons, List.not_mem_nil, or_false] at hx
    rcases hx with (hx | rfl | hx) | rfl
    · exact h.nonempty x (by simp [hx])
    · change 0 < n - k; omega
    · exact h.nonempty x (by simp [hx])
    · exact hk
  · rw [← h.once a]
    simp only [cover_append, cover_cons, cover_nil]
    split_ifs <;> omega

theorem tiles_grow {k : Nat} (h : Tiles lo hi xs) (hle : lo ≤ hi) (hk : 0 < k) :
    Tiles lo (hi + k) (xs ++ [⟨hi, k⟩]) := by
  refine ⟨?_, fun a => ?_⟩
  · intro x hx
    rcases List.mem_append.mp hx with hx | hx
    · exact h.nonempty x hx
    · rw [List.mem_singleton.mp hx]; exact hk
  · have ho := h.once a
    simp only [cover_append, cover_cons, cover_nil, ho]
    split_ifs <;> omega

theorem tiles_inside (h : Tiles lo hi xs) {x : Interval} (hx : x ∈ xs) :
    lo ≤ x.start ∧ x.start + x.len ≤ hi := by
  have hn := h.nonempty x hx
  have hcov : ∀ a, x.Covers a → lo ≤ a ∧ a < hi := by
    intro a ha
    have hp : 0 < cover xs a := cover_pos_iff.mpr ⟨x, hx, ha⟩
    rw [h.once a] at hp
    by_contra hout
    rw [if_neg hout] at hp
    omega
  have h1 := hcov x.start ⟨le_refl _, by omega⟩
  have h2 := hcov (x.start + x.len - 1) ⟨by omega, by omega⟩
  omega

private theorem pairwise_of_cover_le_one (hn : ∀ x ∈ xs, 0 < x.len) (h : ∀ a, cover xs a ≤ 1) :
    xs.Pairwise Interval.Disjoint := by
  induction xs with
  | nil => exact List.Pairwise.nil
  | cons x xs ih =>
    have htail : ∀ a, cover xs a ≤ 1 := fun a => by
      have := h a
      rw [cover_cons] at this
      omega
    refine List.Pairwise.cons ?_ (ih (fun y hy => hn y (by simp [hy])) htail)
    intro y hy
    by_contra hd
    -- two intervals that are not apart share the larger of their starts
    let a := max x.start y.start
    have hx := hn x (by simp)
    have hy' := hn y (by simp [hy])
    unfold Interval.Disjoint at hd
    have hxa : x.start ≤ a ∧ a < x.start + x.len := ⟨by omega, by omega⟩
    have hya : 0 < cover xs a := cover_pos_iff.mpr ⟨y, hy, by omega, by omega⟩
    have := h a
    rw [cover_cons, if_pos hxa] at this
    omega

theorem tiles_pairwise (h : Tiles lo hi xs) : xs.Pairwise Interval.Disjoint := by
  apply pairwise_of_cover_le_one h.nonempty
  intro a
  rw [h.once a]
  split <;> omega

end TapiOS.Lib
