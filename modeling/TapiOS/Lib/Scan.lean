import Mathlib.Data.Nat.Basic
import Mathlib.Data.List.Basic

/-!
# First hit of a loop

`firstFrom p n i` is the loop `for(; n>0; --n, ++i) if(p(i)) return i;`. Its two
inversions say which index it returns and what a fall-through means. `firstSplit`
is the same loop over a list: it returns the hit with what stands before and
after it.
-/
namespace TapiOS.Lib

def firstFrom (p : Nat → Bool) : Nat → Nat → Option Nat
  | 0, _ => none
  | n + 1, i => if p i then some i else firstFrom p n (i + 1)

theorem firstFrom_eq_none_iff {p : Nat → Bool} {n i : Nat} :
    firstFrom p n i = none ↔ ∀ j, i ≤ j → j < i + n → p j = false := by
  induction n generalizing i with
  | zero => simp only [firstFrom, true_iff]; omega
  | succ n ih =>
    by_cases hp : p i
    · simp only [firstFrom, hp, ↓reduceIte, reduceCtorEq, false_iff, not_forall]
      exact ⟨i, le_refl i, by omega, by simp [hp]⟩
    · simp only [firstFrom, hp, Bool.false_eq_true, ↓reduceIte, ih]
      constructor
      · intro h j hj hn
        by_cases he : j = i
        · subst he; simpa using hp
        · exact h j (by omega) (by omega)
      · intro h j hj hn
        exact h j (by omega) (by omega)

theorem firstFrom_eq_some_iff {p : Nat → Bool} {n i k : Nat} :
    firstFrom p n i = some k ↔
      i ≤ k ∧ k < i + n ∧ p k ∧ ∀ j, i ≤ j → j < k → p j = false := by
  induction n generalizing i with
  | zero => simp only [firstFrom, reduceCtorEq, false_iff]; omega
  | succ n ih =>
    by_cases hp : p i
    · simp only [firstFrom, hp, ↓reduceIte, Option.some.injEq]
      constructor
      · rintro rfl
        exact ⟨le_refl i, by omega, hp, by omega⟩
      · rintro ⟨hik, -, -, hmin⟩
        by_contra hne
        have := hmin i (le_refl i) (by omega)
        simp [hp] at this
    · simp only [firstFrom, hp, Bool.false_eq_true, ↓reduceIte, ih]
      constructor
      · rintro ⟨hik, hkn, hk, hmin⟩
        refine ⟨by omega, by omega, hk, fun j hj hjk => ?_⟩
        by_cases he : j = i
        · subst he; simpa using hp
        · exact hmin j (by omega) hjk
      · rintro ⟨hik, hkn, hk, hmin⟩
        have hne : k ≠ i := by rintro rfl; exact hp hk
        exact ⟨by omega, by omega, hk, fun j hj hjk => hmin j (by omega) hjk⟩

section Lists
variable {α : Type*}

def firstSplit (p : α → Bool) : List α → Option (List α × α × List α)
  | [] => none
  | x :: xs =>
    if p x then some ([], x, xs)
    else (firstSplit p xs).map (fun r => (x :: r.1, r.2.1, r.2.2))

theorem firstSplit_eq_none {p : α → Bool} {l : List α} (h : firstSplit p l = none) :
    ∀ x ∈ l, p x = false := by
  induction l with
  | nil => simp
  | cons y l ih =>
    by_cases hp : p y
    · simp [firstSplit, hp] at h
    · simp only [firstSplit, hp, Bool.false_eq_true, ↓reduceIte, Option.map_eq_none_iff] at h
      intro x hx
      rcases List.mem_cons.mp hx with he | hx
      · subst he; simpa using hp
      · exact ih h x hx

theorem firstSplit_eq_some {p : α → Bool} {l xs ys : List α} {x : α}
    (h : firstSplit p l = some (xs, x, ys)) :
    l = xs ++ x :: ys ∧ p x ∧ ∀ y ∈ xs, p y = false := by
  induction l generalizing xs with
  | nil => simp [firstSplit] at h
  | cons y l ih =>
    by_cases hp : p y
    · simp only [firstSplit, hp, ↓reduceIte] at h
      cases h
      exact ⟨rfl, hp, by simp⟩
    · simp only [firstSplit, hp, Bool.false_eq_true, ↓reduceIte, Option.map_eq_some_iff,
        Prod.mk.injEq] at h
      obtain ⟨⟨as, b, bs⟩, hs, rfl, rfl, rfl⟩ := h
      obtain ⟨hl, hb, has⟩ := ih hs
      refine ⟨by rw [hl]; rfl, hb, fun z hz => ?_⟩
      rcases List.mem_cons.mp hz with he | hz
      · subst he; simpa using hp
      · exact has z hz

theorem modify_append_cons (xs ys : List α) (x : α) (f : α → α) :
    (xs ++ x :: ys).modify xs.length f = xs ++ f x :: ys := by
  induction xs with
  | nil => rfl
  | cons y xs ih => simp [ih]

end Lists
end TapiOS.Lib
