import Mathlib.Data.List.Basic

/-!
# Loops that can stop

A loop over a list of indices in the error monad. Its invariant may speak of the indices
that are done; it holds at the end of a loop that returns, and a loop whose steps all
return does so itself.
-/
namespace TapiOS.Lib

universe u v

section Bind
variable {ε : Type u} {α β : Type v} {x : Except ε α} {f : α → Except ε β} {b : β}

theorem bind_eq_ok : (x >>= f) = .ok b ↔ ∃ a, x = .ok a ∧ f a = .ok b := by
  cases x with
  | error e =>
    constructor
    · intro h
      cases h
    · intro h
      obtain ⟨a, ha, -⟩ := h
      cases ha
  | ok a =>
    constructor
    · intro h
      exact ⟨a, rfl, h⟩
    · intro h
      obtain ⟨a', ha, hf⟩ := h
      cases ha
      exact hf

theorem ok_bind (a : α) (f : α → Except ε β) : ((.ok a : Except ε α) >>= f) = f a := rfl

theorem error_bind (e : ε) (f : α → Except ε β) :
    ((.error e : Except ε α) >>= f) = .error e := rfl

end Bind

section Loops
variable {ε α σ : Type*} {f : σ → α → Except ε σ} {s t : σ} {l : List α}

theorem foldlM_total {I : List α → σ → Prop} (h0 : I [] s)
    (hstep : ∀ done x rest s, l = done ++ x :: rest → I done s →
      ∃ t, f s x = .ok t ∧ I (done ++ [x]) t) : ∃ t, l.foldlM f s = .ok t ∧ I l t := by
  suffices hgen : ∀ rest done s, l = done ++ rest → I done s →
      ∃ t, rest.foldlM f s = .ok t ∧ I l t from hgen l [] s rfl h0
  intro rest
  induction rest with
  | nil =>
    intro done s hl hi
    refine ⟨s, rfl, ?_⟩
    rw [hl, List.append_nil]
    exact hi
  | cons x rest ih =>
    intro done s hl hi
    obtain ⟨u, hu, hi'⟩ := hstep done x rest s hl hi
    obtain ⟨t, ht, hl'⟩ := ih (done ++ [x]) u (by rw [hl, List.append_assoc]; rfl) hi'
    exact ⟨t, by rw [List.foldlM_cons, hu, ok_bind, ht], hl'⟩

end Loops
end TapiOS.Lib
