import Mathlib.Data.List.Basic

/-!
# Programs that read a memory

An `Access β α` sees a memory of `β`s only through its reads, so the offsets it reads can
be collected. `Only` is the logic for them: the reads of a sequence are those of its
first part and those of the rest at the value the first part gives.
-/
namespace TapiOS.Lib

inductive Access (β α : Type) where
  | ret (a : α)
  | read (o : Nat) (k : β → Access β α)

namespace Access
variable {β α γ : Type}

def bind : Access β α → (α → Access β γ) → Access β γ
  | ret a, f => f a
  | read o k, f => read o (fun b => (k b).bind f)

instance : Monad (Access β) where
  pure := ret
  bind := bind

/-- Read one place. -/
def cell (o : Nat) : Access β β := read o ret

/-- What the program computes in the memory `m`. -/
def value (m : Nat → β) : Access β α → α
  | ret a => a
  | read o k => (k (m o)).value m

/-- The offsets it reads there, in order. -/
def log (m : Nat → β) : Access β α → List Nat
  | ret _ => []
  | read o k => o :: (k (m o)).log m

/-- All reads in the memory `m` are at offsets of `P`. -/
def Only (m : Nat → β) (P : Nat → Prop) (x : Access β α) : Prop := ∀ o ∈ x.log m, P o

variable {m : Nat → β} {P : Nat → Prop} {x : Access β α} {f : α → Access β γ} {o : Nat}

@[simp] theorem value_pure (a : α) : (pure a : Access β α).value m = a := rfl

@[simp] theorem value_cell : (cell o).value m = m o := rfl

@[simp] theorem value_bind : (x >>= f).value m = (f (x.value m)).value m := by
  induction x with
  | ret a => rfl
  | read o k ih => exact ih (m o)

@[simp] theorem value_ite (c : Prop) [Decidable c] (x y : Access β α) :
    (if c then x else y).value m = if c then x.value m else y.value m := by
  split <;> rfl

theorem log_bind : (x >>= f).log m = x.log m ++ (f (x.value m)).log m := by
  induction x with
  | ret a => rfl
  | read o k ih => exact congrArg (o :: ·) (ih (m o))

theorem only_pure (a : α) : (pure a : Access β α).Only m P := by
  intro o ho
  cases ho

@[simp] theorem only_cell_iff : (cell o : Access β β).Only m P ↔ P o :=
  List.forall_mem_singleton

theorem only_cell (h : P o) : (cell o : Access β β).Only m P := only_cell_iff.mpr h

theorem only_bind_iff :
    (x >>= f).Only m P ↔ x.Only m P ∧ (f (x.value m)).Only m P := by
  unfold Only
  rw [log_bind]
  exact List.forall_mem_append

theorem only_bind (hx : x.Only m P) (hf : (f (x.value m)).Only m P) : (x >>= f).Only m P :=
  only_bind_iff.mpr ⟨hx, hf⟩

theorem Only.mono {Q : Nat → Prop} (h : x.Only m P) (hPQ : ∀ o, P o → Q o) : x.Only m Q :=
  fun o ho => hPQ o (h o ho)

end Access
end TapiOS.Lib
