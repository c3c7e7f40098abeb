import Mathlib.Logic.Basic
import Mathlib.Data.List.Basic

/-!
# Runs of a deterministic machine with stops

A machine is a step function that either stops (a kernel panic, a fault) or
returns an output and the next state. `run` feeds it a finite list of inputs
and records one transition per input; it is `none` as soon as one step stops.
The rules below turn facts about one step into facts about every transition.
-/
namespace TapiOS.Lib

variable {σ ι ο ε : Type*}

theorem map_eq_ok {α β : Type*} {x : Except ε α} {f : α → β} {b : β} (h : x.map f = .ok b) :
    ∃ a, x = .ok a ∧ f a = b := by
  cases x with
  | error e => cases h
  | ok a => exact ⟨a, rfl, Except.ok.inj h⟩

theorem exists_ok {α : Type*} {x : Except ε α} {P : α → Prop} (h : ∃ a ∈ x.toOption, P a) :
    ∃ a, x = .ok a ∧ P a := by
  obtain ⟨a, ha, hp⟩ := h
  cases x with
  | error e => cases ha
  | ok b => exact ⟨b, rfl, Option.some.inj ha ▸ hp⟩

theorem toOption_eq_some {α : Type*} {x : Except ε α} {a : α} (h : x.toOption = some a) :
    x = .ok a := by
  obtain ⟨b, hx, rfl⟩ := exists_ok (P := fun b => b = a) ⟨a, h, rfl⟩
  exact hx

/-- One completed step of a machine. -/
structure Transition (σ ι ο : Type*) where
  pre : σ
  input : ι
  output : ο
  post : σ

/-- All transitions of a run that never stops. -/
def run (step : σ → ι → Except ε (ο × σ)) : σ → List ι → Option (List (Transition σ ι ο))
  | _, [] => some []
  | s, i :: is =>
    match step s i with
    | .error _ => none
    | .ok (o, t) => (run step t is).map (⟨s, i, o, t⟩ :: ·)

/-- The state after the last transition. -/
def lastState (s : σ) (tr : List (Transition σ ι ο)) : σ :=
  (tr.getLast?.map (·.post)).getD s

@[simp] theorem lastState_nil (s : σ) : lastState s ([] : List (Transition σ ι ο)) = s := rfl

@[simp] theorem lastState_cons (s : σ) (x : Transition σ ι ο) (tr : List (Transition σ ι ο)) :
    lastState s (x :: tr) = lastState x.post tr := by
  cases tr with
  | nil => rfl
  | cons y tr => simp [lastState, List.getLast?_cons]

theorem lastState_append (s : σ) (tr tr' : List (Transition σ ι ο)) :
    lastState s (tr ++ tr') = lastState (lastState s tr) tr' := by
  induction tr generalizing s with
  | nil => rfl
  | cons x tr ih => simp [ih]

section Rules
variable {step : σ → ι → Except ε (ο × σ)} {s : σ} {is : List ι} {tr : List (Transition σ ι ο)}

theorem run_nil (h : run step s [] = some tr) : tr = [] := by
  simpa [run] using h.symm

theorem run_start {i : ι} {o : ο} {t : σ} (h : step s i = .ok (o, t))
    (hr : run step t is = some tr) : run step s (i :: is) = some (⟨s, i, o, t⟩ :: tr) := by
  simp [run, h, hr]

theorem run_single {i : ι} {o : ο} {t : σ} (h : step s i = .ok (o, t)) :
    run step s [i] = some [⟨s, i, o, t⟩] :=
  run_start h rfl

/-- The first transition of a nonempty run, and the run that follows it. -/
theorem run_cons {i : ι} (h : run step s (i :: is) = some tr) :
    ∃ o t rest, step s i = .ok (o, t) ∧ run step t is = some rest ∧
      tr = ⟨s, i, o, t⟩ :: rest := by
  simp only [run] at h
  cases hs : step s i with
  | error e => simp [hs] at h
  | ok r =>
    obtain ⟨o, t⟩ := r
    simp only [hs, Option.map_eq_some_iff] at h
    obtain ⟨rest, hrest, rfl⟩ := h
    exact ⟨o, t, rest, rfl, hrest, rfl⟩

/-- Two runs, the second from where the first ends. -/
theorem run_append {js : List ι} {tr' : List (Transition σ ι ο)} (h : run step s is = some tr)
    (h' : run step (lastState s tr) js = some tr') : run step s (is ++ js) = some (tr ++ tr') := by
  induction is generalizing s tr with
  | nil =>
    rw [run_nil h] at h' ⊢
    exact h'
  | cons i is ih =>
    obtain ⟨o, t, rest, hs, hrest, rfl⟩ := run_cons h
    rw [lastState_cons] at h'
    simp [run, hs, ih hrest h']

theorem run_step (h : run step s is = some tr) :
    ∀ x ∈ tr, step x.pre x.input = .ok (x.output, x.post) := by
  induction is generalizing s tr with
  | nil => simp [run_nil h]
  | cons i is ih =>
    obtain ⟨o, t, rest, hs, hrest, rfl⟩ := run_cons h
    intro x hx
    rcases List.mem_cons.mp hx with rfl | hx
    · exact hs
    · exact ih hrest x hx

theorem run_inputs (h : run step s is = some tr) : tr.map (·.input) = is := by
  induction is generalizing s tr with
  | nil => rw [run_nil h, List.map_nil]
  | cons i is ih =>
    obtain ⟨o, t, rest, -, hrest, rfl⟩ := run_cons h
    rw [List.map_cons, ih hrest]

theorem run_input (h : run step s is = some tr) : ∀ x ∈ tr, x.input ∈ is := by
  intro x hx
  rw [← run_inputs h]
  exact List.mem_map_of_mem hx

/-- An invariant that survives every step taken under a condition holds before
and after every transition of a run whose transitions all meet it. -/
theorem run_invariant {I : σ → Prop} {C : σ → ι → Prop}
    (hstep : ∀ s i o t, I s → C s i → step s i = .ok (o, t) → I t)
    (hr : run step s is = some tr) (hs : I s) (hc : ∀ x ∈ tr, C x.pre x.input) :
    ∀ x ∈ tr, I x.pre ∧ I x.post := by
  induction is generalizing s tr with
  | nil => simp [run_nil hr]
  | cons i is ih =>
    obtain ⟨o, t, rest, h1, hrest, rfl⟩ := run_cons hr
    have ht : I t := hstep s i o t hs (hc _ (.head _)) h1
    intro x hx
    rcases List.mem_cons.mp hx with rfl | hx
    · exact ⟨hs, ht⟩
    · exact ih hrest ht (fun y hy => hc y (by simp [hy])) x hx

variable {C : Transition σ ι ο → Prop}

/-- The same rule for the state in which the run ends, with a condition that may
look at the outputs. -/
theorem run_invariant_last {I : σ → Prop}
    (hstep : ∀ x : Transition σ ι ο, I x.pre → C x →
      step x.pre x.input = .ok (x.output, x.post) → I x.post)
    (hr : run step s is = some tr) (hs : I s) (hc : ∀ x ∈ tr, C x) : I (lastState s tr) := by
  induction is generalizing s tr with
  | nil => simpa [run_nil hr] using hs
  | cons i is ih =>
    obtain ⟨o, t, rest, h1, hrest, rfl⟩ := run_cons hr
    rw [lastState_cons]
    have ht : I t := hstep ⟨s, i, o, t⟩ hs (hc _ (.head _)) h1
    exact ih hrest ht (fun y hy => hc y (by simp [hy]))

/-- A property that each step keeps exactly under a condition holds after every transition
if and only if every transition meets the condition; `K` is assumed of all transitions. -/
theorem run_property_iff_under {I F : σ → Prop} {C K : σ → ι → Prop}
    (hinv : ∀ s i o t, I s → K s i → step s i = .ok (o, t) → I t)
    (hstep : ∀ s i o t, I s → F s → K s i → step s i = .ok (o, t) → (F t ↔ C s i))
    (hr : run step s is = some tr) (hs : I s) (hf : F s) (hk : ∀ x ∈ tr, K x.pre x.input) :
    (∀ x ∈ tr, F x.post) ↔ (∀ x ∈ tr, C x.pre x.input) := by
  induction is generalizing s tr with
  | nil => simp [run_nil hr]
  | cons i is ih =>
    obtain ⟨o, t, rest, h1, hrest, rfl⟩ := run_cons hr
    have hk0 : K s i := hk _ (.head _)
    simp only [List.forall_mem_cons]
    rw [← hstep s i o t hs hf hk0 h1]
    refine and_congr_right fun ht => ?_
    exact ih hrest (hinv s i o t hs hk0 h1) ht (fun y hy => hk y (by simp [hy]))

theorem run_property_iff {I F : σ → Prop} {C : σ → ι → Prop}
    (hinv : ∀ s i o t, I s → step s i = .ok (o, t) → I t)
    (hstep : ∀ s i o t, I s → F s → step s i = .ok (o, t) → (F t ↔ C s i))
    (hr : run step s is = some tr) (hs : I s) (hf : F s) :
    (∀ x ∈ tr, F x.post) ↔ (∀ x ∈ tr, C x.pre x.input) :=
  run_property_iff_under (K := fun _ _ => True) (fun s i o t hi _ => hinv s i o t hi)
    (fun s i o t hi hf _ => hstep s i o t hi hf) hr hs hf fun _ _ => trivial

section Split
variable {before after : List (Transition σ ι ο)} {x : Transition σ ι ο}

/-- Both parts of a run are runs, the second from where the first ends. -/
theorem run_split (hr : run step s is = some (before ++ after)) :
    ∃ js ks, run step s js = some before ∧ run step (lastState s before) ks = some after := by
  induction before generalizing s is with
  | nil => exact ⟨[], is, rfl, hr⟩
  | cons y before ih =>
    cases is with
    | nil => simp [run] at hr
    | cons i is =>
      obtain ⟨o, t, rest, hs, hrest, he⟩ := run_cons hr
      cases he
      obtain ⟨js, ks, hjs, hks⟩ := ih hrest
      exact ⟨i :: js, ks, by simp [run, hs, hjs], by rwa [lastState_cons]⟩

/-- What comes before a transition of a run is a run to the state it starts in, and what
follows it is a run from its last state. -/
theorem run_around (hr : run step s is = some (before ++ x :: after)) :
    (∃ js, run step s js = some before) ∧ x.pre = lastState s before ∧
      ∃ js, run step x.post js = some after := by
  obtain ⟨js, ks, hjs, hks⟩ := run_split hr
  cases ks with
  | nil => simp [run] at hks
  | cons i ks =>
    obtain ⟨o, t, rest, -, hrest, he⟩ := run_cons hks
    cases he
    exact ⟨⟨js, hjs⟩, rfl, ks, hrest⟩

end Split

variable {α : Type*}

/-- A machine that follows an abstract one, which sees the whole transition: when each step
under a condition takes related states to related states, the last states are related. -/
theorem run_tracks {R : σ → α → Prop} {g : α → Transition σ ι ο → α}
    {a : α}
    (hstep : ∀ (x : Transition σ ι ο) (a : α), R x.pre a → C x →
      step x.pre x.input = .ok (x.output, x.post) → R x.post (g a x))
    (hr : run step s is = some tr) (hs : R s a) (hc : ∀ x ∈ tr, C x) :
    R (lastState s tr) (tr.foldl g a) := by
  induction is generalizing s tr a with
  | nil =>
    rw [run_nil hr]
    exact hs
  | cons i is ih =>
    obtain ⟨o, t, rest, h1, hrest, rfl⟩ := run_cons hr
    rw [lastState_cons]
    exact ih hrest (hstep ⟨s, i, o, t⟩ a hs (hc _ (.head _)) h1)
      fun y hy => hc y (.tail _ hy)

variable {R : σ → List (Transition σ ι ο) → Prop}

/-- An invariant that may look at the past of the run, as may the condition on the steps: it
holds in every state of the run. -/
theorem run_history_under
    {C : List (Transition σ ι ο) → Transition σ ι ο → Prop}
    (hstep : ∀ (x : Transition σ ι ο) (past : List (Transition σ ι ο)), R x.pre past → C past x →
      step x.pre x.input = .ok (x.output, x.post) → R x.post (past ++ [x]))
    (hr : run step s is = some tr) (hs : R s [])
    (hc : ∀ before x after, tr = before ++ x :: after → C before x) :
    ∀ before after, tr = before ++ after → R (lastState s before) before := by
  suffices h : ∀ past, R s past →
      (∀ before x after, tr = before ++ x :: after → C (past ++ before) x) →
      ∀ before after, tr = before ++ after → R (lastState s before) (past ++ before) from
    h [] hs hc
  clear hs hc
  induction is generalizing s tr with
  | nil =>
    intro past hs _ before after he
    rw [run_nil hr] at he
    rw [(List.append_eq_nil_iff.mp he.symm).1, List.append_nil]
    exact hs
  | cons i is ih =>
    obtain ⟨o, t, rest, h1, hrest, rfl⟩ := run_cons hr
    intro past hs hc before after he
    cases before with
    | nil =>
      rw [List.append_nil]
      exact hs
    | cons y before =>
      obtain ⟨rfl, hrest'⟩ := List.cons.inj he
      have hx := hstep ⟨s, i, o, t⟩ past hs (by simpa using hc [] _ rest rfl) h1
      have h := ih hrest (past ++ [⟨s, i, o, t⟩]) hx
        (fun b x a hb => by simpa using hc (_ :: b) x a (by rw [hb]; rfl)) before after hrest'
      rw [lastState_cons]
      simpa using h

theorem run_history
    (hstep : ∀ (x : Transition σ ι ο) (past : List (Transition σ ι ο)), R x.pre past → C x →
      step x.pre x.input = .ok (x.output, x.post) → R x.post (past ++ [x]))
    (hr : run step s is = some tr) (hs : R s []) (hc : ∀ x ∈ tr, C x) :
    R (lastState s tr) tr :=
  run_history_under (C := fun _ x => C x) hstep hr hs
    (fun _ x _ he => hc x (by rw [he]; simp)) tr [] (List.append_nil tr).symm

/-- A machine that follows an abstract one, which sees the inputs only. -/
theorem run_refines {R : σ → α → Prop} {g : α → ι → α} {C : σ → ι → Prop} {a : α}
    (hstep : ∀ s i o t a, R s a → C s i → step s i = .ok (o, t) → R t (g a i))
    (hr : run step s is = some tr) (hs : R s a) (hc : ∀ x ∈ tr, C x.pre x.input) :
    R (lastState s tr) (is.foldl g a) := by
  rw [← run_inputs hr, List.foldl_map]
  exact run_tracks (C := fun x => C x.pre x.input)
    (fun x a => hstep x.pre x.input x.output x.post a) hr hs hc

/-- What a run shows when it is evaluated, and what follows from that. -/
theorem run_test {Q : List (Transition σ ι ο) → Prop} (P : List (Transition σ ι ο) → Prop)
    (h : ∃ tr ∈ run step s is, P tr) (hq : ∀ tr, run step s is = some tr → P tr → Q tr) :
    ∃ tr, run step s is = some tr ∧ Q tr := by
  obtain ⟨tr, hr, hp⟩ := h
  exact ⟨tr, hr, hq tr hr hp⟩

/-- A test of the elements of a list that sees those before each of them. -/
def allWithPast {α : Type*} (f : List α → α → Bool) : List α → List α → Bool
  | _, [] => true
  | past, x :: xs => f past x && allWithPast f (past ++ [x]) xs

theorem allWithPast_split {f : List α → α → Bool} {past l : List α}
    (h : allWithPast f past l) :
    ∀ before x after, l = before ++ x :: after → f (past ++ before) x := by
  induction l generalizing past with
  | nil =>
    intro before x after he
    simp at he
  | cons y l ih =>
    obtain ⟨hy, hl⟩ := (Bool.and_eq_true _ _).mp h
    intro before x after he
    cases before with
    | nil =>
      obtain ⟨rfl, -⟩ := List.cons.inj he
      simpa using hy
    | cons z before =>
      obtain ⟨rfl, hrest⟩ := List.cons.inj he
      simpa using ih hl before x after hrest

end Rules

/-- Each input meets a condition on the state it comes to. -/
def Meets (step : σ → ι → Except ε (ο × σ)) (C : σ → ι → Prop) : σ → List ι → Prop
  | _, [] => True
  | s, i :: is => C s i ∧ ∀ o t, step s i = .ok (o, t) → Meets step C t is

/-- A machine whose steps under a condition do not stop and keep an invariant: it takes
every list of inputs that meet the condition. -/
theorem run_total {step : σ → ι → Except ε (ο × σ)} {I : σ → Prop} {C : σ → ι → Prop} {s : σ}
    {is : List ι} (hstep : ∀ s i, I s → C s i → ∃ o t, step s i = .ok (o, t) ∧ I t)
    (hs : I s) (hc : Meets step C s is) :
    ∃ tr, run step s is = some tr ∧ ∀ x ∈ tr, C x.pre x.input ∧ I x.pre := by
  induction is generalizing s with
  | nil => exact ⟨[], rfl, by simp⟩
  | cons i is ih =>
    obtain ⟨o, t, h1, ht⟩ := hstep s i hs hc.1
    obtain ⟨tr, hr, hall⟩ := ih ht (hc.2 o t h1)
    refine ⟨⟨s, i, o, t⟩ :: tr, by simp [run, h1, hr], ?_⟩
    intro x hx
    rcases List.mem_cons.mp hx with rfl | hx
    · exact ⟨hc.1, hs⟩
    · exact hall x hx

/-- A result meets `Q`, or the stop is one that `E` admits. -/
def Outcome {α : Type*} (E : ε → Prop) (Q : α → Prop) : Except ε α → Prop
  | .ok a => Q a
  | .error e => E e

section Outcome
variable {α : Type*} {E : ε → Prop} {Q Q' : α → Prop} {r : Except ε α}

instance [DecidablePred E] [DecidablePred Q] : Decidable (Outcome E Q r) :=
  match r with
  | .ok a => inferInstanceAs (Decidable (Q a))
  | .error e => inferInstanceAs (Decidable (E e))

theorem Outcome.imp (h : Outcome E Q r) (hq : ∀ a, r = .ok a → Q a → Q' a) : Outcome E Q' r := by
  cases r with
  | error e => exact h
  | ok a => exact hq a rfl h

theorem Outcome.mono (h : Outcome E Q r) (hq : ∀ a, Q a → Q' a) : Outcome E Q' r :=
  h.imp fun a _ => hq a

theorem outcome_iff : Outcome E Q r ↔ (∀ a, r = .ok a → Q a) ∧ (∀ e, r = .error e → E e) := by
  cases r with
  | error e => simp [Outcome]
  | ok a => simp [Outcome]

/-- A machine whose steps under a condition have good outcomes from good states: along a
run whose transitions all meet the condition, states and outputs are good. -/
theorem run_outcome {step : σ → ι → Except ε (ο × σ)} {s : σ} {is : List ι}
    {tr : List (Transition σ ι ο)} {I : σ → Prop} {C : σ → ι → Prop} {G : ο → Prop}
    (hstep : ∀ s i, I s → C s i → Outcome E (fun r => G r.1 ∧ I r.2) (step s i))
    (hr : run step s is = some tr) (hs : I s) (hc : ∀ x ∈ tr, C x.pre x.input) :
    ∀ x ∈ tr, I x.pre ∧ G x.output ∧ I x.post := by
  have hinv := run_invariant (fun s i o t hi hci h => ((outcome_iff.mp (hstep s i hi hci)).1 _ h).2)
    hr hs hc
  intro x hx
  have hx' := (outcome_iff.mp (hstep _ _ (hinv x hx).1 (hc x hx))).1 _ (run_step hr x hx)
  exact ⟨(hinv x hx).1, hx'.1, (hinv x hx).2⟩

end Outcome
end TapiOS.Lib
