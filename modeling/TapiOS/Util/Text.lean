import TapiOS.Util.Memory

/-!
# Path strings, util/util.c

A C string is the list of its bytes before the terminating NUL.
-/
namespace TapiOS.Util

abbrev Text := List Byte

/-- '/' -/
def slash : Byte := 0x2F

/-- '.' -/
def dot : Byte := 0x2E

/-- The parts between delimiters that are not empty. -/
def segments (d : Byte) (s : Text) : List Text := (s.splitOn d).filter (fun t => !t.isEmpty)

/-- The tokens that strtok with delimiter '/' returns one after the other. -/
def components (s : Text) : List Text := (s.splitOn slash).filter (fun t => !t.isEmpty)

/-- The index of the last occurrence, where strrchr points. -/
def strrchr (c : Byte) : Text → Option Nat
  | [] => none
  | x :: xs =>
    match strrchr c xs with
    | some i => some (i + 1)
    | none => if x = c then some 0 else none

def dirname (path : Text) : Text :=
  match strrchr slash path with
  | none => [dot]
  | some i =>
    -- a trailing slash is cut off first
    let path' := if i + 1 = path.length then path.take i else path
    match strrchr slash path' with
    | none => [slash]
    | some j => if j = 0 then [slash] else path'.take j

/-- basename: what follows the last slash. -/
def basename (path : Text) : Text :=
  match strrchr slash path with
  | some i => path.drop (i + 1)
  | none => path

theorem segments_append {d : Byte} (x y : Text) :
    segments d (x ++ d :: y) = segments d x ++ segments d y := by
  unfold segments
  rw [List.splitOn_append_cons_self, List.filter_append]

variable {s : Text}

theorem segments_of_notMem {d : Byte} (h : d ∉ s) :
    segments d s = if s = [] then [] else [s] := by
  unfold segments
  rw [List.splitOn_eq_singleton h]
  cases s <;> rfl

theorem components_append (x y : Text) :
    components (x ++ slash :: y) = components x ++ components y := segments_append x y

theorem nil_notMem_components (s : Text) : [] ∉ components s := by
  intro h
  exact absurd (List.mem_filter.mp h).2 (by decide)

theorem components_of_notMem (h : slash ∉ s) :
    components s = if s = [] then [] else [s] := segments_of_notMem h

theorem components_ne_nil {c : Byte} (s : Text) (hc : c ≠ slash) : components (c :: s) ≠ [] := by
  by_cases h : slash ∈ s
  · obtain ⟨x, y, rfl, hx⟩ := List.eq_append_cons_of_mem h
    have hcx : slash ∉ c :: x := by simp [hx, hc.symm]
    rw [← List.cons_append, components_append, components_of_notMem hcx]
    simp
  · rw [components_of_notMem (by simp [h, hc.symm])]
    simp

/-- Induction on what follows the first slash. -/
theorem slash_induction {P : Text → Prop} (plain : ∀ s, slash ∉ s → P s)
    (slashed : ∀ x y, slash ∉ x → P y → P (x ++ slash :: y)) (s : Text) : P s := by
  by_cases h : slash ∈ s
  · obtain ⟨x, y, rfl, hx⟩ := List.eq_append_cons_of_mem h
    exact slashed x y hx (slash_induction plain slashed y)
  · exact plain s h
termination_by s.length
decreasing_by
  subst_vars
  rw [List.length_append, List.length_cons]
  omega

theorem length_components (s : Text) : (components s).length ≤ s.length := by
  have hplain : ∀ x, slash ∉ x → (components x).length ≤ x.length := by
    intro x hx
    rw [components_of_notMem hx]
    cases x <;> simp
  induction s using slash_induction with
  | slashed x y hx ih =>
    have hx' := hplain x hx
    rw [components_append, List.length_append, List.length_append, List.length_cons]
    omega
  | plain s h => exact hplain s h

/-- A component is made of bytes of the path. -/
theorem sublist_of_mem_components {s c : Text} (h : c ∈ components s) : c.Sublist s := by
  induction s using slash_induction with
  | slashed x y hx ih =>
    rw [components_append, components_of_notMem hx] at h
    rcases List.mem_append.mp h with h | h
    · split_ifs at h
      · cases h
      · rw [List.mem_singleton.mp h]
        exact List.sublist_append_left x _
    · exact ((ih h).cons slash).trans (List.sublist_append_right x _)
  | plain s hs =>
    rw [components_of_notMem hs] at h
    split_ifs at h
    · cases h
    · rw [List.mem_singleton.mp h]

theorem strrchr_append (c : Byte) (x y : Text) : strrchr c (x ++ y) =
    match strrchr c y with
    | some i => some (x.length + i)
    | none => strrchr c x := by
  induction x with
  | nil => cases h : strrchr c y <;> simp [strrchr, h]
  | cons a x ih =>
    rw [List.cons_append, strrchr, ih]
    cases strrchr c y with
    | some i => simp only [List.length_cons]; congr 1; omega
    | none => rfl

theorem strrchr_of_notMem {c : Byte} (h : c ∉ s) : strrchr c s = none := by
  induction s with
  | nil => rfl
  | cons x s ih =>
    rw [List.mem_cons, not_or] at h
    rw [strrchr, ih h.2]
    exact if_neg (Ne.symm h.1)

section Last
variable {x y : Text} (h : slash ∉ y)
include h

theorem strrchr_last : strrchr slash (x ++ slash :: y) = some x.length := by
  rw [strrchr_append, strrchr, strrchr_of_notMem h]
  rfl

theorem basename_of_notMem : basename y = y := by
  rw [basename, strrchr_of_notMem h]

theorem basename_last : basename (x ++ slash :: y) = y := by
  rw [basename, strrchr_last h]
  exact List.drop_length_add_append 1

theorem dirname_of_notMem : dirname y = [dot] := by
  rw [dirname, strrchr_of_notMem h]

theorem dirname_last (hy : y ≠ []) : dirname (x ++ slash :: y) = if x = [] then [slash] else x := by
  have hlen : ¬ x.length + 1 = (x ++ slash :: y).length := by
    have hpos := List.length_pos_of_ne_nil hy
    rw [List.length_append, List.length_cons]
    omega
  rw [dirname, strrchr_last h]
  dsimp only
  rw [if_neg hlen, strrchr_last h]
  simp

end Last

theorem exists_last_slash (h : slash ∈ s) :
    ∃ x y, s = x ++ slash :: y ∧ slash ∉ y := by
  obtain ⟨y, x, hs, hy⟩ := List.eq_append_cons_of_mem (List.mem_reverse.mpr h)
  refine ⟨x.reverse, y.reverse, ?_, by simpa using hy⟩
  rw [← List.reverse_reverse s, hs]
  simp

theorem basename_append (x p : Text) : basename (x ++ slash :: p) = basename p := by
  by_cases h : slash ∈ p
  · obtain ⟨u, y, rfl, hy⟩ := exists_last_slash h
    rw [basename_last hy, ← List.cons_append, ← List.append_assoc, basename_last hy]
  · rw [basename_last h, basename_of_notMem h]

/-- dirname gives ".", "/" or the beginning of the path. -/
theorem dirname_cases (c : Byte) (rest : Text) : dirname (c :: rest) = [dot] ∨
    dirname (c :: rest) = [slash] ∨
      ∃ rest', dirname (c :: rest) = c :: rest' ∧ rest' <+: rest := by
  unfold dirname
  cases h : strrchr slash (c :: rest) with
  | none => exact .inl rfl
  | some i =>
    refine .inr ?_
    dsimp only
    generalize hp : (if i + 1 = (c :: rest).length then (c :: rest).take i else c :: rest) = path'
    cases hj : strrchr slash path' with
    | none => exact .inl rfl
    | some j =>
      dsimp only
      split_ifs with h0
      · exact .inl rfl
      · have hpre : path' <+: c :: rest := by
          rw [← hp]
          split_ifs
          · exact List.take_prefix _ _
          · exact List.prefix_rfl
        cases path' with
        | nil => cases hj
        | cons a path' =>
          obtain ⟨rfl, hrest⟩ := List.cons_prefix_cons.mp hpre
          obtain ⟨m, rfl⟩ := Nat.exists_eq_succ_of_ne_zero h0
          exact .inr ⟨path'.take m, rfl, (List.take_prefix m _).trans hrest⟩

/-- `b` is the last component of the path and `d` the path of those before it. "." is no
component, or the path's own one. -/
structure Splits (path b d : Text) : Prop where
  last : (components path).getLast? = some b
  names : d ≠ [dot] → components path = components d ++ [b]
  here : d = [dot] → components path = [b] ∨ path = dot :: slash :: b
  absolute : d.head? = some slash ↔ path.head? = some slash

theorem splits_last {x y : Text} (hy : y ≠ []) (h : slash ∉ y) :
    Splits (x ++ slash :: y) y (if x = [] then [slash] else x) := by
  have hc : components (x ++ slash :: y) = components x ++ [y] := by
    rw [components_append, components_of_notMem h, if_neg hy]
  refine ⟨by rw [hc, List.getLast?_concat], fun _ => ?_, fun hd => ?_, ?_⟩
  · rw [hc]
    split_ifs with hx
    · rw [hx]
      rfl
    · rfl
  · split_ifs at hd
    · cases hd
    · exact .inr (by rw [hd]; rfl)
  · cases x <;> simp

theorem splits_name {y : Text} (hy : y ≠ []) (h : slash ∉ y) : Splits y y [dot] := by
  have hc : components y = [y] := by rw [components_of_notMem h, if_neg hy]
  refine ⟨by rw [hc]; rfl, fun hd => absurd rfl hd, fun _ => .inl hc, ?_⟩
  refine ⟨fun hd => absurd hd (by decide), fun hd => absurd (List.mem_of_head? hd) h⟩

/-- dirname and basename split the paths that do not end in a slash. -/
theorem splits_iff (path : Text) (h : ∃ c ∈ path, c ≠ slash) :
    Splits path (basename path) (dirname path) ↔ path.getLast? ≠ some slash := by
  refine ⟨fun hs hlast => ?_, fun hlast => ?_⟩
  · obtain ⟨x, rfl⟩ := List.getLast?_eq_some_iff.mp hlast
    have hb := hs.last
    rw [basename_last List.not_mem_nil] at hb
    exact nil_notMem_components _ (List.mem_of_getLast? hb)
  · by_cases hm : slash ∈ path
    · obtain ⟨x, y, rfl, hy⟩ := exists_last_slash hm
      have hne : y ≠ [] := fun he => hlast (by simp [he])
      rw [basename_last hy, dirname_last hy hne]
      exact splits_last hne hy
    · obtain ⟨c, hc, -⟩ := h
      rw [basename_of_notMem hm, dirname_of_notMem hm]
      exact splits_name (List.ne_nil_of_mem hc) hm

theorem splits_iff_doubled : Splits [slash, 0x61, slash, slash, 0x62]
    (basename [slash, 0x61, slash, slash, 0x62]) (dirname [slash, 0x61, slash, slash, 0x62]) :=
  (splits_iff _ ⟨0x61, by decide, by decide⟩).mpr (by decide)

/-- "a/" is a relative path with the component "a". Its name becomes empty and its directory
the root. -/
theorem trailing_slash_lost : (∃ c ∈ [0x61, slash], c ≠ slash) ∧
    components [0x61, slash] = [[0x61]] ∧ basename [0x61, slash] = [] ∧ dirname [0x61, slash] = [slash] ∧
    ¬Splits [0x61, slash] (basename [0x61, slash]) (dirname [0x61, slash]) := by
  refine ⟨⟨0x61, by decide, by decide⟩, by decide, by decide, by decide, fun h => ?_⟩
  exact absurd (h.absolute.mp (by decide)) (by decide)

end TapiOS.Util
