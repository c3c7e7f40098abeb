import Mathlib.Data.List.Basic
import Mathlib.Data.List.Nodup

/-!
# Linked lists in memory

`next` gives the element after an address and `null` ends a list. `Chain` relates the
elements met from an address to a Lean list; a search along the links is then
`List.find?`, and taking an element out or appending one is a change of one link.
-/
namespace TapiOS.Lib

variable {α : Type*}

/-- A walk from `p` meets exactly the given elements. -/
def Chain (null : α) (next : α → α) : α → List α → Prop
  | p, [] => p = null
  | p, s :: ss => p = s ∧ s ≠ null ∧ Chain null next (next s) ss

/-- The walk from `p` comes to `t`. -/
inductive Visits (null : α) (next : α → α) : α → α → Prop where
  | here {t : α} (hne : t ≠ null) : Visits null next t t
  | later {s t : α} (hne : s ≠ null) (ht : Visits null next (next s) t) : Visits null next s t

/-- The first element of the walk that passes the test, `null` if the walk ends without
one; `none` if it is still going on after `n` elements. -/
def findAlong [DecidableEq α] (null : α) (next : α → α) (test : α → Bool) : Nat → α → Option α
  | 0, s => if s = null then some null else none
  | n + 1, s =>
    if s = null then some null
    else if test s then some s
    else findAlong null next test n (next s)

/-- The first element of the walk at which it stops; `none` if it is still going on after
`n` elements. -/
def lastAlong (stop : α → Bool) (next : α → α) : Nat → α → Option α
  | 0, _ => none
  | n + 1, s => if stop s then some s else lastAlong stop next n (next s)

section Walks
variable {null : α} {next next' : α → α} {p : α} {ss : List α}

section Links
variable (h : Chain null next p ss)
include h

theorem Chain.congr (hn : ∀ s ∈ ss, next' s = next s) : Chain null next' p ss := by
  induction ss generalizing p with
  | nil => exact h
  | cons s ss ih =>
    obtain ⟨hp, hne, hc⟩ := h
    refine ⟨hp, hne, ?_⟩
    rw [hn s List.mem_cons_self]
    exact ih hc (fun t ht => hn t (.tail _ ht))

theorem Chain.ne_null : ∀ s ∈ ss, s ≠ null := by
  induction ss generalizing p with
  | nil => simp
  | cons s ss ih =>
    obtain ⟨-, hne, hc⟩ := h
    exact List.forall_mem_cons.mpr ⟨hne, ih hc⟩

theorem Chain.head_ne (hs : ss ≠ []) : p ≠ null := by
  cases ss with
  | nil => exact absurd rfl hs
  | cons s ss =>
    rw [h.1]
    exact h.2.1

/-- The elements of a walk are determined by the links. -/
theorem Chain.unique {ts : List α} (h' : Chain null next p ts) : ss = ts := by
  induction ss generalizing p ts with
  | nil =>
    cases ts with
    | nil => rfl
    | cons t ts => exact absurd (h'.1.symm.trans h) h'.2.1
  | cons s ss ih =>
    cases ts with
    | nil => exact absurd (h.1.symm.trans h') h.2.1
    | cons t ts =>
      obtain rfl := h.1.symm.trans h'.1
      rw [ih h.2.2 h'.2.2]

theorem Chain.visits : ∀ s ∈ ss, Visits null next p s := by
  induction ss generalizing p with
  | nil => simp
  | cons s ss ih =>
    obtain ⟨rfl, hne, hc⟩ := h
    exact List.forall_mem_cons.mpr ⟨.here hne, fun t ht => .later hne (ih hc t ht)⟩

theorem Chain.mem_of_visits {t : α} (hv : Visits null next p t) : t ∈ ss := by
  induction hv generalizing ss with
  | here hne =>
    cases ss with
    | nil => exact absurd h hne
    | cons s ss => rw [h.1]; exact .head _
  | later hne _ ih =>
    cases ss with
    | nil => exact absurd h hne
    | cons s ss =>
      obtain ⟨rfl, -, hc⟩ := h
      exact .tail _ (ih hc)

/-- An element that is linked to another one stands right before it. -/
theorem Chain.behind {q : α} (hq : q ∈ ss) (hn : next q ≠ null) :
    ∃ xs ys, ss = xs ++ q :: next q :: ys := by
  induction ss generalizing p with
  | nil => cases hq
  | cons s ss ih =>
    obtain ⟨rfl, -, hc⟩ := h
    rcases List.mem_cons.mp hq with rfl | hq
    · cases ss with
      | nil => exact absurd hc hn
      | cons t ss =>
        obtain ⟨ht, -, -⟩ := hc
        exact ⟨[], ss, by rw [ht]; rfl⟩
    · obtain ⟨xs, ys, rfl⟩ := ih hc hq
      exact ⟨p :: xs, ys, rfl⟩

/-- An element that is linked to nothing is the last one. -/
theorem Chain.last {q : α} (hq : q ∈ ss) (hn : next q = null) : ∃ xs, ss = xs ++ [q] := by
  induction ss generalizing p with
  | nil => cases hq
  | cons s ss ih =>
    obtain ⟨rfl, -, hc⟩ := h
    rcases List.mem_cons.mp hq with rfl | hq
    · rw [hn] at hc
      cases ss with
      | nil => exact ⟨[], rfl⟩
      | cons t ss => exact absurd hc.1.symm hc.2.1
    · obtain ⟨xs, rfl⟩ := ih hc hq
      exact ⟨p :: xs, rfl⟩

theorem Chain.start : p = ss[0]?.getD null := by
  cases ss with
  | nil => exact h
  | cons s ss => exact h.1

/-- The link of an element leads to the one at the next position. -/
theorem Chain.link {i : Nat} {q : α} (hq : ss[i]? = some q) : next q = ss[i + 1]?.getD null := by
  induction ss generalizing p i with
  | nil => simp at hq
  | cons s ss ih =>
    obtain ⟨-, -, hc⟩ := h
    cases i with
    | zero =>
      cases hq
      simpa using hc.start
    | succ i => simpa using ih hc (by simpa using hq)

end Links

variable {xs ys : List α}

theorem Chain.skip {q v : α} (h : Chain null next p (xs ++ q :: v :: ys))
    (hd : (xs ++ q :: v :: ys).Nodup) (hq : next' q = next v)
    (ho : ∀ a ∈ xs ++ ys, next' a = next a) : Chain null next' p (xs ++ q :: ys) := by
  induction xs generalizing p with
  | nil =>
    obtain ⟨hp, hq0, hv, -, hc⟩ := h
    refine ⟨hp, hq0, ?_⟩
    rw [hq]
    exact hc.congr ho
  | cons a xs ih =>
    obtain ⟨hp, ha0, hc⟩ := h
    rw [List.cons_append, List.nodup_cons] at hd
    refine ⟨hp, ha0, ?_⟩
    rw [ho a (by simp)]
    exact ih hc hd.2 (fun b hb => ho b (.tail _ hb))

theorem Chain.replace {t v : α} (h : Chain null next p (xs ++ t :: ys))
    (hv : v ≠ null) (hn : next' v = next t) (hq : ∀ q ∈ xs.getLast?, next' q = v)
    (hx : ∀ a ∈ xs.dropLast, next' a = next a) (hy : ∀ a ∈ ys, next' a = next a) :
    Chain null next' (if xs = [] then v else p) (xs ++ v :: ys) := by
  induction xs generalizing p with
  | nil =>
    obtain ⟨-, -, hc⟩ := h
    refine ⟨rfl, hv, ?_⟩
    rw [hn]
    exact hc.congr hy
  | cons a xs ih =>
    obtain ⟨hp, ha0, hc⟩ := h
    refine ⟨hp, ha0, ?_⟩
    cases xs with
    | nil =>
      rw [hq a rfl]
      exact ih hc (by simp) (by simp)
    | cons b xs =>
      rw [hx a (by simp)]
      exact ih hc hq fun c hc => hx c (by simp [List.dropLast_cons_cons, hc])

/-- Ending the list at an element drops what came after it. -/
theorem Chain.cut {q : α} (h : Chain null next p (xs ++ q :: ys))
    (hq : next' q = null) (ho : ∀ a ∈ xs, next' a = next a) :
    Chain null next' p (xs ++ [q]) := by
  induction xs generalizing p with
  | nil =>
    obtain ⟨hp, hq0, -⟩ := h
    exact ⟨hp, hq0, hq⟩
  | cons a xs ih =>
    obtain ⟨hp, ha0, hc⟩ := h
    refine ⟨hp, ha0, ?_⟩
    rw [ho a List.mem_cons_self]
    exact ih hc (fun b hb => ho b (.tail _ hb))

/-- Linking a new element behind the last one. -/
theorem Chain.append {q v : α} (h : Chain null next p (ss ++ [q])) (hv : v ≠ null)
    (hq : next' q = v) (hn : next' v = null) (ho : ∀ a ∈ ss, next' a = next a) :
    Chain null next' p (ss ++ [q, v]) := by
  induction ss generalizing p with
  | nil =>
    obtain ⟨hp, hq0, -⟩ := h
    exact ⟨hp, hq0, hq, hv, hn⟩
  | cons a ss ih =>
    obtain ⟨hp, ha0, hc⟩ := h
    refine ⟨hp, ha0, ?_⟩
    rw [ho a List.mem_cons_self]
    exact ih hc (fun b hb => ho b (.tail _ hb))

/-- A walk that stops at elements linked to nothing ends with the last element. -/
theorem Chain.lastAlong {stop : α → Bool} {q : α} (n : Nat) (h : Chain null next p (ss ++ [q]))
    (hs : ∀ s ∈ ss ++ [q], stop s ↔ next s = null)
    (hn : ∀ s ∈ ss, next s ≠ null → next' s = next s) (hlen : ss.length < n) :
    lastAlong stop next' n p = some q := by
  induction ss generalizing p n with
  | nil =>
    obtain ⟨rfl, -, hq⟩ := h
    obtain ⟨n, rfl⟩ : ∃ k, n = k + 1 := ⟨n - 1, by simp at hlen; omega⟩
    rw [Lib.lastAlong, if_pos ((hs p (by simp)).mpr hq)]
  | cons s ss ih =>
    obtain ⟨rfl, -, hc⟩ := h
    obtain ⟨n, rfl⟩ : ∃ k, n = k + 1 := ⟨n - 1, by simp at hlen; omega⟩
    -- something follows, so the walk goes on
    have hne : next p ≠ null := hc.head_ne (by simp)
    rw [Lib.lastAlong, if_neg (fun hp => hne ((hs p (by simp)).mp hp)), hn p List.mem_cons_self hne]
    exact ih n hc (fun t ht => hs t (.tail _ ht))
      (fun t ht => hn t (.tail _ ht)) (by simpa using hlen)

end Walks

section Search
variable [DecidableEq α] {null : α} {next next' : α → α} {p : α} {ss : List α}

theorem findAlong_congr {test test' : α → Bool} (hn : ∀ a, next' a = next a)
    (ht : ∀ a, test' a = test a) (n : Nat) (s : α) :
    findAlong null next' test' n s = findAlong null next test n s := by
  induction n generalizing s with
  | zero => rfl
  | succ n ih => simp only [findAlong, hn, ht, ih]

variable {n : Nat}

theorem findAlong_here {test : α → Bool} {s : α} (hs : s ≠ null) (ht : test s)
    (hn : 0 < n) : findAlong null next test n s = some s := by
  obtain ⟨k, rfl⟩ : ∃ k, n = k + 1 := ⟨n - 1, by omega⟩
  simp [findAlong, hs, ht]

/-- What a search finds passes the test, and lies in every set that the links stay in. -/
theorem findAlong_some {test : α → Bool} {S : α → Prop} {s r : α}
    (hclosed : ∀ a, S a → next a ≠ null → S (next a)) (hs : s ≠ null → S s)
    (h : findAlong null next test n s = some r) (hr : r ≠ null) : S r ∧ test r := by
  induction n generalizing s with
  | zero =>
    simp only [findAlong] at h
    split_ifs at h
    exact absurd (Option.some.inj h).symm hr
  | succ n ih =>
    simp only [findAlong] at h
    split_ifs at h with h0 ht
    · exact absurd (Option.some.inj h).symm hr
    · cases h
      exact ⟨hs h0, ht⟩
    · exact ih (hclosed s (hs h0)) h

/-- A search for the last element does not come back empty. -/
theorem findAlong_last_ne {s r : α} (hs : s ≠ null)
    (h : findAlong null next (fun a => decide (next a = null)) n s = some r) : r ≠ null := by
  induction n generalizing s with
  | zero => simp [findAlong, hs] at h
  | succ n ih =>
    simp only [findAlong, if_neg hs] at h
    split_ifs at h with ht
    · exact Option.some.inj h ▸ hs
    · exact ih (of_decide_eq_false (Bool.not_eq_true _ ▸ ht)) h

theorem Chain.find (h : Chain null next p ss) (test : α → Bool)
    (hn : ss.length ≤ n) : findAlong null next test n p = some ((ss.find? test).getD null) := by
  induction ss generalizing p n with
  | nil =>
    obtain rfl : p = null := h
    cases n <;> simp [findAlong]
  | cons s ss ih =>
    obtain ⟨rfl, hne, hc⟩ := h
    obtain ⟨n, rfl⟩ : ∃ k, n = k + 1 := ⟨n - 1, by simp at hn; omega⟩
    simp only [findAlong, hne, ↓reduceIte, List.find?_cons]
    split
    · next ht => simp [ht]
    · next ht => simp only [ht]; exact ih hc (by simpa using hn)

/-- The element before `v` is the first one linked to it. -/
theorem Chain.find_link {xs ys : List α} {q v : α}
    (h : Chain null next p (xs ++ q :: v :: ys)) (hd : (xs ++ q :: v :: ys).Nodup) :
    (xs ++ q :: v :: ys).find? (fun s => decide (next s = v)) = some q := by
  induction xs generalizing p with
  | nil =>
    obtain ⟨-, -, hv, -⟩ := h
    rw [List.nil_append, List.find?_cons_of_pos (by simpa using hv)]
  | cons a xs ih =>
    obtain ⟨-, -, hc⟩ := h
    rw [List.cons_append, List.nodup_cons] at hd
    rw [List.cons_append, List.find?_cons_of_neg, ih hc hd.2]
    -- the element after `a` comes before `v`
    have hne : next a ≠ v := by
      intro he
      have hd' := hd.2
      cases xs with
      | nil => rw [← he, hc.1] at hd'; simp at hd'
      | cons b xs => rw [← he, hc.1] at hd'; simp at hd'
    simpa using hne

/-- The last element is the first one linked to `null`. -/
theorem Chain.find_last {q : α} (h : Chain null next p (ss ++ [q])) :
    (ss ++ [q]).find? (fun s => decide (next s = null)) = some q := by
  induction ss generalizing p with
  | nil =>
    have hq : next q = null := h.2.2
    rw [List.nil_append, List.find?_cons_of_pos (by simpa using hq)]
  | cons a ss ih =>
    obtain ⟨-, -, hc⟩ := h
    rw [List.cons_append, List.find?_cons_of_neg, ih hc]
    have hne : next a ≠ null := by
      cases ss with
      | nil => rw [hc.1]; exact hc.2.1
      | cons b ss => rw [hc.1]; exact hc.2.1
    simpa using hne

end Search
end TapiOS.Lib
