import TapiOS.Util.Text

/-!
# Tokens, strtok of util/util.c

A buffer is a list of bytes and a pointer is an index into it. To read or write behind the
buffer is `none`.
-/
namespace TapiOS.Util

/-- What a call returns, the buffer and the static pointer after it. -/
structure Token where
  ret : Option Nat
  buf : List Byte
  lastp : Option Nat

def strtok (buf : List Byte) (lastp str : Option Nat) (delim : Byte) : Option Token :=
  match str.or lastp with
  | none => some ⟨none, buf, lastp⟩
  | some p =>
    -- while(*p == delim) ++p;
    let oldp := p + ((buf.drop p).takeWhile (· == delim)).length
    match buf[oldp]? with
    | none => none
    | some c =>
      if c = 0 then some ⟨none, buf, lastp⟩
      else
        -- for(; *p; ++p) if(*p == delim)
        let p := oldp + ((buf.drop oldp).takeWhile fun c => c != 0 && c != delim).length
        match buf[p]? with
        | none => none
        | some c =>
          if c = 0 then some ⟨some oldp, buf, none⟩
          else some ⟨some oldp, buf.set p 0, some (p + 1)⟩

/-- Calls up to the first NULL, `str` being passed to the first one. -/
def strtokLoop (delim : Byte) : Nat → List Byte → Option Nat → Option Nat →
    Option (List Nat × List Byte)
  | 0, _, _, _ => none
  | n + 1, buf, lastp, str =>
    match strtok buf lastp str delim with
    | none => none
    | some ⟨none, buf, _⟩ => some ([], buf)
    | some ⟨some p, buf, lastp⟩ =>
      match strtokLoop delim n buf lastp none with
      | none => none
      | some (ps, buf) => some (p :: ps, buf)

/-- Every token of the string at the start of the buffer. -/
def strtokAll (buf : List Byte) (lastp : Option Nat) (delim : Byte) :
    Option (List Nat × List Byte) := strtokLoop delim (buf.length + 1) buf lastp (some 0)

/-- The text `w` and a NUL stand at `p`. -/
def TextAt (buf : List Byte) (p : Nat) (w : Text) : Prop := w ++ [0] <+: buf.drop p

section Tokens
variable {d : Byte}

/-- Leading delimiters, then nothing, a last token, or a token and more. -/
theorem segments_cases (u : Text) : ∃ ds x, u = ds ++ x ∧ (∀ c ∈ ds, c = d) ∧
    (x = [] ∧ segments d u = [] ∨
      ∃ w, w ≠ [] ∧ d ∉ w ∧ (x = w ∧ segments d u = [w] ∨
        ∃ v, x = w ++ d :: v ∧ segments d u = w :: segments d v)) := by
  induction u with
  | nil => exact ⟨[], [], rfl, by simp, .inl ⟨rfl, rfl⟩⟩
  | cons c u ih =>
    by_cases hc : c = d
    · subst hc
      obtain ⟨ds, x, rfl, hds, hx⟩ := ih
      have hseg : segments c (c :: (ds ++ x)) = segments c (ds ++ x) := segments_append [] _
      rw [hseg]
      exact ⟨c :: ds, x, rfl, List.forall_mem_cons.mpr ⟨rfl, hds⟩, hx⟩
    · refine ⟨[], c :: u, rfl, by simp, .inr ?_⟩
      by_cases hu : d ∈ u
      · obtain ⟨y, v, rfl, hy⟩ := List.eq_append_cons_of_mem hu
        have hw : d ∉ c :: y := by simp [hy, Ne.symm hc]
        have hseg := segments_append (d := d) (c :: y) v
        rw [segments_of_notMem hw] at hseg
        exact ⟨c :: y, by simp, hw, .inr ⟨v, rfl, hseg⟩⟩
      · have hw : d ∉ c :: u := by simp [hu, Ne.symm hc]
        exact ⟨c :: u, by simp, hw, .inl ⟨rfl, segments_of_notMem hw⟩⟩

theorem takeWhile_stop {α : Type} {f : α → Bool} {xs ys : List α} {c : α}
    (h : ∀ a ∈ xs, f a) (hc : f c = false) : (xs ++ c :: ys).takeWhile f = xs := by
  rw [List.takeWhile_append_of_pos h, List.takeWhile_cons, hc]
  simp

/-- A call that comes to a token `w`, which the byte `c` ends. -/
theorem strtok_token {pre ds w y : List Byte} {c : Byte} {lastp str : Option Nat} (hw : w ≠ [])
    (h0 : 0 ∉ w) (hdw : d ∉ w) (hds : ∀ b ∈ ds, b = d) (hc : c = 0 ∨ c = d)
    (hs : str.or lastp = some pre.length) :
    strtok (pre ++ ds ++ w ++ c :: y) lastp str d = some
      (if c = 0 then ⟨some (pre ++ ds).length, pre ++ ds ++ w ++ c :: y, none⟩
      else ⟨some (pre ++ ds).length, pre ++ ds ++ w ++ 0 :: y,
        some ((pre ++ ds ++ w).length + 1)⟩) := by
  have hskip : ((pre ++ ds ++ w ++ c :: y).drop pre.length).takeWhile (· == d) = ds := by
    cases w with
    | nil => exact absurd rfl hw
    | cons b w =>
      have hb : b ≠ d := fun h => hdw (h ▸ .head _)
      simp only [List.append_assoc, List.drop_left, List.cons_append]
      exact takeWhile_stop (by simpa using hds) (by simpa using hb)
  have hword : ((pre ++ ds ++ w ++ c :: y).drop (pre ++ ds).length).takeWhile
      (fun c => c != 0 && c != d) = w := by
    rw [List.append_assoc, List.drop_left]
    refine takeWhile_stop (fun b hb => ?_) ?_
    · have hb0 : b ≠ 0 := fun h => h0 (h ▸ hb)
      have hbd : b ≠ d := fun h => hdw (h ▸ hb)
      simpa using ⟨hb0, hbd⟩
    · rcases hc with rfl | rfl <;> simp
  have hfirst : ∃ b, b ≠ 0 ∧ (pre ++ ds ++ w ++ c :: y)[(pre ++ ds).length]? = some b := by
    cases w with
    | nil => exact absurd rfl hw
    | cons b w => exact ⟨b, fun h => h0 (h ▸ .head _), by simp⟩
  obtain ⟨b, hb0, hb⟩ := hfirst
  have hend : (pre ++ ds ++ w ++ c :: y)[(pre ++ ds ++ w).length]? = some c := by simp
  unfold strtok
  simp only [hs, hskip, ← List.length_append, hb, if_neg hb0, hword, hend]
  split_ifs
  · rfl
  · simp

/-- The rest `u` of a string, to which the next call's pointer leads, is cut into its
segments; nothing before it and nothing behind its NUL is touched. -/
theorem strtokLoop_spec (hd : d ≠ 0) (n : Nat) (pre u post : List Byte) (lastp str : Option Nat)
    (hn : u.length < n) (hu : 0 ∉ u) (hs : str.or lastp = some pre.length) :
    ∃ ps u', strtokLoop d n (pre ++ (u ++ 0 :: post)) lastp str =
        some (ps, pre ++ (u' ++ 0 :: post)) ∧ u'.length = u.length ∧
      List.Forall₂ (TextAt (pre ++ (u' ++ 0 :: post))) ps (segments d u) := by
  induction n generalizing pre u lastp str with
  | zero => cases hn
  | succ n ih =>
    obtain ⟨ds, x, rfl, hds, hx⟩ := segments_cases (d := d) u
    rw [List.mem_append, not_or] at hu
    rw [List.length_append] at hn
    have htext (w z : List Byte) : TextAt (pre ++ ds ++ w ++ 0 :: z) (pre ++ ds).length w := by
      exact ⟨z, by simp⟩
    rcases hx with ⟨rfl, hseg⟩ | ⟨w, hw, hdw, hx⟩
    · -- only delimiters
      have hskip : (ds ++ 0 :: post).takeWhile (· == d) = ds :=
        takeWhile_stop (by simpa using hds) (by simpa using Ne.symm hd)
      refine ⟨[], ds, ?_, by simp, by rw [hseg]; exact .nil⟩
      have hnul : (pre ++ (ds ++ 0 :: post))[pre.length + ds.length]? = some 0 := by simp
      rw [List.append_nil]
      simp only [strtokLoop, strtok, hs, List.drop_left, hskip, hnul, if_true]
    have hpos := List.length_pos_of_ne_nil hw
    rcases hx with ⟨rfl, hseg⟩ | ⟨v, rfl, hseg⟩
    · -- the last token, after which the static pointer is NULL
      have hcall := strtok_token (y := post) hw hu.2 hdw hds (.inl rfl) hs
      rw [if_pos rfl] at hcall
      have hnull (buf : List Byte) : strtok buf none none d = some ⟨none, buf, none⟩ := rfl
      obtain ⟨m, rfl⟩ : ∃ m, n = m + 1 := ⟨n - 1, by omega⟩
      have hbuf : pre ++ (ds ++ x ++ 0 :: post) = pre ++ ds ++ x ++ 0 :: post := by simp
      refine ⟨[(pre ++ ds).length], ds ++ x, ?_, by simp, ?_⟩
      · rw [hbuf]
        simp only [strtokLoop, hcall, hnull]
      · rw [hseg, hbuf]
        exact .cons (htext x post) .nil
    · -- a token that ends at a delimiter, and the rest behind it
      rw [List.mem_append, not_or, List.mem_cons, not_or] at hu
      have hcall := strtok_token (y := v ++ 0 :: post) hw hu.2.1 hdw hds (.inr rfl) hs
      rw [if_neg hd] at hcall
      obtain ⟨ps, v', hl, hlen, hrest⟩ := ih (pre ++ ds ++ w ++ [0]) v
        (some ((pre ++ ds ++ w).length + 1)) none
        (by simp only [List.length_append, List.length_cons] at hn; omega) hu.2.2.2
        (by simp [Nat.add_assoc])
      have hbuf (b : Byte) (v : List Byte) : pre ++ (ds ++ (w ++ b :: v) ++ 0 :: post) =
          pre ++ ds ++ w ++ b :: (v ++ 0 :: post) := by simp
      have hcons (z : List Byte) : pre ++ ds ++ w ++ [0] ++ z = pre ++ ds ++ w ++ 0 :: z := by simp
      rw [hcons, hcons] at hl
      rw [hcons] at hrest
      refine ⟨(pre ++ ds).length :: ps, ds ++ (w ++ 0 :: v'), ?_, by simp [hlen], ?_⟩
      · rw [hbuf, hbuf]
        simp only [strtokLoop, hcall, hl]
      · rw [hseg, hbuf]
        exact .cons (htext w _) hrest

end Tokens

/-- strtok with a string and then with NULL, up to the first NULL it returns, gives the
segments of the string, each with a NUL behind it, within the string and its terminator. -/
theorem strtok_enumerates (t : Text) (d : Byte) (lastp : Option Nat) (h0 : 0 ∉ t) (hd : d ≠ 0) :
    ∃ ps buf, strtokAll (t ++ [0]) lastp d = some (ps, buf) ∧ buf.length = t.length + 1 ∧
      List.Forall₂ (TextAt buf) ps (segments d t) := by
  obtain ⟨ps, u', hl, hlen, htext⟩ := strtokLoop_spec hd ((t ++ [0]).length + 1) [] t [] lastp
    (some 0) (by rw [List.length_append]; omega) h0 rfl
  rw [List.nil_append, List.nil_append] at hl
  exact ⟨ps, u' ++ [0], hl, by simp [hlen], htext⟩

/-- "/a//b" -/
theorem strtok_enumerates_two : ∃ ps buf,
    strtokAll ([slash, 0x61, slash, slash, 0x62] ++ [0]) (some 77) slash = some (ps, buf) ∧
      buf.length = 6 ∧
      List.Forall₂ (TextAt buf) ps (segments slash [slash, 0x61, slash, slash, 0x62]) :=
  strtok_enumerates [slash, 0x61, slash, slash, 0x62] slash (some 77) (by decide) (by decide)

end TapiOS.Util
