import TapiOS.Util.Text

/-!
# Strings in memory, util/util.c

A `char *` is the bytes from the place it points to on. A text stands there if its
bytes are followed by NUL; what comes after the NUL is not part of it.
-/
namespace TapiOS.Util

abbrev Chars := Nat → Byte

/-- The pointer one byte further. -/
def Chars.next (s : Chars) : Chars := fun i => s (i + 1)

def strnlen (str : Chars) : Nat → Nat
  | 0 => 0
  | n + 1 => if str 0 = 0 then 0 else strnlen str.next n + 1

def memcmp (p1 p2 : Chars) : Nat → Int
  | 0 => 0
  | n + 1 =>
    if p1 0 < p2 0 then -1
    else if p2 0 < p1 0 then 1
    else memcmp p1.next p2.next n

/-- The byte `c`, then what `s` points to. -/
def Chars.cons (c : Byte) (s : Chars) : Chars
  | 0 => c
  | i + 1 => s i

/-- The bytes from `s + i` on are rewritten by `f`. -/
def Chars.writeAt (f : Chars → Chars) : Nat → Chars → Chars
  | 0, s => f s
  | i + 1, s => (writeAt f i s.next).cons (s 0)

/-- Unlike the library's, it does not fill the rest of `dst` with NUL. -/
def strncpy (dst src : Chars) : Nat → Chars
  | 0 => dst
  | n + 1 => (if src 0 = 0 then dst.next else strncpy dst.next src.next n).cons (src 0)

/-- The text at `s`, of which at most `n` bytes are read. -/
def Chars.text (s : Chars) : Nat → Text
  | 0 => []
  | n + 1 => if s 0 = 0 then [] else s 0 :: s.next.text n

/-- A string as a caller passes it. -/
structure CString where
  text : Text
  clean : 0 ∉ text

/-- The text `t` stands at `s`. -/
def Spells : Chars → Text → Prop
  | s, [] => s 0 = 0
  | s, c :: t => s 0 = c ∧ c ≠ 0 ∧ Spells s.next t

/-- The text `t` in memory, with `rest` behind its NUL. -/
def chars (t : Text) (rest : Chars) : Chars := fun i => (t ++ [0])[i]?.getD (rest i)

theorem chars_spells {t : Text} (h : 0 ∉ t) (rest : Chars) : Spells (chars t rest) t := by
  induction t generalizing rest with
  | nil => rfl
  | cons c t ih =>
    rw [List.mem_cons, not_or] at h
    exact ⟨rfl, Ne.symm h.1, ih h.2 rest.next⟩

section Spells
variable {s s' : Chars} {t t' : Text}

variable {n : Nat}

theorem Spells.strnlen (h : Spells s t) (hn : t.length ≤ n) :
    strnlen s n = t.length := by
  induction t generalizing s n with
  | nil =>
    cases n with
    | zero => rfl
    | succ n => exact if_pos h
  | cons c t ih =>
    obtain ⟨h0, hc, ht⟩ := h
    cases n with
    | zero => cases hn
    | succ n =>
      rw [Util.strnlen, if_neg (h0 ▸ hc), ih ht (Nat.le_of_succ_le_succ hn)]
      rfl

theorem Spells.strncpy (h : Spells s t) (dst : Chars) (hn : t.length < n) :
    Spells (strncpy dst s n) t := by
  induction t generalizing s dst n with
  | nil =>
    cases n with
    | zero => cases hn
    | succ n => exact h
  | cons c t ih =>
    obtain ⟨h0, hc, ht⟩ := h
    cases n with
    | zero => cases hn
    | succ n =>
      refine ⟨h0, hc, ?_⟩
      show Spells (if s 0 = 0 then dst.next else Util.strncpy dst.next s.next n) t
      rw [if_neg (h0 ▸ hc)]
      exact ih ht dst.next (Nat.lt_of_succ_lt_succ hn)

theorem Spells.text_eq (h : Spells s t) (hn : t.length ≤ n) : s.text n = t := by
  induction t generalizing s n with
  | nil =>
    cases n with
    | zero => rfl
    | succ n => exact if_pos h
  | cons c t ih =>
    obtain ⟨h0, hc, ht⟩ := h
    cases n with
    | zero => cases hn
    | succ n =>
      rw [Chars.text, if_neg (h0 ▸ hc), ih ht (Nat.le_of_succ_le_succ hn), h0]

/-- A text that ends before the bound is followed by NUL. -/
theorem spells_text (h : (s.text n).length < n) : Spells s (s.text n) := by
  induction n generalizing s with
  | zero => cases h
  | succ n ih =>
    unfold Chars.text at h ⊢
    by_cases h0 : s 0 = 0
    · rw [if_pos h0]
      exact h0
    · rw [if_neg h0] at h ⊢
      exact ⟨rfl, h0, ih (Nat.lt_of_succ_lt_succ h)⟩

theorem Spells.writeAt {i : Nat} (h : Spells s t) (f : Chars → Chars) (hi : t.length < i) :
    Spells (Chars.writeAt f i s) t := by
  induction t generalizing s i with
  | nil =>
    cases i with
    | zero => cases hi
    | succ i => exact h
  | cons c t ih =>
    obtain ⟨h0, hc, ht⟩ := h
    cases i with
    | zero => cases hi
    | succ i => exact ⟨h0, hc, ih ht (Nat.lt_of_succ_lt_succ hi)⟩

/-- Over the longer of two texts memcmp meets a difference, the NUL of the shorter one if
no other. -/
theorem Spells.memcmp (h : Spells s t) (h' : Spells s' t') :
    memcmp s s' (max t.length t'.length) = 0 ↔ t = t' := by
  induction t generalizing s s' t' with
  | nil =>
    cases t' with
    | nil => exact iff_of_true rfl rfl
    | cons c t' =>
      obtain ⟨h0, hc, -⟩ := h'
      have hlt : s 0 < s' 0 := by
        rw [show s 0 = 0 from h, h0]
        bv_omega
      refine iff_of_false ?_ (by simp)
      rw [List.length_nil, Nat.zero_max, List.length_cons, Util.memcmp, if_pos hlt]
      decide
  | cons c t ih =>
    obtain ⟨h0, hc, ht⟩ := h
    cases t' with
    | nil =>
      have hlt : s' 0 < s 0 := by
        rw [show s' 0 = 0 from h', h0]
        bv_omega
      refine iff_of_false ?_ (by simp)
      rw [List.length_nil, Nat.max_zero, List.length_cons, Util.memcmp, if_neg (by bv_omega),
        if_pos hlt]
      decide
    | cons c' t' =>
      obtain ⟨h0', -, ht'⟩ := h'
      have ih' := ih ht ht'
      rw [List.length_cons, List.length_cons, Nat.succ_max_succ, Util.memcmp, h0, h0']
      rcases BitVec.lt_trichotomy c c' with hlt | rfl | hlt
      · rw [if_pos hlt]
        refine iff_of_false (by decide) fun he => ?_
        rw [List.cons.injEq] at he
        exact BitVec.ne_of_lt hlt he.1
      · rw [if_neg (BitVec.lt_irrefl c), if_neg (BitVec.lt_irrefl c), ih']
        simp
      · rw [if_neg (by bv_omega), if_pos hlt]
        refine iff_of_false (by decide) fun he => ?_
        rw [List.cons.injEq] at he
        exact BitVec.ne_of_lt hlt he.1.symm

end Spells

end TapiOS.Util
