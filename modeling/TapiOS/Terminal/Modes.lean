import TapiOS.Terminal.Tokens

/-!
# The terminal as a reader of one byte after the other

`feed` recognises the escape sequences byte by byte: a `Mode` is the part of a sequence
that has been read, and a byte that does not fit gives up the sequence, whose bytes are
then characters. Over bytes that end in no unfinished sequence `tty_write` finds the tokens
that this reader finds.
-/
namespace TapiOS.Tty

open Lib Util

/-- The digits of a number. -/
structure Digits where
  list : List Byte
  nonempty : list ≠ []
  digits : ∀ d ∈ list, isdigit d
  deriving DecidableEq

def Digits.one (d : Byte) (h : isdigit d) : Digits :=
  ⟨[d], List.cons_ne_nil _ _, by simpa using h⟩

def Digits.more (ds : Digits) (d : Byte) (h : isdigit d) : Digits where
  list := ds.list ++ [d]
  nonempty := by simp
  digits := by
    intro x hx
    rcases List.mem_append.mp hx with hx | hx
    · exact ds.digits x hx
    · rw [List.mem_singleton.mp hx]
      exact h

def Digits.value (ds : Digits) : Word := katoi ds.list

/-- How far an escape sequence has been read. -/
inductive Mode where
  | ground
  | escape
  | bracket
  | number (ds : Digits)
  | separator (ds : Digits)
  | second (ds es : Digits)
  | question
  | questionOne
  deriving DecidableEq

/-- The bytes that have been read of the sequence. -/
def Mode.bytes : Mode → List Byte
  | .ground => []
  | .escape => [ESC]
  | .bracket => CSI
  | .number ds => CSI ++ ds.list
  | .separator ds => CSI ++ ds.list ++ [ch ';']
  | .second ds es => CSI ++ ds.list ++ [ch ';'] ++ es.list
  | .question => CSI ++ [ch '?']
  | .questionOne => CSI ++ [ch '?', ch '1']

/-- What a byte does to an unfinished sequence. -/
inductive Progress where
  | further (m : Mode)
  | done (tok : Token)
  | mismatch

/-- The sequences of one number, by their letter. -/
def numberToken (n : Word) (c : Byte) : Progress :=
  if c = ch 'C' then .done (.forward n)
  else if c = ch 'J' then .done .clear
  else if c = ch 'm' then .done (.rendition n)
  else if c = ch 'A' then .done (.up n)
  else if c = ch 'B' then .done (.down n)
  else if c = ch 'D' then .done (.back n)
  else .mismatch

def Mode.progress (m : Mode) (c : Byte) : Progress :=
  match m with
  | .ground => if c = ESC then .further .escape else .mismatch
  | .escape =>
    if c = ch '[' then .further .bracket
    else if c = ch '=' then .done .ignored
    else if c = ch '>' then .done .ignored
    else if c = ch 'M' then .done .scrollDown
    else if c = ch 'D' then .done .scrollUp
    else .mismatch
  | .bracket =>
    if h : isdigit c then .further (.number (.one c h))
    else if c = ch 'H' then .done .home
    else if c = ch 'J' then .done .clearDown
    else if c = ch 'K' then .done .clearLine
    else if c = ch 'm' then .done .renditionOff
    else if c = ch '?' then .further .question
    else .mismatch
  | .number ds =>
    if h : isdigit c then .further (.number (ds.more c h))
    else if c = ch ';' then .further (.separator ds)
    else numberToken ds.value c
  | .separator ds => if h : isdigit c then .further (.second ds (.one c h)) else .mismatch
  | .second ds es =>
    if h : isdigit c then .further (.second ds (es.more c h))
    else if c = ch 'H' then .done (.position ds.value es.value)
    else if c = ch 'r' then .done (.area ds.value es.value)
    else .mismatch
  | .question => if c = ch '1' then .further .questionOne else .mismatch
  | .questionOne => if c = ch 'l' then .done .ignored else .mismatch

/-- A byte outside of every sequence. -/
def start (c : Byte) : List Token × Mode := if c = ESC then ([], .escape) else ([.char c], .ground)

def feed (m : Mode) (c : Byte) : List Token × Mode :=
  match m.progress c with
  | .further m' => ([], m')
  | .done tok => ([tok], .ground)
  | .mismatch => (m.bytes.map .char ++ (start c).1, (start c).2)

/-- The tokens of a text, and the sequence it leaves unfinished. -/
def scan (m : Mode) : List Byte → List Token × Mode
  | [] => ([], m)
  | c :: cs =>
    let (toks, m') := feed m c
    let (toks', m'') := scan m' cs
    (toks ++ toks', m'')

theorem scan_append (m : Mode) (a b : List Byte) :
    scan m (a ++ b) = ((scan m a).1 ++ (scan (scan m a).2 b).1, (scan (scan m a).2 b).2) := by
  induction a generalizing m with
  | nil => rfl
  | cons c a ih => simp [scan, ih]

section Scan
variable {m m' : Mode} {c : Byte} (cs : List Byte)

theorem feed_ground (c : Byte) : feed .ground c = start c := by
  unfold feed start Mode.progress
  by_cases h : c = ESC
  · simp only [if_pos h]
  · simp only [if_neg h]
    rfl

theorem scan_further (h : m.progress c = .further m') : scan m (c :: cs) = scan m' cs := by
  simp [scan, feed, h]

theorem scan_done {tok : Token} (h : m.progress c = .done tok) :
    scan m (c :: cs) = (tok :: (scan .ground cs).1, (scan .ground cs).2) := by
  simp [scan, feed, h]

theorem scan_mismatch (h : m.progress c = .mismatch) :
    scan m (c :: cs) = (m.bytes.map .char ++ (scan .ground (c :: cs)).1,
      (scan .ground (c :: cs)).2) := by
  simp [scan, feed_ground]
  simp [feed, h]

theorem scan_escape : scan .ground (ESC :: cs) = scan .escape cs := scan_further cs rfl

theorem scan_char (h : c ≠ ESC) :
    scan .ground (c :: cs) = (.char c :: (scan .ground cs).1, (scan .ground cs).2) := by
  simp [scan, feed_ground, start, h]

end Scan

section Templates
variable {α : Type} {p c : Byte} {fmt rest str : List Byte} {args : List Word}

theorem ksscanf_literal (hp : p ≠ ch '%') (a : Byte) (sp : List Byte) :
    ksscanf (p :: fmt) (a :: sp) args = if p = a then ksscanf fmt sp args else none := by
  cases fmt with
  | nil => rfl
  | cons c fmt =>
    rw [ksscanf, if_neg hp]
    rfl

theorem takeWhile_digits (ds : Digits) (hc : isdigit c = false) :
    (ds.list ++ c :: rest).takeWhile isdigit = ds.list := by
  rw [List.takeWhile_append_of_pos ds.digits, List.takeWhile_cons_of_neg (by simp [hc]),
    List.append_nil]

theorem dropWhile_digits (ds : Digits) (hc : isdigit c = false) :
    (ds.list ++ c :: rest).dropWhile isdigit = c :: rest := by
  rw [List.dropWhile_append_of_pos ds.digits, List.dropWhile_cons_of_neg (by simp [hc])]

theorem ksscanf_digits (ds : Digits) (hc : isdigit c = false) :
    ksscanf (ch '%' :: ch 'u' :: fmt) (ds.list ++ c :: rest) args =
      ksscanf fmt (c :: rest) (args ++ [ds.value]) := by
  rw [ksscanf]
  rw [takeWhile_digits ds hc, dropWhile_digits ds hc, if_neg ds.nonempty]
  rfl

theorem ksscanf_noDigits (hc : isdigit c = false) :
    ksscanf (ch '%' :: ch 'u' :: fmt) (c :: rest) args =
      if ch 'u' = c then ksscanf fmt rest args else none := by
  rw [ksscanf]
  rw [List.takeWhile_cons_of_neg (by simp [hc])]
  rfl

theorem ksscanf_length {out : List Byte} {args' : List Word} (fmt str : List Byte) (args : List Word)
    (h : ksscanf fmt str args = some (args', out)) :
    args'.length ≤ args.length + fmt.count (ch '%') := by
  fun_induction ksscanf fmt str args with
  | case1 sp args =>
    cases h
    exact Nat.le_add_right _ _
  | case2 sp args =>
    cases h
    exact Nat.le_add_right _ _
  | case3 => cases h
  | case4 fmt sp args digits hd hu ih =>
    have hle := List.count_le_count_cons (a := ch '%') (b := ch 'u') (l := fmt)
    rw [List.count_cons_self]
    have := ih h
    omega
  | case5 => cases h
  | case6 fmt sp args digits hd ih =>
    have hle := List.count_le_count_cons (a := ch '%') (b := ch 'u') (l := fmt)
    have hlen := ih h
    rw [List.length_append, List.length_singleton] at hlen
    rw [List.count_cons_self]
    omega
  | case7 c fmt sp args hc ih =>
    have hle := List.count_le_count_cons (a := ch '%') (b := c) (l := fmt)
    have hlen := ih h
    rw [List.count_cons_self]
    omega
  | case8 c fmt sp args hp ih =>
    have hle := List.count_le_count_cons (a := ch '%') (b := peek sp) (l := c :: fmt)
    have hlen := ih h
    omega
  | case9 => cases h

theorem ksscanf_csi (fmt l : List Byte) : ksscanf (CSI ++ fmt) (CSI ++ l) [] = ksscanf fmt l [] := by
  rw [CSI]
  simp only [List.cons_append, List.nil_append]
  rw [ksscanf_literal (by decide), if_pos rfl, ksscanf_literal (by decide), if_pos rfl]

variable (c rest) in
theorem onOne_number (letter : Char) (ds : Digits)
    (hc : isdigit c = false) (act : Word → α) :
    onOne (oneNumber letter) (CSI ++ (ds.list ++ c :: rest)) act =
      if c = ch letter then some (act ds.value, rest) else none := by
  have hs : ksscanf (oneNumber letter) (CSI ++ (ds.list ++ c :: rest)) [] =
      if ch letter = c then some ([ds.value], rest) else none := by
    rw [oneNumber, ksscanf_csi, ksscanf_digits ds hc]
    rfl
  rw [onOne, hs]
  by_cases h : c = ch letter
  · rw [if_pos h.symm, if_pos h]
  · rw [if_neg fun he => h he.symm, if_neg h]

variable (rest) in
theorem onOne_noNumber (letter : Char) (hl : ch letter ≠ ch '%') (hc : isdigit c = false)
    (act : Word → α) :
    onOne (oneNumber letter) (CSI ++ c :: rest) act = none := by
  have hs : ksscanf (oneNumber letter) (CSI ++ c :: rest) [] =
      if ch 'u' = c then ksscanf [ch letter] rest [] else none := by
    rw [oneNumber, ksscanf_csi, ksscanf_noDigits hc]
  unfold onOne
  split
  · next a out h =>
    rw [hs] at h
    split_ifs at h with hu
    have hlen := ksscanf_length _ _ _ h
    rw [List.count_singleton, if_neg (by simpa using hl)] at hlen
    simp at hlen
  · rfl

/-- Without two numbers the templates for two numbers do not apply. -/
theorem onTwo_none {letter : Char} {l : List Byte} {act : Word → Word → α}
    (h : ∀ args out, ksscanf [ch '%', ch 'u', ch ';', ch '%', ch 'u', ch letter] l [] =
      some (args, out) → args.length ≤ 1) :
    onTwo (twoNumbers letter) (CSI ++ l) act = none := by
  unfold onTwo
  split
  · next a b out hs =>
    have hlen := h _ _ hs
    simp at hlen
  · rfl

variable (rest) in
theorem onTwo_noNumber (letter : Char) (hl : ch letter ≠ ch '%') (hc : isdigit c = false)
    (act : Word → Word → α) :
    onTwo (twoNumbers letter) (CSI ++ c :: rest) act = none := by
  apply onTwo_none
  intro args out hs
  rw [ksscanf_noDigits hc] at hs
  split_ifs at hs with hu
  have hlen := ksscanf_length _ _ _ hs
  have hcount : List.count (ch '%') [ch ';', ch '%', ch 'u', ch letter] = 1 := by
    rw [List.count_cons_of_ne (by decide), List.count_cons_self, List.count_cons_of_ne (by decide),
      List.count_cons_of_ne hl, List.count_nil]
  rw [hcount] at hlen
  simpa using hlen

variable (rest) in
theorem onTwo_oneNumber (letter : Char) (ds : Digits) (hc : isdigit c = false) (h : c ≠ ch ';')
    (act : Word → Word → α) :
    onTwo (twoNumbers letter) (CSI ++ (ds.list ++ c :: rest)) act = none := by
  apply onTwo_none
  intro args out hs
  rw [ksscanf_digits ds hc, ksscanf_literal (by decide), if_neg h.symm] at hs
  cases hs

variable (rest) in
theorem onTwo_noSecond (letter : Char) (hl : ch letter ≠ ch '%') (ds : Digits)
    (hc : isdigit c = false) (act : Word → Word → α) :
    onTwo (twoNumbers letter) (CSI ++ (ds.list ++ ch ';' :: c :: rest)) act = none := by
  apply onTwo_none
  intro args out hs
  rw [ksscanf_digits ds (by decide), ksscanf_literal (by decide), if_pos rfl,
    ksscanf_noDigits hc] at hs
  split_ifs at hs with hu
  have hlen := ksscanf_length _ _ _ hs
  rw [List.count_cons_of_ne hl, List.count_nil] at hlen
  simpa using hlen

variable (c rest) in
theorem onTwo_numbers (letter : Char) (ds es : Digits)
    (hc : isdigit c = false) (act : Word → Word → α) :
    onTwo (twoNumbers letter) (CSI ++ (ds.list ++ ch ';' :: (es.list ++ c :: rest))) act =
      if c = ch letter then some (act ds.value es.value, rest) else none := by
  have hs : ksscanf (twoNumbers letter) (CSI ++ (ds.list ++ ch ';' :: (es.list ++ c :: rest))) [] =
      if ch letter = c then some ([ds.value, es.value], rest) else none := by
    rw [twoNumbers, ksscanf_csi, ksscanf_digits ds (by decide), ksscanf_literal (by decide),
      ksscanf_digits es hc]
    rfl
  rw [onTwo, hs]
  by_cases h : c = ch letter
  · rw [if_pos h.symm, if_pos h]
  · rw [if_neg fun he => h he.symm, if_neg h]

/-- Behind ESC the templates with numbers need a bracket. -/
theorem ksscanf_noBracket (h : c ≠ ch '[') :
    ksscanf (CSI ++ fmt) (ESC :: c :: rest) [] = none := by
  rw [CSI]
  simp only [List.cons_append, List.nil_append]
  rw [ksscanf_literal (by decide), if_pos rfl, ksscanf_literal (by decide), if_neg h.symm]

variable (rest) in
theorem onOne_noBracket (letter : Char) (h : c ≠ ch '[') (act : Word → α) :
    onOne (oneNumber letter) (ESC :: c :: rest) act = none := by
  rw [onOne, oneNumber, ksscanf_noBracket h]

variable (rest) in
theorem onTwo_noBracket (letter : Char) (h : c ≠ ch '[')
    (act : Word → Word → α) :
    onTwo (twoNumbers letter) (ESC :: c :: rest) act = none := by
  rw [onTwo, twoNumbers, ksscanf_noBracket h]

theorem onText_nil (str : List Byte) (act : α) :
    onText str [] act = some (act, str) := rfl

theorem onText_cons (a b : Byte) (str text : List Byte) (act : α) :
    onText (a :: str) (b :: text) act = if a = b then onText str text act else none := by
  have hs : strncmp (a :: str) (b :: text) (text.length + 1) = 0 ↔
      a = b ∧ strncmp str text text.length = 0 := by
    show (if a.toInt < b.toInt then (-1 : Int) else if b.toInt < a.toInt then 1 else
      strncmp str text text.length) = 0 ↔ _
    rw [← BitVec.toInt_inj]
    split_ifs with h1 h2
    · simp
      omega
    · simp
      omega
    · have he : a.toInt = b.toInt := by omega
      simp [he]
  unfold onText
  by_cases h : a = b
  · have hs' := hs.trans (and_iff_right h)
    rw [if_pos h]
    simp [hs']
  · rw [if_neg h, if_neg]
    intro hz
    exact h (hs.mp hz).1

end Templates

section Sequences
variable {α : Type} {c : Byte} {rest : List Byte}

theorem ite_or (q : Prop) [Decidable q] (x : α × List Byte) (y : Handled α) :
    Option.or (if q then some x else none) y = if q then some x else y := by
  by_cases h : q
  · rw [if_pos h, if_pos h]
    rfl
  · rw [if_neg h, if_neg h]
    rfl

theorem escapeToken_escape (h : c ≠ ch '[') : escapeToken (ESC :: c :: rest) =
    if c = ch '=' then some (.ignored, rest)
    else if c = ch '>' then some (.ignored, rest)
    else if c = ch 'M' then some (.scrollDown, rest)
    else if c = ch 'D' then some (.scrollUp, rest) else none := by
  simp [escapeToken, firstOf, onTwo_noBracket _ _ h, onOne_noBracket _ _ h, CSI, onText_cons,
    onText_nil, if_neg h, ite_or]

/-- Behind the bracket a second byte of another sequence does not match. -/
theorem onText_bracket {b : Byte} (h : ch '[' ≠ b) (str : List Byte) (act : α) :
    onText (ESC :: ch '[' :: str) [ESC, b] act = none := by
  rw [onText_cons, if_pos rfl, onText_cons, if_neg h]

theorem onText_csi (str text : List Byte) (act : α) :
    onText (ESC :: ch '[' :: str) (CSI ++ text) act = onText str text act := by
  rfl

theorem escapeToken_bracket (hc : isdigit c = false) : escapeToken (CSI ++ c :: rest) =
    if c = ch 'H' then some (.home, rest)
    else if c = ch 'J' then some (.clearDown, rest)
    else if c = ch 'K' then some (.clearLine, rest)
    else if c = ch 'm' then some (.renditionOff, rest)
    else if c = ch '?' then onText rest [ch '1', ch 'l'] .ignored else none := by
  have htwo := fun letter hl (act : Word → Word → Token) => onTwo_noNumber (c := c) rest letter hl hc act
  have hone := fun letter hl (act : Word → Token) => onOne_noNumber (c := c) rest letter hl hc act
  rw [escapeToken]
  simp (disch := decide) only [htwo, hone]
  rw [show CSI ++ c :: rest = ESC :: ch '[' :: c :: rest from rfl]
  simp (disch := decide) only [onText_csi, onText_bracket, firstOf, List.foldr_cons, List.foldr_nil, onText_cons c, onText_nil, Option.none_or,
    Option.or_none, ite_or]

/-- Behind a digit none of the sequences without numbers matches. -/
theorem onText_digits (ds : Digits) {b : Byte} (hb : isdigit b = false) (str text : List Byte)
    (act : α) : onText (ds.list ++ str) (b :: text) act = none := by
  obtain ⟨d, l, hl⟩ := List.exists_cons_of_ne_nil ds.nonempty
  have hd : isdigit d := ds.digits d (by simp [hl])
  rw [hl, List.cons_append, onText_cons, if_neg]
  intro he
  rw [he, hb] at hd
  cases hd

/-- The templates that are left once a number has been read. -/
theorem escapeToken_digits (ds : Digits) (str : List Byte) :
    escapeToken (CSI ++ (ds.list ++ str)) = firstOf
      [ onTwo (twoNumbers 'H') (CSI ++ (ds.list ++ str)) .position,
        onTwo (twoNumbers 'r') (CSI ++ (ds.list ++ str)) .area,
        onOne (oneNumber 'C') (CSI ++ (ds.list ++ str)) .forward,
        onOne (oneNumber 'J') (CSI ++ (ds.list ++ str)) (fun _ => .clear),
        onOne (oneNumber 'm') (CSI ++ (ds.list ++ str)) .rendition,
        onOne (oneNumber 'A') (CSI ++ (ds.list ++ str)) .up,
        onOne (oneNumber 'B') (CSI ++ (ds.list ++ str)) .down,
        onOne (oneNumber 'C') (CSI ++ (ds.list ++ str)) .forward,
        onOne (oneNumber 'D') (CSI ++ (ds.list ++ str)) .back ] := by
  have htext : ∀ (b : Byte) (text : List Byte) (tok : Token), isdigit b = false →
      onText (CSI ++ (ds.list ++ str)) (CSI ++ (b :: text)) tok = none := by
    intro b text tok hb
    exact onText_digits ds hb _ _ _
  rw [escapeToken]
  simp (disch := decide) only [htext]
  rw [show CSI ++ (ds.list ++ str) = ESC :: ch '[' :: (ds.list ++ str) from rfl]
  simp (disch := decide) only [onText_bracket, firstOf, List.foldr_cons, List.foldr_nil, Option.or_none]

theorem escapeToken_number (ds : Digits) (hc : isdigit c = false) (h : c ≠ ch ';') :
    escapeToken (CSI ++ (ds.list ++ c :: rest)) =
      match numberToken ds.value c with
      | .done tok => some (tok, rest)
      | _ => none := by
  have htwo := fun letter (act : Word → Word → Token) => onTwo_oneNumber rest letter ds hc h act
  have hone := fun letter (act : Word → Token) => onOne_number c rest letter ds hc act
  rw [escapeToken_digits]
  simp (disch := decide) only [htwo, hone, firstOf, List.foldr_cons, List.foldr_nil, Option.none_or, Option.or_none, ite_or]
  unfold numberToken
  split_ifs <;> rfl

theorem escapeToken_separator (ds : Digits) (hc : isdigit c = false) :
    escapeToken (CSI ++ (ds.list ++ ch ';' :: c :: rest)) = none := by
  have htwo := fun letter hl (act : Word → Word → Token) => onTwo_noSecond rest letter hl ds hc act
  have hone := fun letter (act : Word → Token) =>
    onOne_number (ch ';') (c :: rest) letter ds (by decide) act
  rw [escapeToken_digits]
  simp (disch := decide) only [htwo, hone]
  rfl

theorem escapeToken_second (ds es : Digits) (hc : isdigit c = false) :
    escapeToken (CSI ++ (ds.list ++ ch ';' :: (es.list ++ c :: rest))) =
      if c = ch 'H' then some (.position ds.value es.value, rest)
      else if c = ch 'r' then some (.area ds.value es.value, rest) else none := by
  have htwo := fun letter (act : Word → Word → Token) => onTwo_numbers c rest letter ds es hc act
  have hone := fun letter (act : Word → Token) =>
    onOne_number (ch ';') (es.list ++ c :: rest) letter ds (by decide) act
  rw [escapeToken_digits]
  simp (disch := decide) only [htwo, hone]
  rw [firstOf_cons, firstOf_cons, ite_or, ite_or]
  rfl

variable {m : Mode}

variable (rest) in
/-- What the templates make of the byte at which a sequence ends or goes wrong. -/
theorem escapeToken_progress (hm : m ≠ .ground) (hf : ∀ m', m.progress c ≠ .further m') :
    escapeToken (m.bytes ++ c :: rest) =
      match m.progress c with
      | .done tok => some (tok, rest)
      | _ => none := by
  cases m with
  | ground => exact absurd rfl hm
  | escape =>
    have hb : c ≠ ch '[' := fun h => hf .bracket (if_pos h)
    simp only [Mode.progress, if_neg hb]
    show escapeToken (ESC :: c :: rest) = _
    rw [escapeToken_escape hb]
    split_ifs <;> rfl
  | bracket =>
    have hd : isdigit c = false := Bool.eq_false_iff.mpr fun h => hf _ (dif_pos h)
    have hq : c ≠ ch '?' := by
      intro h
      subst h
      exact hf .question rfl
    simp only [Mode.bytes, Mode.progress, hd, Bool.false_eq_true, ↓reduceDIte, if_neg hq]
    rw [escapeToken_bracket hd, if_neg hq]
    split_ifs <;> rfl
  | number ds =>
    have hd : isdigit c = false := Bool.eq_false_iff.mpr fun h => hf _ (dif_pos h)
    have hs : c ≠ ch ';' := by
      intro h
      subst h
      exact hf (.separator ds) rfl
    simp only [Mode.bytes, Mode.progress, hd, Bool.false_eq_true, ↓reduceDIte, if_neg hs]
    rw [List.append_assoc, escapeToken_number ds hd hs]
  | separator ds =>
    have hd : isdigit c = false := Bool.eq_false_iff.mpr fun h => hf _ (dif_pos h)
    simp only [Mode.bytes, Mode.progress, hd, Bool.false_eq_true, ↓reduceDIte]
    rw [List.append_assoc, List.append_assoc, List.singleton_append, escapeToken_separator ds hd]
  | second ds es =>
    have hd : isdigit c = false := Bool.eq_false_iff.mpr fun h => hf _ (dif_pos h)
    simp only [Mode.bytes, Mode.progress, hd, Bool.false_eq_true, ↓reduceDIte]
    rw [List.append_assoc, List.append_assoc, List.append_assoc, List.singleton_append,
      escapeToken_second ds es hd]
    split_ifs <;> rfl
  | question =>
    have h1 : c ≠ ch '1' := fun h => hf .questionOne (if_pos h)
    simp only [Mode.progress, if_neg h1]
    show escapeToken (CSI ++ ch '?' :: c :: rest) = _
    rw [escapeToken_bracket (by decide), onText_cons, if_neg h1]
    rfl
  | questionOne =>
    show escapeToken (CSI ++ ch '?' :: ch '1' :: c :: rest) = _
    rw [escapeToken_bracket (by decide), onText_cons, if_pos rfl, onText_cons, onText_nil]
    simp only [Mode.progress]
    by_cases hl : c = ch 'l'
    · rw [if_pos hl, if_pos hl]
      rfl
    · rw [if_neg hl, if_neg hl]
      rfl

end Sequences

section Lexed
variable {c : Byte} {n : Nat} {p : List Byte} {m m' : Mode}

theorem bytes_further (h : m.progress c = .further m') : m'.bytes = m.bytes ++ [c] := by
  cases m <;> simp only [Mode.progress, numberToken] at h <;> split_ifs at h <;> cases h <;>
    simp_all [Mode.bytes, Digits.one, Digits.more, CSI]

theorem not_mem_digits (ds : Digits) : ESC ∉ ds.list := by
  intro h
  have hd := ds.digits ESC h
  revert hd
  decide

/-- A sequence starts with its only ESC. -/
theorem bytes_eq (hm : m ≠ .ground) : ∃ x, m.bytes = ESC :: x ∧ ESC ∉ x := by
  cases m with
  | ground => exact absurd rfl hm
  | escape => exact ⟨_, rfl, by decide⟩
  | bracket => exact ⟨_, rfl, by decide⟩
  | number ds =>
    refine ⟨ch '[' :: ds.list, rfl, ?_⟩
    rw [List.mem_cons, not_or]
    exact ⟨by decide, not_mem_digits ds⟩
  | separator ds =>
    refine ⟨ch '[' :: (ds.list ++ [ch ';']), rfl, ?_⟩
    rw [List.mem_cons, List.mem_append, not_or, not_or]
    exact ⟨by decide, not_mem_digits ds, by decide⟩
  | second ds es =>
    refine ⟨ch '[' :: (ds.list ++ [ch ';'] ++ es.list), rfl, ?_⟩
    rw [List.mem_cons, List.mem_append, List.mem_append, not_or, not_or, not_or]
    exact ⟨by decide, ⟨not_mem_digits ds, by decide⟩, not_mem_digits es⟩
  | question => exact ⟨_, rfl, by decide⟩
  | questionOne => exact ⟨_, rfl, by decide⟩

/-- A sequence that goes wrong is printed. -/
theorem lexed_mismatch {d : Byte} {r : List Byte} (hm : m ≠ .ground)
    (h : m.progress d = .mismatch) :
    lexed (m.bytes.length + n) (m.bytes ++ d :: r) = m.bytes.map .char ++ lexed n (d :: r) := by
  have hescape := escapeToken_progress r hm
    (fun m' => by rw [h]; exact Progress.noConfusion)
  rw [h] at hescape
  obtain ⟨x, hx, hesc⟩ := bytes_eq hm
  rw [hx, List.cons_append] at hescape ⊢
  rw [List.length_cons, Nat.add_right_comm, lexed_none hescape, lexed_chars hesc]
  rfl

theorem lexed_done {tok : Token} (hm : m ≠ .ground) (h : m.progress c = .done tok) :
    lexed (m.bytes.length + (n + 1)) (m.bytes ++ c :: p) = tok :: lexed n p := by
  have hescape := escapeToken_progress p hm
    (fun m' => by rw [h]; exact Progress.noConfusion)
  rw [h] at hescape
  obtain ⟨x, hx, -⟩ := bytes_eq hm
  rw [hx, List.cons_append] at hescape ⊢
  have hlen : x.length + (n + 1) - ((x ++ c :: p).length - p.length) = n := by
    rw [List.length_append, List.length_cons]
    omega
  rw [List.length_cons, Nat.add_right_comm, lexed_some hescape, hlen]

variable (n p) in
/-- The tokens in memory are those of the reader, as long as its bytes last. -/
theorem lexed_scan (m : Mode) (l : List Byte) :
    lexed (m.bytes.length + (l.length + n)) (m.bytes ++ (l ++ p)) =
      (scan m l).1 ++ lexed ((scan m l).2.bytes.length + n) ((scan m l).2.bytes ++ p) := by
  induction hk : l.length using Nat.strong_induction_on generalizing m l with
  | _ k ih =>
    subst hk
    cases l with
    | nil =>
      rw [List.length_nil, Nat.zero_add]
      rfl
    | cons c l =>
      have hnext := fun m' => ih l.length (Nat.lt_succ_self _) m' l rfl
      have hrest : lexed (l.length + n) (l ++ p) = (scan .ground l).1 ++
          lexed ((scan .ground l).2.bytes.length + n) ((scan .ground l).2.bytes ++ p) := by
        have h := hnext .ground
        rwa [show Mode.ground.bytes = [] from rfl, List.length_nil, Nat.zero_add] at h
      -- a byte at which a sequence goes wrong is looked at again, outside of it
      have hground : lexed ((c :: l).length + n) (c :: l ++ p) = (scan .ground (c :: l)).1 ++
          lexed ((scan .ground (c :: l)).2.bytes.length + n)
            ((scan .ground (c :: l)).2.bytes ++ p) := by
        by_cases hc : c = ESC
        · subst hc
          rw [scan_escape, ← hnext .escape, List.length_cons, Nat.add_right_comm, Nat.add_comm _ 1]
          rfl
        · rw [scan_char l hc, List.length_cons, Nat.add_right_comm, List.cons_append,
            lexed_char hc, hrest]
          rfl
      by_cases hm : m = .ground
      · subst hm
        show lexed (0 + _) _ = _
        rw [Nat.zero_add]
        exact hground
      cases hp : m.progress c with
      | further m' =>
        rw [scan_further l hp, ← hnext m', bytes_further hp, List.length_append, List.length_cons,
          List.append_assoc, Nat.add_right_comm l.length, Nat.add_right_comm m.bytes.length]
        rfl
      | done tok =>
        rw [scan_done l hp, List.length_cons, Nat.add_right_comm, List.cons_append,
          lexed_done hm hp, hrest]
        rfl
      | mismatch =>
        rw [scan_mismatch l hp, List.cons_append, lexed_mismatch hm hp, List.append_assoc, ← hground]
        rfl

end Lexed

end TapiOS.Tty
