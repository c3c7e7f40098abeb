import TapiOS.Terminal.Escape

/-!
# The tokens of terminal output

Where an escape sequence ends and which one it is does not depend on the state of the
terminal. `lexed` is the sequence of characters and escape sequences that `tty_write` finds
in memory, and `tty_write` does one after the other.
-/
namespace TapiOS.Tty

open Lib Util

inductive Token where
  | char (c : Byte)
  | position (row col : Word)
  | area (start stop : Word)
  | forward (n : Word)
  | clear
  | rendition (n : Word)
  | up (n : Word)
  | down (n : Word)
  | back (n : Word)
  | home
  | clearDown
  | clearLine
  | renditionOff
  | ignored
  | scrollDown
  | scrollUp
  deriving DecidableEq

def Token.apply (t : Terminal) : Token → Except Stop Terminal
  | .char c => if c = 0x0F ∨ c = 0x0E then .ok t else t.kprintca c t.bold
  | .position row col => .ok (t.setCursor (uint8 (fromOne row - 1)) (uint8 (fromOne col - 1)))
  | .area start stop => t.setScrollArea (uint8 start) (uint8 stop)
  | .forward n => .ok (t.moveCursor 0 (uint8 n))
  | .clear => .ok t.cls
  | .rendition n =>
    .ok (if n = 1 then { t with bold := true } else if n = 0 then { t with bold := false } else t)
  | .up n => .ok (t.moveCursor (uint8 (-n)) 0)
  | .down n => .ok (t.moveCursor (uint8 n) 0)
  | .back n => .ok (t.moveCursor 0 (uint8 (-n)))
  | .home => .ok (t.setCursor 0 0)
  | .clearDown => .ok t.clsFromCursorDown
  | .clearLine => .ok t.clsFromCursorToEol
  | .renditionOff => .ok { t with bold := false }
  | .ignored => .ok t
  | .scrollDown => t.scroll (-1)
  | .scrollUp => t.scroll 1

/-- The sequence at the pointer, and the pointer behind it. -/
def escapeToken (str : List Byte) : Handled Token := firstOf
  [ onTwo (twoNumbers 'H') str .position,
    onTwo (twoNumbers 'r') str .area,
    onOne (oneNumber 'C') str .forward,
    onOne (oneNumber 'J') str (fun _ => .clear),
    onOne (oneNumber 'm') str .rendition,
    onOne (oneNumber 'A') str .up,
    onOne (oneNumber 'B') str .down,
    onOne (oneNumber 'C') str .forward,
    onOne (oneNumber 'D') str .back,
    onText str (CSI ++ [ch 'H']) .home,
    onText str (CSI ++ [ch 'J']) .clearDown,
    onText str (CSI ++ [ch 'K']) .clearLine,
    onText str (CSI ++ [ch 'm']) .renditionOff,
    onText str (CSI ++ [ch '?', ch '1', ch 'l']) .ignored,
    onText str [ESC, ch '='] .ignored,
    onText str [ESC, ch '>'] .ignored,
    onText str [ESC, ch 'M'] .scrollDown,
    onText str [ESC, ch 'D'] .scrollUp ]

/-- What the loop of tty_write finds in `n` bytes at `p`, and perhaps a few more. -/
def lexed (n : Nat) (p : List Byte) : List Token :=
  match n with
  | 0 => []
  | n + 1 =>
    if peek p = ESC then
      match escapeToken p with
      | some (tok, pp) => tok :: lexed (n - (p.length - pp.length - 1)) pp
      | none => .char ESC :: lexed n p.tail
    else .char (peek p) :: lexed n p.tail
termination_by n

/-- The tokens one after the other. -/
def applyAll (t : Terminal) (toks : List Token) : Except Stop Terminal := toks.foldlM Token.apply t

theorem applyAll_append (t : Terminal) (toks toks' : List Token) :
    applyAll t (toks ++ toks') = applyAll t toks >>= fun t => applyAll t toks' :=
  List.foldlM_append

theorem applyAll_cons (t : Terminal) (tok : Token) (toks : List Token) :
    applyAll t (tok :: toks) = tok.apply t >>= fun t => applyAll t toks := rfl

section Lexed
variable {c : Byte} {n : Nat} {p pp x : List Byte}

theorem lexed_zero (p : List Byte) : lexed 0 p = [] := by
  rw [lexed]

theorem peek_cons (c : Byte) (p : List Byte) : peek (c :: p) = c := rfl

theorem lexed_char (hc : c ≠ ESC) : lexed (n + 1) (c :: p) = .char c :: lexed n p := by
  rw [lexed, peek_cons, if_neg hc]
  rfl

theorem lexed_none (h : escapeToken (ESC :: p) = none) :
    lexed (n + 1) (ESC :: p) = .char ESC :: lexed n p := by
  rw [lexed, h]
  rfl

theorem lexed_some {tok : Token} (h : escapeToken (ESC :: p) = some (tok, pp)) :
    lexed (n + 1) (ESC :: p) = tok :: lexed (n - (p.length - pp.length)) pp := by
  have hlen : (ESC :: p).length - pp.length - 1 = p.length - pp.length := by
    rw [List.length_cons]
    omega
  rw [lexed, peek_cons, if_pos rfl, h]
  dsimp only
  rw [hlen]

theorem lexed_chars (hx : ESC ∉ x) : lexed (x.length + n) (x ++ p) = x.map .char ++ lexed n p := by
  induction x with
  | nil =>
    rw [List.length_nil, Nat.zero_add]
    rfl
  | cons c x ih =>
    rw [List.mem_cons, not_or] at hx
    rw [List.length_cons, Nat.add_right_comm, List.cons_append, lexed_char (Ne.symm hx.1),
      ih hx.2]
    rfl

end Lexed

section Effect
variable {α β : Type} (f : α → β)

/-- Another effect of the same sequence. -/
def Handled.to (x : Handled α) : Handled β := x.map fun r => (f r.1, r.2)

theorem or_to (x y : Handled α) :
    Handled.to f (Option.or x y) = Option.or (Handled.to f x) (Handled.to f y) := by
  cases x with
  | none => rfl
  | some r => rfl

theorem firstOf_to (l : List (Handled α)) :
    Handled.to f (firstOf l) = firstOf (l.map (Handled.to f)) := by
  induction l with
  | nil => rfl
  | cons x l ih => rw [firstOf_cons, or_to, ih, List.map_cons, firstOf_cons]

theorem onTwo_to (fmt str : List Byte) (act : Word → Word → α) :
    Handled.to f (onTwo fmt str act) = onTwo fmt str fun a b => f (act a b) := by
  unfold onTwo
  split
  · rfl
  · rfl

theorem onOne_to (fmt str : List Byte) (act : Word → α) :
    Handled.to f (onOne fmt str act) = onOne fmt str fun a => f (act a) := by
  unfold onOne
  split
  · rfl
  · rfl

theorem onText_to (str text : List Byte) (act : α) :
    Handled.to f (onText str text act) = onText str text (f act) := by
  unfold onText
  split
  · rfl
  · rfl

end Effect

/-- handle_escape does what the sequence it finds is for. -/
theorem handleEscape_eq (t : Terminal) (str : List Byte) :
    handleEscape t str = Handled.to (Token.apply t) (escapeToken str) := by
  unfold escapeToken
  simp only [firstOf_to, List.map_cons, List.map_nil, onTwo_to, onOne_to, onText_to]
  rfl

theorem writeLoop_lexed (t : Terminal) (n : Nat) (p : List Byte) :
    writeLoop t n p = applyAll t (lexed n p) := by
  induction n using Nat.strong_induction_on generalizing t p with
  | _ n ih =>
    cases n with
    | zero =>
      rw [writeLoop, lexed]
      rfl
    | succ n =>
      rw [writeLoop, lexed]
      by_cases hp : peek p = ESC
      · rw [if_pos hp, if_pos hp, handleEscape_eq]
        cases escapeToken p with
        | none =>
          rw [hp]
          show (_ >>= _ : Except Stop Terminal) = (_ >>= _)
          congr 1
          funext t
          exact ih n (Nat.lt_succ_self n) t p.tail
        | some r =>
          dsimp only [Handled.to, Option.map_some]
          congr 1
          funext t
          exact ih _ (by omega) t r.2
      · rw [if_neg hp, if_neg hp, applyAll_cons, Token.apply]
        by_cases hs : peek p = 0x0F ∨ peek p = 0x0E
        · rw [if_pos hs, if_pos hs, ih n (Nat.lt_succ_self n)]
          rfl
        · rw [if_neg hs, if_neg hs]
          congr 1
          funext t
          exact ih n (Nat.lt_succ_self n) t p.tail

end TapiOS.Tty
