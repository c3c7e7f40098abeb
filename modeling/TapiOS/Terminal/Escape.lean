import TapiOS.Lib.Loops
import TapiOS.Terminal.Vga

/-!
# Writing to the terminal, drivers/tty.c

A pointer into memory is the list of bytes from there on; behind the list memory holds
zeros. `tty_write` does not tell `handle_escape` where its buffer ends, so the templates
are matched against whatever follows.
-/
namespace TapiOS.Tty

open Lib Util

def ch (c : Char) : Byte := BitVec.ofNat 8 c.toNat

def ESC : Byte := 0x1B

/-- `*p` -/
def peek (p : List Byte) : Byte := p.headD 0

def isdigit (c : Byte) : Bool := 48 ≤ c && c ≤ 57

/-- The second loop of katoi, with the powers of ten by repeated multiplication. -/
def katoiSum : List Byte → Word
  | [] => 0
  | d :: ds => (fun val => val * 10)^[ds.length] ((d - 48).setWidth 32) + katoiSum ds

def katoi (str : List Byte) : Word := if str.all isdigit then katoiSum str else -1

/-- ksscanf: the numbers it has stored and where `*outstr` points to; `none` if it returns 0
because of a mismatch. A `%u` without digits falls through to comparing the `u` itself. -/
def ksscanf : List Byte → List Byte → List Word → Option (List Word × List Byte)
  | [], sp, args => some (args, sp)
  | [p], sp, args => if p = peek sp then some (args, sp.tail) else none
  | p :: c :: fmt, sp, args =>
    if p = ch '%' then
      if c = ch 'u' then
        let digits := sp.takeWhile isdigit
        if digits = [] then
          if c = peek sp then ksscanf fmt sp.tail args else none
        else ksscanf fmt (sp.dropWhile isdigit) (args ++ [katoi digits])
      else ksscanf fmt sp args
    else if p = peek sp then ksscanf (c :: fmt) sp.tail args else none

/-- strncmp; `char` is signed. -/
def strncmp : List Byte → List Byte → Nat → Int
  | _, _, 0 => 0
  | p, pp, n + 1 =>
    if (peek p).toInt < (peek pp).toInt then -1
    else if (peek pp).toInt < (peek p).toInt then 1
    else strncmp p.tail pp.tail n

/-- What an escape sequence does, and the pointer behind it. -/
abbrev Handled (α : Type) := Option (α × List Byte)

section Templates
variable {α : Type} (fmt str : List Byte)

/-- `elems=ksscanf(str, fmt, &outstr, &row, &col); if(elems==2 && outstr)` -/
def onTwo (act : Word → Word → α) : Handled α :=
  match ksscanf fmt str [] with
  | some ([a, b], outstr) => some (act a b, outstr)
  | _ => none

def onOne (act : Word → α) : Handled α :=
  match ksscanf fmt str [] with
  | some ([a], outstr) => some (act a, outstr)
  | _ => none

/-- `if(strncmp(str, text, n) == 0)`, `n` being the length of the text. -/
def onText (text : List Byte) (act : α) : Handled α :=
  if strncmp str text text.length = 0 then some (act, str.drop text.length) else none

/-- The `if`s one after the other: the first one that applies. -/
def firstOf (l : List (Handled α)) : Handled α := l.foldr Option.or none

theorem firstOf_cons (x : Handled α) (l : List (Handled α)) :
    firstOf (x :: l) = Option.or x (firstOf l) := rfl

end Templates

/-- ESC and an opening bracket. -/
def CSI : List Byte := [ESC, ch '[']

/-- `\033[%u` and a letter. -/
def oneNumber (letter : Char) : List Byte := CSI ++ [ch '%', ch 'u', ch letter]

/-- `\033[%u;%u` and a letter. -/
def twoNumbers (letter : Char) : List Byte :=
  CSI ++ [ch '%', ch 'u', ch ';', ch '%', ch 'u', ch letter]

/-- An argument of type uint8_t. -/
def uint8 (x : Word) : Byte := x.setWidth 8

/-- `if(row == 0) row++;` -/
def fromOne (x : Word) : Word := if x = 0 then x + 1 else x

/-- handle_escape; `none` if it returns its argument. -/
def handleEscape (t : Terminal) (str : List Byte) : Handled (Except Stop Terminal) := firstOf
  [ onTwo (twoNumbers 'H') str (fun row col =>
      .ok (t.setCursor (uint8 (fromOne row - 1)) (uint8 (fromOne col - 1)))),
    onTwo (twoNumbers 'r') str (fun row col => t.setScrollArea (uint8 row) (uint8 col)),
    onOne (oneNumber 'C') str (fun col => .ok (t.moveCursor 0 (uint8 col))),
    onOne (oneNumber 'J') str (fun _ => .ok t.cls),
    onOne (oneNumber 'm') str (fun col =>
      .ok (if col = 1 then { t with bold := true }
        else if col = 0 then { t with bold := false } else t)),
    onOne (oneNumber 'A') str (fun col => .ok (t.moveCursor (uint8 (-col)) 0)),
    onOne (oneNumber 'B') str (fun col => .ok (t.moveCursor (uint8 col) 0)),
    onOne (oneNumber 'C') str (fun col => .ok (t.moveCursor 0 (uint8 col))),
    onOne (oneNumber 'D') str (fun col => .ok (t.moveCursor 0 (uint8 (-col)))),
    onText str (CSI ++ [ch 'H']) (.ok (t.setCursor 0 0)),
    onText str (CSI ++ [ch 'J']) (.ok t.clsFromCursorDown),
    onText str (CSI ++ [ch 'K']) (.ok t.clsFromCursorToEol),
    onText str (CSI ++ [ch 'm']) (.ok { t with bold := false }),
    onText str (CSI ++ [ch '?', ch '1', ch 'l']) (.ok t),
    onText str [ESC, ch '='] (.ok t),
    onText str [ESC, ch '>'] (.ok t),
    onText str [ESC, ch 'M'] (t.scroll (-1)),
    onText str [ESC, ch 'D'] (t.scroll 1) ]

/-- The loop of tty_write: `n` is `count - i`, and `p` the pointer. -/
def writeLoop (t : Terminal) (n : Nat) (p : List Byte) : Except Stop Terminal :=
  match n with
  | 0 => .ok t
  | n + 1 =>
    if peek p = ESC then
      match handleEscape t p with
      | some (r, pp) => do
        let t ← r
        writeLoop t (n - (p.length - pp.length - 1)) pp
      | none => do
        let t ← t.kprintca (peek p) t.bold
        writeLoop t n p.tail
    else if peek p = 0x0F ∨ peek p = 0x0E then writeLoop t n p.tail
    else do
      let t ← t.kprintca (peek p) t.bold
      writeLoop t n p.tail
termination_by n

/-- tty_write of the first `count` bytes at `data`. -/
def ttyWrite (t : Terminal) (data : List Byte) (count : Nat) : Except Stop Terminal := do
  let t ← writeLoop t count data
  return t.updateCursor

end TapiOS.Tty
