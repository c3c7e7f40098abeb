import Mathlib.Data.List.Range
import TapiOS.Util.Memory

/-!
# The text screen, terminal/vga.c

`Video` is the memory from the pointer `video` on. `Terminal` holds the static variables
of vga.c and the flag `bold` of tty.c. The column counts bytes, two for each character, so
it is even; the scroll area is a range of the 25 rows.
-/
namespace TapiOS.Tty

open Util

structure Video where
  mem : Mem
  /-- Some store went behind the 32 KiB of the text buffer. -/
  outside : Bool

namespace Video

def bufferSize : Nat := 0x8000

/-- `*(video + off) = v` -/
def poke (v : Video) (off : Nat) (b : Byte) : Video :=
  { mem := v.mem.set (BitVec.ofNat 32 off) b, outside := v.outside || decide (bufferSize ≤ off) }

def put (v : Video) (y x : Nat) (c color : Byte) : Video :=
  (v.poke (y * 160 + x) c).poke (y * 160 + x + 1) color

/-- `for(; x<160; x+=2)` over one row. -/
def blankRow (v : Video) (y x : Nat) : Video :=
  (List.range' x ((161 - x) / 2) 2).foldl (fun v x => v.put y x 0x20 0x07) v

/-- `for(; y<50; ++y)` -/
def blankRows (v : Video) (y x : Nat) : Video :=
  (List.range' y (50 - y)).foldl (fun v y => v.blankRow y x) v

/-- memmove inside the buffer; the downward loop stores to `dst[size]` and not to `dst[0]`. -/
def memmove (v : Video) (dst src size : Nat) : Video where
  mem := Util.memmove v.mem (BitVec.ofNat 32 dst) (BitVec.ofNat 32 src) (BitVec.ofNat 32 size)
  outside := v.outside || decide (bufferSize < dst + size + if src < dst then 1 else 0)

end Video

theorem even_zero : (0 : Byte).toNat % 2 = 0 := rfl

theorem even_double (x : Byte) : (x * 2).toNat % 2 = 0 := by
  show x.toNat * 2 % 256 % 2 = 0
  omega

theorem even_add {x y : Byte} (hx : x.toNat % 2 = 0) (hy : y.toNat % 2 = 0) :
    (x + y).toNat % 2 = 0 := by
  rw [BitVec.toNat_add]
  omega

theorem even_mod {x : Byte} (hx : x.toNat % 2 = 0) : (x % 160).toNat % 2 = 0 := by
  show x.toNat % 160 % 2 = 0
  omega

structure Terminal where
  video : Video
  row : Byte
  col : Byte
  scrollBufferStart : Byte
  scrollBufferEnd : Byte
  /-- The position in the registers of the VGA controller. -/
  pos : BitVec 16
  bold : Bool
  even : col.toNat % 2 = 0
  ordered : scrollBufferStart ≤ scrollBufferEnd
  inside : scrollBufferEnd.toNat ≤ 24

/-- PANIC -/
inductive Stop where
  | panic
  deriving DecidableEq

namespace Terminal

def moveCursor (t : Terminal) (rows cols : Byte) : Terminal :=
  let pos := t.row.setWidth 16 * 80 + rows.setWidth 16 * 80 + t.col.setWidth 16 +
    cols.setWidth 16 * 2
  let row := t.row + rows
  let col := t.col + cols * 2
  have hcol := even_add t.even (even_double cols)
  if 160 < col then { t with pos := pos, row := row + 1, col := col % 160, even := even_mod hcol }
  else { t with pos := pos, row := row, col := col, even := hcol }

def setCursor (t : Terminal) (newrow newcol : Byte) : Terminal :=
  { t with pos := newrow.setWidth 16 * 80 + newcol.setWidth 16, row := newrow, col := newcol * 2,
           even := even_double newcol }

def cls (t : Terminal) : Terminal :=
  { t with video := t.video.blankRows 0 0, row := 0, col := 0, even := even_zero }

def clsFromCursorDown (t : Terminal) : Terminal :=
  { t with video := t.video.blankRows t.row.toNat t.col.toNat }

def clsFromCursorToEol (t : Terminal) : Terminal :=
  { t with video := t.video.blankRow t.row.toNat t.col.toNat }

def scroll (t : Terminal) (rows : Int) : Except Stop Terminal :=
  let scrollArea := (t.scrollBufferEnd.toNat - t.scrollBufferStart.toNat + 1) * 160
  let amount := min (rows.natAbs * 160) scrollArea
  let bufstart := t.scrollBufferStart.toNat * 160
  if scrollArea < amount then .error .panic
  else if 0 < rows then
    .ok { t with video := t.video.memmove bufstart (bufstart + amount) (scrollArea - amount) }
  else
    .ok { t with video := t.video.memmove (bufstart + amount) bufstart (scrollArea - amount) }

def newline (t : Terminal) : Terminal := { t with row := t.row + 1, col := 0, even := even_zero }

/-- The character at the cursor, and the cursor one further. -/
def place (t : Terminal) (c color : Byte) : Terminal :=
  let t := { t with video := t.video.put t.row.toNat t.col.toNat c color, col := t.col + 2,
                    even := even_add t.even rfl }
  if 160 ≤ t.col then t.newline else t

/-- The end of printchar: below the scroll area it is scrolled. -/
def scrollIntoArea (t : Terminal) : Except Stop Terminal :=
  if t.scrollBufferEnd < t.row then do
    let t ← { t with row := t.scrollBufferEnd }.scroll 1
    return t.clsFromCursorToEol
  else .ok t

/-- printchar; `char` is signed. -/
def printchar (t : Terminal) (c color : Byte) (bold : Bool) : Except Stop Terminal :=
  if c.toInt ≤ 7 then .ok t
  else if c = 8 then .ok (if 0 < t.col then t.moveCursor 0 (-1) else t)
  else if c = 10 then t.newline.scrollIntoArea
  else if c = 13 then { t with col := 0, even := even_zero }.scrollIntoArea
  else (t.place c (if bold then 0x09 else color)).scrollIntoArea

def kprintca (t : Terminal) (c : Byte) (bold : Bool) : Except Stop Terminal :=
  t.printchar c 0x07 bold

def updateCursor (t : Terminal) : Terminal := t.setCursor t.row (t.col / 2)

theorem scrollArea_inside {start stop : Byte} (h : ¬ (stop < start ∨ start = 0 ∨ 25 ≤ stop)) :
    start - 1 ≤ stop - 1 ∧ (stop - 1).toNat ≤ 24 := by
  constructor
  · bv_omega
  · bv_omega

def setScrollArea (t : Terminal) (start stop : Byte) : Except Stop Terminal :=
  if h : stop < start ∨ start = 0 ∨ 25 ≤ stop then .error .panic
  else .ok { t with scrollBufferStart := start - 1, scrollBufferEnd := stop - 1,
                    ordered := (scrollArea_inside h).1, inside := (scrollArea_inside h).2 }

/-- The cursor stays where it is; only the VGA controller is told. -/
theorem updateCursor_eq (t : Terminal) : t.updateCursor =
    { t with pos := t.row.setWidth 16 * 80 + (t.col / 2).setWidth 16 } := by
  have hcol : t.col / 2 * 2 = t.col := by
    apply BitVec.eq_of_toNat_eq
    have h := t.even
    show t.col.toNat / 2 * 2 % 256 = _
    omega
  unfold Terminal.updateCursor Terminal.setCursor
  congr 1

end Terminal
end TapiOS.Tty
