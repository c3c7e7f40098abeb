import TapiOS.Terminal.Tokens

/-!
# Plain text on a scrolling terminal

`Grid` is a terminal of 25 rows and 80 columns with a scroll area, as one would specify
it. `Shows` relates it to the flat buffer with its column in bytes. Text without escape
sequences and shift codes keeps the relation.
-/
namespace TapiOS.Tty

open Lib Util
open BitVec (ofNat eq_of_toNat_eq toNat_add)

/-- A character and its attribute. -/
structure Cell where
  char : Byte
  color : Byte
  deriving DecidableEq

def Cell.blank : Cell := ⟨0x20, 0x07⟩

structure Grid where
  cell : Fin 25 → Fin 80 → Cell
  row : Fin 25
  col : Fin 80

namespace Grid
variable (first last : Fin 25) (color : Byte)

/-- Rows `first` to `last` one up, `last` blank. -/
def scrollUp (g : Grid) : Grid :=
  { g with cell := fun r c =>
      if h : first ≤ r ∧ r < last then g.cell ⟨r.val + 1, by omega⟩ c
      else if r = last then .blank
      else g.cell r c }

/-- Column 0 of the next row, which is scrolled in if the area ends here. -/
def lineFeed (g : Grid) : Grid :=
  if h : g.row < last then { g with row := ⟨g.row.val + 1, by omega⟩, col := 0 }
  else { g.scrollUp first last with row := last, col := 0 }

def place (g : Grid) (c : Byte) : Grid :=
  { g with cell := fun r x => if r = g.row ∧ x = g.col then ⟨c, color⟩ else g.cell r x }

def put (g : Grid) (c : Byte) : Grid :=
  if c ≤ 7 ∨ 127 < c then g
  else if c = 8 then { g with col := ⟨g.col.val - 1, by omega⟩ }
  else if c = 10 then g.lineFeed first last
  else if c = 13 then { g with col := 0 }
  else if h : g.col.val + 1 < 80 then { g.place color c with col := ⟨g.col.val + 1, h⟩ }
  else (g.place color c).lineFeed first last

end Grid

namespace Video

/-- The byte at a distance from `video`. -/
def peek (v : Video) (off : Nat) : Byte := v.mem (ofNat 32 off)

section Peek
variable {v : Video} {a : Nat}

theorem peek_poke (ha : a < 2 ^ 32) {off : Nat} (ho : off < 2 ^ 32) (b : Byte) :
    (v.poke off b).peek a = if a = off then b else v.peek a := by
  unfold poke peek Mem.set
  dsimp only
  by_cases h : a = off
  · rw [if_pos h, if_pos (by rw [h])]
  · rw [if_neg h, if_neg]
    intro he
    have hn := congrArg BitVec.toNat he
    rw [toNat_ofNat_of_lt ha, toNat_ofNat_of_lt ho] at hn
    exact h hn

theorem peek_put (ha : a < 2 ^ 32) {y x : Nat} (hy : y < 256) (hx : x < 256) (c color : Byte) :
    (v.put y x c color).peek a =
      if a = y * 160 + x + 1 then color else if a = y * 160 + x then c else v.peek a := by
  rw [put, peek_poke ha (by omega), peek_poke ha (by omega)]

theorem peek_blankRow (ha : a < 2 ^ 32) {y x : Nat} (hy : y < 256) (hx : x % 2 = 0) :
    (v.blankRow y x).peek a =
      if y * 160 + x ≤ a ∧ a < y * 160 + 160 then if a % 2 = 0 then 0x20 else 0x07
      else v.peek a := by
  unfold blankRow
  induction hk : (161 - x) / 2 generalizing x v with
  | zero =>
    rw [if_neg (by omega)]
    rfl
  | succ k ih =>
    rw [List.range'_succ, List.foldl_cons, ih (x := x + 2) (by omega) (by omega),
      peek_put ha hy (by omega)]
    by_cases h1 : y * 160 + (x + 2) ≤ a ∧ a < y * 160 + 160
    · have hin : y * 160 + x ≤ a ∧ a < y * 160 + 160 := by omega
      rw [if_pos h1, if_pos hin]
    · rw [if_neg h1]
      by_cases h2 : a = y * 160 + x + 1
      · rw [if_pos h2, if_pos (by omega), if_neg (by omega)]
      · rw [if_neg h2]
        by_cases h3 : a = y * 160 + x
        · rw [if_pos h3, if_pos (by omega), if_pos (by omega)]
        · rw [if_neg h3, if_neg (by omega)]

theorem peek_memmove (ha : a < 2 ^ 32) {dst src size : Nat} (hlt : dst < src)
    (hs : src + size < 2 ^ 32) :
    (v.memmove dst src size).peek a =
      if dst ≤ a ∧ a < dst + size then v.peek (a + (src - dst)) else v.peek a := by
  have hd : (ofNat 32 dst).toNat = dst := Nat.mod_eq_of_lt (by omega)
  have hsrc : (ofNat 32 src).toNat = src := Nat.mod_eq_of_lt (by omega)
  have hsize : (ofNat 32 size).toNat = size := Nat.mod_eq_of_lt (by omega)
  have haa : (ofNat 32 a).toNat = a := Nat.mod_eq_of_lt ha
  have hlt' : ofNat 32 dst < ofNat 32 src := by
    rw [BitVec.lt_def, hd, hsrc]
    exact hlt
  have hne : ofNat 32 src ≠ ofNat 32 dst := by
    intro he
    rw [he] at hlt'
    exact absurd hlt' (BitVec.lt_irrefl _)
  unfold memmove peek Util.memmove
  dsimp only
  rw [if_neg hne, if_pos hlt', memcpy, hsize]
  have hspec (hd' : (ofNat 32 dst).toNat + (0 + size) ≤ 2 ^ 32)
      (hs' : (ofNat 32 src).toNat + (0 + size) ≤ 2 ^ 32) :=
    copyLoop_spec (m := v.mem) hd' hs' hlt' (ofNat 32 a)
  have h := hspec (by omega) (by omega)
  rw [hd, haa, Nat.add_zero, Nat.zero_add] at h
  rw [h]
  by_cases hin : dst ≤ a ∧ a < dst + size
  · rw [if_pos hin, if_pos hin]
    congr 1
    apply eq_of_toNat_eq
    rw [toNat_add, BitVec.toNat_sub, hd, hsrc, haa, BitVec.toNat_ofNat]
    omega
  · rw [if_neg hin, if_neg hin]

end Peek
end Video

def Terminal.first (t : Terminal) : Fin 25 := ⟨t.scrollBufferStart.toNat, by
  have h := t.ordered
  have h' := t.inside
  rw [BitVec.le_def] at h
  omega⟩

def Terminal.last (t : Terminal) : Fin 25 := ⟨t.scrollBufferEnd.toNat, by
  have h := t.inside
  omega⟩

/-- The buffer shows the cells, and the cursor stands in the same place. -/
structure Shows (t : Terminal) (g : Grid) : Prop where
  cells : ∀ r c, g.cell r c =
    ⟨t.video.peek (r.val * 160 + 2 * c.val), t.video.peek (r.val * 160 + 2 * c.val + 1)⟩
  row : t.row.toNat = g.row.val
  col : t.col.toNat = 2 * g.col.val

/-- What plain text leaves alone: the scroll area, the flag, and memory behind the rows. -/
structure Keeps (t t' : Terminal) : Prop where
  start : t'.scrollBufferStart = t.scrollBufferStart
  stop : t'.scrollBufferEnd = t.scrollBufferEnd
  bold : t'.bold = t.bold
  below : ∀ a, 4000 ≤ a → a < 2 ^ 32 → t'.video.peek a = t.video.peek a

theorem Keeps.refl (t : Terminal) : Keeps t t := ⟨rfl, rfl, rfl, fun _ _ _ => rfl⟩

section Keeps
variable {t t' t'' : Terminal}

theorem Keeps.trans (h : Keeps t t') (h' : Keeps t' t'') : Keeps t t'' :=
  ⟨h'.start.trans h.start, h'.stop.trans h.stop, h'.bold.trans h.bold,
    fun a ha hb => (h'.below a ha hb).trans (h.below a ha hb)⟩

theorem Keeps.first (h : Keeps t t') : t'.first = t.first := Fin.ext (by
  show t'.scrollBufferStart.toNat = _
  rw [h.start]
  rfl)

theorem Keeps.last (h : Keeps t t') : t'.last = t.last := Fin.ext (by
  show t'.scrollBufferEnd.toNat = _
  rw [h.stop]
  rfl)

end Keeps

section Step
variable {t : Terminal} {g : Grid}

/-- scroll(1): every row of the area but the last gets the one below it. -/
theorem scroll_one (t : Terminal) : ∃ v, t.scroll 1 = .ok { t with video := v } ∧
    ∀ a < 2 ^ 32, v.peek a =
      if t.first.val * 160 ≤ a ∧ a < t.last.val * 160 then t.video.peek (a + 160)
      else t.video.peek a := by
  have hfirst : t.scrollBufferStart.toNat = t.first.val := rfl
  have hlast : t.scrollBufferEnd.toNat = t.last.val := rfl
  have hone : (1 : Int).natAbs = 1 := rfl
  unfold Terminal.scroll
  dsimp only
  rw [hone, Nat.min_eq_left (by omega), if_neg (by omega)]
  refine ⟨_, rfl, ?_⟩
  intro a ha
  rw [Video.peek_memmove ha (by omega) (by omega), Nat.add_sub_cancel_left]
  by_cases h : t.first.val * 160 ≤ a ∧ a < t.last.val * 160
  · rw [if_pos h, if_pos (by omega)]
  · rw [if_neg h, if_neg (by omega)]

/-- Byte `k` of row `r` after scrolling: row `last` blank, the rows of the area one up. -/
theorem peek_scrolled {v w : Video} {first last r k : Nat} (hl : last < 25) (hr : r < 25)
    (hk : k < 160) (hw : ∀ a < 2 ^ 32, w.peek a =
      if first * 160 ≤ a ∧ a < last * 160 then v.peek (a + 160) else v.peek a) :
    (w.blankRow last 0).peek (r * 160 + k) =
      if first ≤ r ∧ r < last then v.peek ((r + 1) * 160 + k)
      else if r = last then if k % 2 = 0 then 0x20 else 0x07
      else v.peek (r * 160 + k) := by
  rw [Video.peek_blankRow (by omega) (by omega) rfl, hw _ (by omega)]
  by_cases hin : first ≤ r ∧ r < last
  · rw [if_neg (by omega), if_pos (by omega), if_pos hin]
    congr 1
    omega
  · rw [if_neg hin]
    by_cases he : r = last
    · have hpar : (r * 160 + k) % 2 = k % 2 := by omega
      rw [if_pos he, if_pos (by omega), hpar]
    · rw [if_neg he, if_neg (by omega), if_neg (by omega)]

theorem cells_scrolled {v w : Video} {first last : Fin 25} (h : ∀ r c, g.cell r c =
      ⟨v.peek (r.val * 160 + 2 * c.val), v.peek (r.val * 160 + 2 * c.val + 1)⟩)
    (hw : ∀ a < 2 ^ 32, w.peek a =
      if first.val * 160 ≤ a ∧ a < last.val * 160 then v.peek (a + 160) else v.peek a)
    (r : Fin 25) (c : Fin 80) : (g.scrollUp first last).cell r c =
      ⟨(w.blankRow last.val 0).peek (r.val * 160 + 2 * c.val),
        (w.blankRow last.val 0).peek (r.val * 160 + 2 * c.val + 1)⟩ := by
  have hpeek := fun k hk => peek_scrolled (k := k) last.isLt r.isLt hk hw
  rw [hpeek _ (by omega), Nat.add_assoc _ _ 1, hpeek _ (by omega)]
  show (if h : first ≤ r ∧ r < last then _ else if r = last then _ else _) = _
  by_cases hin : first ≤ r ∧ r < last
  · have hin' : first.val ≤ r.val ∧ r.val < last.val := hin
    rw [dif_pos hin, if_pos hin', if_pos hin', h]
    rfl
  · have hin' : ¬ (first.val ≤ r.val ∧ r.val < last.val) := hin
    rw [dif_neg hin, if_neg hin', if_neg hin']
    by_cases he : r = last
    · have he' : r.val = last.val := congrArg Fin.val he
      rw [if_pos he, if_pos he', if_pos he', if_pos (by omega), if_neg (by omega)]
      rfl
    · have he' : r.val ≠ last.val := fun h => he (Fin.ext h)
      rw [if_neg he, if_neg he', if_neg he', h]
      rfl

theorem clsFromCursorToEol_video {x : Nat} (hx : t.col.toNat = x) :
    t.clsFromCursorToEol.video = t.video.blankRow t.row.toNat x := by
  rw [← hx]
  rfl

variable (h : Shows t g)
include h

theorem lineFeed_shows :
    ∃ t', t.newline.scrollIntoArea = .ok t' ∧ Shows t' (g.lineFeed t.first t.last) ∧
      Keeps t t' ∧ t'.row ≤ t'.scrollBufferEnd := by
  have hnext : (t.row + 1).toNat = g.row.val + 1 := by
    rw [toNat_add, h.row]
    show (g.row.val + 1) % 256 = _
    omega
  unfold Terminal.scrollIntoArea Grid.lineFeed
  by_cases hlt : g.row < t.last
  · have hin : ¬ t.newline.scrollBufferEnd < t.newline.row := by
      show ¬ t.last.val < (t.row + 1).toNat
      omega
    rw [if_neg hin, dif_pos hlt]
    refine ⟨_, rfl, ⟨h.cells, hnext, rfl⟩, ⟨rfl, rfl, rfl, fun _ _ _ => rfl⟩, ?_⟩
    show (t.row + 1).toNat ≤ t.last.val
    omega
  · have hout : t.newline.scrollBufferEnd < t.newline.row := by
      show t.last.val < (t.row + 1).toNat
      omega
    rw [if_pos hout, dif_neg hlt]
    obtain ⟨w, hscroll, hw⟩ := scroll_one { t.newline with row := t.newline.scrollBufferEnd }
    have hw' : ∀ a < 2 ^ 32, w.peek a =
        if t.first.val * 160 ≤ a ∧ a < t.last.val * 160 then t.video.peek (a + 160)
        else t.video.peek a := hw
    rw [hscroll]
    have hvideo := clsFromCursorToEol_video (x := 0)
      (t := { t.newline with row := t.newline.scrollBufferEnd, video := w }) rfl
    refine ⟨_, rfl, ⟨?_, rfl, rfl⟩, ⟨rfl, rfl, rfl, ?_⟩, BitVec.le_refl _⟩
    · intro r c
      rw [hvideo]
      exact cells_scrolled h.cells hw' r c
    · intro a ha hb
      rw [hvideo]
      show (w.blankRow t.last.val 0).peek a = _
      rw [Video.peek_blankRow hb (by omega) rfl, if_neg (by omega), hw' a hb, if_neg (by omega)]

theorem cells_placed (c color : Byte) (r : Fin 25) (x : Fin 80) :
    (g.place color c).cell r x =
      ⟨(t.video.put t.row.toNat t.col.toNat c color).peek (r.val * 160 + 2 * x.val),
        (t.video.put t.row.toNat t.col.toNat c color).peek (r.val * 160 + 2 * x.val + 1)⟩ := by
  rw [h.row, h.col, Video.peek_put (by omega) (by omega) (by omega),
    Video.peek_put (by omega) (by omega) (by omega)]
  show (if r = g.row ∧ x = g.col then _ else _) = _
  by_cases he : r = g.row ∧ x = g.col
  · rw [if_pos he, he.1, he.2, if_neg (by omega), if_pos rfl, if_pos rfl]
  · rw [if_neg he, if_neg (by omega), if_neg (by omega), if_neg (by omega), if_neg (by omega),
      h.cells]

theorem put_below (c color : Byte) {a : Nat} (ha : 4000 ≤ a) (hb : a < 2 ^ 32) :
    (t.video.put t.row.toNat t.col.toNat c color).peek a = t.video.peek a := by
  rw [h.row, h.col, Video.peek_put hb (by omega) (by omega), if_neg (by omega), if_neg (by omega)]

omit h in
theorem scrollIntoArea_of_le (h : t.row ≤ t.scrollBufferEnd) : t.scrollIntoArea = .ok t := by
  rw [Terminal.scrollIntoArea, if_neg]
  exact Nat.not_lt.mpr h

omit h in
theorem ignored_iff (c : Byte) : c.toInt ≤ 7 ↔ c ≤ 7 ∨ 127 < c := by
  have h7 : (7 : Byte).toNat = 7 := rfl
  have h127 : (127 : Byte).toNat = 127 := rfl
  rw [BitVec.toInt_eq_toNat_cond, BitVec.le_def, BitVec.lt_def, h7, h127]
  split_ifs <;> omega

theorem back_shows (hcol : 0 < t.col) :
    Shows (t.moveCursor 0 (-1)) { g with col := ⟨g.col.val - 1, by omega⟩ } ∧
      Keeps t (t.moveCursor 0 (-1)) ∧ (t.moveCursor 0 (-1)).row = t.row := by
  have hpos : 0 < t.col.toNat := hcol
  have hnew : (t.col + (-1) * 2).toNat = 2 * (g.col.val - 1) := by
    rw [toNat_add, h.col]
    show (2 * g.col.val + 254) % 256 = _
    have := h.col
    omega
  have hin : ¬ 160 < t.col + (-1) * 2 := by
    rw [BitVec.lt_def]
    show ¬ 160 < _
    omega
  have hrow : t.row + 0 = t.row := BitVec.add_zero _
  unfold Terminal.moveCursor
  rw [if_neg hin]
  refine ⟨⟨h.cells, ?_, hnew⟩, ⟨rfl, rfl, rfl, fun _ _ _ => rfl⟩, hrow⟩
  rw [hrow, h.row]

variable (hrow : t.row ≤ t.scrollBufferEnd)
include hrow

theorem place_shows (c color : Byte) :
    ∃ t', (t.place c color).scrollIntoArea = .ok t' ∧
      Shows t' (if h : g.col.val + 1 < 80 then { g.place color c with col := ⟨g.col.val + 1, h⟩ }
        else (g.place color c).lineFeed t.first t.last) ∧
      Keeps t t' ∧ t'.row ≤ t'.scrollBufferEnd := by
  have hnew : (t.col + 2).toNat = 2 * (g.col.val + 1) := by
    rw [toNat_add, h.col]
    show (2 * g.col.val + 2) % 256 = _
    omega
  have hvideo : Keeps t { t with video := t.video.put t.row.toNat t.col.toNat c color } :=
    ⟨rfl, rfl, rfl, fun a ha hb => put_below h c color ha hb⟩
  unfold Terminal.place
  by_cases hc : g.col.val + 1 < 80
  · have hin : ¬ 160 ≤ t.col + 2 := by
      rw [BitVec.le_def]
      show ¬ 160 ≤ _
      omega
    rw [if_neg hin, dif_pos hc]
    exact ⟨_, scrollIntoArea_of_le hrow, ⟨cells_placed h c color, h.row, hnew⟩,
      ⟨rfl, rfl, rfl, hvideo.below⟩, hrow⟩
  · have hout : 160 ≤ t.col + 2 := by
      rw [BitVec.le_def]
      show 160 ≤ _
      omega
    rw [if_pos hout, dif_neg hc]
    -- the new line does not look at the column
    have hplaced : Shows { t with video := t.video.put t.row.toNat t.col.toNat c color }
        (g.place color c) := ⟨cells_placed h c color, h.row, h.col⟩
    obtain ⟨t', ht, hs, hk, hle⟩ := lineFeed_shows hplaced
    exact ⟨t', ht, hs, hvideo.trans hk, hle⟩

theorem printchar_shows (c color : Byte) (bold : Bool) : ∃ t', t.printchar c color bold = .ok t' ∧
      Shows t' (g.put t.first t.last (if bold then 0x09 else color) c) ∧ Keeps t t' ∧
      t'.row ≤ t'.scrollBufferEnd := by
  unfold Terminal.printchar Grid.put
  by_cases h7 : c.toInt ≤ 7
  · rw [if_pos h7, if_pos ((ignored_iff c).mp h7)]
    exact ⟨t, rfl, h, .refl t, hrow⟩
  rw [if_neg h7, if_neg (mt (ignored_iff c).mpr h7)]
  by_cases h8 : c = 8
  · rw [if_pos h8, if_pos h8]
    by_cases hcol : 0 < t.col
    · obtain ⟨hs, hk, hr⟩ := back_shows h hcol
      rw [if_pos hcol]
      exact ⟨_, rfl, hs, hk, by rw [hr, hk.stop]; exact hrow⟩
    · have hz : t.col.toNat = 0 := Nat.eq_zero_of_not_pos hcol
      have hc := h.col
      rw [if_neg hcol]
      refine ⟨t, rfl, ⟨h.cells, h.row, ?_⟩, .refl t, hrow⟩
      show t.col.toNat = 2 * (g.col.val - 1)
      omega
  rw [if_neg h8, if_neg h8]
  by_cases h10 : c = 10
  · rw [if_pos h10, if_pos h10]
    exact lineFeed_shows h
  rw [if_neg h10, if_neg h10]
  by_cases h13 : c = 13
  · rw [if_pos h13, if_pos h13]
    exact ⟨_, scrollIntoArea_of_le hrow, ⟨h.cells, h.row, rfl⟩, ⟨rfl, rfl, rfl, fun _ _ _ => rfl⟩,
      hrow⟩
  rw [if_neg h13, if_neg h13]
  exact place_shows h hrow c _

theorem applyAll_shows {text : List Byte}
    (htext : ∀ c ∈ text, c ≠ 0x0F ∧ c ≠ 0x0E) : ∃ t', applyAll t (text.map .char) = .ok t' ∧
      Shows t' (text.foldl (Grid.put t.first t.last (if t.bold then 0x09 else 0x07)) g) ∧
      Keeps t t' := by
  induction text generalizing t g with
  | nil => exact ⟨t, rfl, h, .refl t⟩
  | cons c text ih =>
    obtain ⟨hc, htext⟩ := List.forall_mem_cons.mp htext
    obtain ⟨t', ht, hs, hk, hle⟩ := printchar_shows h hrow c 0x07 t.bold
    obtain ⟨t'', ht', hs', hk'⟩ := ih hs hle htext
    rw [hk.first, hk.last, hk.bold] at hs'
    refine ⟨t'', ?_, hs', hk.trans hk'⟩
    rw [List.map_cons, applyAll_cons, Token.apply, if_neg (not_or.mpr hc), Terminal.kprintca, ht,
      ok_bind, ht']

end Step

/-- What the buffer and the cursor show, for a cursor in the scroll area or above it. -/
def Terminal.grid (t : Terminal) (hrow : t.row ≤ t.scrollBufferEnd) (hcol : t.col < 160) : Grid where
  cell r c := ⟨t.video.peek (r.val * 160 + 2 * c.val), t.video.peek (r.val * 160 + 2 * c.val + 1)⟩
  row := ⟨t.row.toNat, Nat.lt_succ_of_le (Nat.le_trans hrow t.inside)⟩
  col := ⟨t.col.toNat / 2, Nat.div_lt_of_lt_mul hcol⟩

theorem grid_shows (t : Terminal) (hrow : t.row ≤ t.scrollBufferEnd) (hcol : t.col < 160) :
    Shows t (t.grid hrow hcol) := by
  refine ⟨fun _ _ => rfl, rfl, ?_⟩
  have h := t.even
  show t.col.toNat = 2 * (t.col.toNat / 2)
  omega

/-- Plain text: the buffer and the cursor become those of the grid, the cursor of the VGA
controller follows, and nothing else changes. -/
theorem plain_text_refines (t : Terminal) (text rest : List Byte)
    (hrow : t.row ≤ t.scrollBufferEnd) (hcol : t.col < 160)
    (htext : ∀ c ∈ text, c ≠ ESC ∧ c ≠ 0x0E ∧ c ≠ 0x0F) :
    ∃ t', ttyWrite t (text ++ rest) text.length = .ok t' ∧
      Shows t' (text.foldl (Grid.put t.first t.last (if t.bold then 0x09 else 0x07))
        (t.grid hrow hcol)) ∧
      Keeps t t' ∧ t'.pos = t'.row.setWidth 16 * 80 + (t'.col / 2).setWidth 16 := by
  obtain ⟨t', ht, hs, hk⟩ := applyAll_shows (grid_shows t hrow hcol) hrow
    fun c hc => (htext c hc).2.symm
  have hlexed := lexed_chars (n := 0) (p := rest) (x := text) (fun hm => (htext ESC hm).1 rfl)
  rw [lexed_zero, List.append_nil, Nat.add_zero] at hlexed
  refine ⟨t'.updateCursor, ?_, ?_⟩
  · rw [ttyWrite, writeLoop_lexed, hlexed, ht, ok_bind]
    rfl
  · rw [Terminal.updateCursor_eq]
    exact ⟨⟨hs.cells, hs.row, hs.col⟩, ⟨hk.start, hk.stop, hk.bold, hk.below⟩, rfl⟩

/-- A cleared screen whose scroll area is row 3 alone, with the cursor at its end. -/
def oneRowArea : Terminal where
  video := ⟨fun _ => 0x20, false⟩
  row := 3
  col := 158
  scrollBufferStart := 3
  scrollBufferEnd := 3
  pos := 0
  bold := false
  even := rfl
  ordered := BitVec.le_refl _
  inside := by decide

/-- Wrapping and scrolling at once: the row is blank again and the cursor at its start. -/
theorem plain_text_wraps : ∃ t', ttyWrite oneRowArea [0x41] 1 = .ok t' ∧
    Shows t' ([0x41].foldl (Grid.put 3 3 0x07) (oneRowArea.grid (by decide) (by decide))) ∧
    t'.row = 3 ∧ t'.col = 0 := by
  obtain ⟨t', ht, hs, -, -⟩ := plain_text_refines oneRowArea [0x41] [] (by decide) (by decide)
    (by decide)
  refine ⟨t', ht, hs, eq_of_toNat_eq ?_, eq_of_toNat_eq ?_⟩
  · rw [hs.row]
    rfl
  · rw [hs.col]
    rfl

end TapiOS.Tty
