import TapiOS.Terminal.Cuts

/-!
# Output on the screen

A cursor that is on the screen stays there under every character, and every store goes
to the text buffer. Only the sequences with numbers can move the cursor out, since the
numbers are used modulo 256 and compared with nothing. `Token.fits` is what they must be.
-/
namespace TapiOS.Tty

open Lib Util

/-- The cursor is in one of the 25 rows and 80 columns, and nothing was stored outside of the
text buffer. That the column is even and the scroll area in rows 0 to 24 is part of the type. -/
structure OnScreen (t : Terminal) : Prop where
  row : t.row.toNat ≤ 24
  col : t.col.toNat < 160
  video : t.video.outside = false

/-- Behind column 79 the cursor goes to the next row, if there is one. -/
def Terminal.columnFits (t : Terminal) (col : Int) : Prop :=
  col < 160 ∨ 160 < col ∧ t.row.toNat < 24

/-- Sequences that leave the cursor on the screen and do not stop the kernel. -/
def Token.fits (t : Terminal) : Token → Prop
  | .position row col =>
    (fromOne row - 1).toNat % 256 ≤ 24 ∧ 2 * (fromOne col - 1).toNat % 256 < 160
  | .area start stop =>
    1 ≤ start.toNat % 256 ∧ start.toNat % 256 ≤ stop.toNat % 256 ∧ stop.toNat % 256 ≤ 24
  | .forward n => t.columnFits ((t.col.toNat + 2 * n.toNat : Int) % 256)
  | .back n => t.columnFits ((t.col.toNat - 2 * n.toNat : Int) % 256)
  | .up n => (t.row.toNat - n.toNat : Int) % 256 ≤ 24
  | .down n => (t.row.toNat + n.toNat : Int) % 256 ≤ 24
  | _ => True

section Stores
variable {v : Video}

theorem put_outside {y x : Nat} (h : y * 160 + x < 8000) (c color : Byte) :
    (v.put y x c color).outside = v.outside := by
  unfold Video.put Video.poke Video.bufferSize
  rw [decide_eq_false (by omega), decide_eq_false (by omega), Bool.or_false, Bool.or_false]

theorem blankRow_outside {y : Nat} (x : Nat) (hy : y < 50) :
    (v.blankRow y x).outside = v.outside := by
  unfold Video.blankRow
  induction hk : (161 - x) / 2 generalizing x v with
  | zero => rfl
  | succ k ih =>
    rw [List.range'_succ, List.foldl_cons, ih (x + 2) (by omega), put_outside (by omega)]

theorem blankRows_outside (y x : Nat) : (v.blankRows y x).outside = v.outside := by
  unfold Video.blankRows
  induction hk : 50 - y generalizing y v with
  | zero => rfl
  | succ k ih =>
    rw [List.range'_succ, List.foldl_cons, ih (y + 1) (by omega), blankRow_outside x (by omega)]

end Stores

section Step
variable {t : Terminal}

theorem OnScreen.withVideo {v : Video} (h : OnScreen t) (hv : v.outside = t.video.outside) :
    OnScreen { t with video := v } := ⟨h.row, h.col, hv.trans h.video⟩

/-- Scrolling by one row stays inside the area, but for the byte behind it. -/
theorem scroll_outside (t : Terminal) (rows : Int) (hr : rows.natAbs = 1) :
    ∃ v, t.scroll rows = .ok { t with video := v } ∧ v.outside = t.video.outside := by
  have hin := t.inside
  have hord := BitVec.le_def.mp t.ordered
  unfold Terminal.scroll
  rw [if_neg (Nat.not_lt.mpr (Nat.min_le_right _ _))]
  by_cases h : 0 < rows
  · rw [if_pos h]
    refine ⟨_, rfl, ?_⟩
    unfold Video.memmove Video.bufferSize
    rw [if_neg (by omega), decide_eq_false (by omega), Bool.or_false]
  · rw [if_neg h]
    refine ⟨_, rfl, ?_⟩
    unfold Video.memmove Video.bufferSize
    rw [if_pos (by omega), decide_eq_false (by omega), Bool.or_false]

/-- printchar ends on the screen if it begins its end in row 25 at most. -/
theorem scrollIntoArea_onScreen (hrow : t.row.toNat ≤ 25) (hcol : t.col.toNat < 160)
    (hv : t.video.outside = false) : ∃ t', t.scrollIntoArea = .ok t' ∧ OnScreen t' := by
  have hin := t.inside
  unfold Terminal.scrollIntoArea
  by_cases h : t.scrollBufferEnd < t.row
  · obtain ⟨v, hv', hout⟩ := scroll_outside { t with row := t.scrollBufferEnd } 1 rfl
    rw [if_pos h, hv']
    refine ⟨_, rfl, hin, hcol, ?_⟩
    show (v.blankRow t.scrollBufferEnd.toNat t.col.toNat).outside = false
    rw [blankRow_outside _ (by omega), hout]
    exact hv
  · rw [if_neg h]
    refine ⟨t, rfl, ?_, hcol, hv⟩
    rw [BitVec.lt_def] at h
    omega

theorem newline_onScreen (hrow : t.row.toNat ≤ 24) (hv : t.video.outside = false) :
    ∃ t', t.newline.scrollIntoArea = .ok t' ∧ OnScreen t' := by
  apply scrollIntoArea_onScreen
  · show (t.row.toNat + 1) % 256 ≤ 25
    omega
  · show 0 < 160
    decide
  · exact hv

theorem place_onScreen (h : OnScreen t) (c color : Byte) :
    ∃ t', (t.place c color).scrollIntoArea = .ok t' ∧ OnScreen t' := by
  have hrow := h.row
  have hcol := h.col
  have hv : (t.video.put t.row.toNat t.col.toNat c color).outside = false := by
    rw [put_outside (by omega)]
    exact h.video
  have hnext : (t.col + 2).toNat = t.col.toNat + 2 := by
    show (t.col.toNat + 2) % 256 = _
    omega
  unfold Terminal.place
  by_cases hw : 160 ≤ t.col + 2
  · rw [if_pos hw]
    exact newline_onScreen hrow hv
  · rw [if_neg hw]
    apply scrollIntoArea_onScreen
    · show t.row.toNat ≤ 25
      omega
    · show (t.col + 2).toNat < 160
      rw [BitVec.le_def, hnext] at hw
      change ¬ 160 ≤ t.col.toNat + 2 at hw
      omega
    · exact hv

theorem moveCursor_onScreen (h : OnScreen t) (rows cols : Byte) :
    OnScreen (t.moveCursor rows cols) ↔
      (t.col + cols * 2).toNat < 160 ∧ (t.row + rows).toNat ≤ 24 ∨
      160 < (t.col + cols * 2).toNat ∧ (t.row + rows + 1).toNat ≤ 24 := by
  unfold Terminal.moveCursor
  by_cases hw : 160 < t.col + cols * 2
  · have hw' : 160 < (t.col + cols * 2).toNat := BitVec.lt_def.mp hw
    rw [if_pos hw]
    constructor
    · intro hs
      exact .inr ⟨hw', hs.row⟩
    · intro hs
      refine ⟨by have h24 := hs.resolve_left (by omega); exact h24.2, ?_, h.video⟩
      exact Nat.mod_lt _ (by decide)
  · have hw' : ¬ 160 < (t.col + cols * 2).toNat := fun hlt => hw (BitVec.lt_def.mpr hlt)
    rw [if_neg hw]
    constructor
    · intro hs
      exact .inl ⟨hs.col, hs.row⟩
    · intro hs
      have hin := hs.resolve_right (by omega)
      exact ⟨hin.2, hin.1, h.video⟩

/-- Columns to the right, or to the left if `z` is negative. -/
theorem moveCols_onScreen (h : OnScreen t) {k : Byte} {z : Int} (hk : (k.toNat : Int) = z % 256) :
    OnScreen (t.moveCursor 0 k) ↔ t.columnFits ((t.col.toNat + 2 * z) % 256) := by
  have hrow := h.row
  have hcol : ((t.col + k * 2).toNat : Int) = (t.col.toNat + 2 * z) % 256 := by
    show (((t.col.toNat + k.toNat * 2 % 256) % 256 : Nat) : Int) = _
    omega
  have hnext : (t.row + 1).toNat = t.row.toNat + 1 := by
    show (t.row.toNat + 1) % 256 = _
    omega
  rw [moveCursor_onScreen h, show t.row + 0 = t.row from BitVec.add_zero _, hnext, ← hcol,
    Terminal.columnFits]
  omega

theorem moveRows_onScreen (h : OnScreen t) {k : Byte} {z : Int} (hk : (k.toNat : Int) = z % 256) :
    OnScreen (t.moveCursor k 0) ↔ (t.row.toNat + z) % 256 ≤ 24 := by
  have hcol := h.col
  have hrow : ((t.row + k).toNat : Int) = (t.row.toNat + z) % 256 := by
    show (((t.row.toNat + k.toNat) % 256 : Nat) : Int) = _
    omega
  rw [moveCursor_onScreen h, show t.col + 0 * 2 = t.col from BitVec.add_zero _, ← hrow]
  omega

theorem setCursor_onScreen (h : OnScreen t) (newrow newcol : Byte) :
    OnScreen (t.setCursor newrow newcol) ↔
      newrow.toNat ≤ 24 ∧ 2 * newcol.toNat % 256 < 160 := by
  have hcol : (newcol * 2).toNat = 2 * newcol.toNat % 256 := by
    rw [Nat.mul_comm]
    rfl
  constructor
  · intro hs
    exact ⟨hs.row, hcol ▸ hs.col⟩
  · intro hs
    exact ⟨hs.1, hcol ▸ hs.2, h.video⟩

theorem cls_onScreen (hv : t.video.outside = false) : OnScreen t.cls := by
  constructor
  · exact Nat.zero_le _
  · exact Nat.zero_lt_succ _
  · rw [Terminal.cls, blankRows_outside]
    exact hv

theorem char_onScreen (h : OnScreen t) (c : Byte) :
    ∃ t', (Token.char c).apply t = .ok t' ∧ OnScreen t' := by
  have hrow := h.row
  have hcol := h.col
  rw [Token.apply]
  split_ifs
  · exact ⟨t, rfl, h⟩
  · unfold Terminal.kprintca Terminal.printchar
    split_ifs with h7 h8 hpos h10 h13 hb
    · exact ⟨t, rfl, h⟩
    · refine ⟨_, rfl, (moveCols_onScreen h (z := -1) rfl).mpr (.inl ?_)⟩
      have heven := t.even
      have hpos' := BitVec.lt_def.mp hpos
      change 0 < t.col.toNat at hpos'
      omega
    · exact ⟨t, rfl, h⟩
    · exact newline_onScreen hrow h.video
    · exact scrollIntoArea_onScreen (Nat.le_succ_of_le hrow) (Nat.zero_lt_succ _) h.video
    · exact place_onScreen h c 0x09
    · exact place_onScreen h c 0x07

theorem uint8_toNat (n : Word) : ((uint8 n).toNat : Int) = (n.toNat : Int) % 256 := by
  rfl

theorem uint8_neg_toNat (n : Word) : ((uint8 (-n)).toNat : Int) = (-n.toNat : Int) % 256 := by
  rw [uint8_toNat, BitVec.toNat_neg]
  omega

/-- set_scroll_area accepts rows 1 to 24. -/
theorem setScrollArea_iff (t : Terminal) (start stop : Byte) :
    (∃ t', t.setScrollArea start stop = .ok t') ↔
      1 ≤ start.toNat ∧ start.toNat ≤ stop.toNat ∧ stop.toNat ≤ 24 := by
  have hpanic : (stop < start ∨ start = 0 ∨ 25 ≤ stop) ↔
      ¬ (1 ≤ start.toNat ∧ start.toNat ≤ stop.toNat ∧ stop.toNat ≤ 24) := by
    bv_omega
  unfold Terminal.setScrollArea
  by_cases h : stop < start ∨ start = 0 ∨ 25 ≤ stop
  · rw [dif_pos h]
    refine iff_of_false ?_ (hpanic.mp h)
    intro hex
    obtain ⟨t', ht⟩ := hex
    cases ht
  · rw [dif_neg h]
    exact iff_of_true ⟨_, rfl⟩ (not_not.mp fun hn => h (hpanic.mpr hn))

theorem setScrollArea_onScreen {t' : Terminal} (h : OnScreen t) {start stop : Byte}
    (ht : t.setScrollArea start stop = .ok t') : OnScreen t' := by
  unfold Terminal.setScrollArea at ht
  by_cases hp : stop < start ∨ start = 0 ∨ 25 ≤ stop
  · rw [dif_pos hp] at ht
    cases ht
  · rw [dif_neg hp] at ht
    cases ht
    exact ⟨h.row, h.col, h.video⟩

/-- A token leaves the screen or stops the kernel if and only if it does not fit. -/
theorem apply_onScreen_iff (h : OnScreen t) (tok : Token) :
    (∃ t', tok.apply t = .ok t' ∧ OnScreen t') ↔ tok.fits t := by
  have hok : ∀ u : Terminal, (∃ t', (.ok u : Except Stop Terminal) = .ok t' ∧ OnScreen t') ↔ OnScreen u :=
    fun u => ⟨fun ⟨_, he, hs⟩ => Except.ok.inj he ▸ hs, fun hs => ⟨u, rfl, hs⟩⟩
  cases tok with
  | char c => exact iff_of_true (char_onScreen h c) trivial
  | position row col =>
    have hrow := uint8_toNat (fromOne row - 1)
    have hcol := uint8_toNat (fromOne col - 1)
    rw [Token.apply, hok, setCursor_onScreen h, Token.fits]
    omega
  | area start stop =>
    have hstart := uint8_toNat start
    have hstop := uint8_toNat stop
    have hiff := setScrollArea_iff t (uint8 start) (uint8 stop)
    rw [Token.fits]
    constructor
    · intro hex
      obtain ⟨t', ht, -⟩ := hex
      have hin := hiff.mp ⟨t', ht⟩
      omega
    · intro hin
      obtain ⟨t', ht⟩ := hiff.mpr (by omega)
      exact ⟨t', ht, setScrollArea_onScreen h ht⟩
  | forward n =>
    rw [Token.apply, hok, moveCols_onScreen h (uint8_toNat n)]
    rfl
  | back n =>
    rw [Token.apply, hok, moveCols_onScreen h (uint8_neg_toNat n), Int.mul_neg]
    rfl
  | up n =>
    rw [Token.apply, hok, moveRows_onScreen h (uint8_neg_toNat n)]
    rfl
  | down n =>
    rw [Token.apply, hok, moveRows_onScreen h (uint8_toNat n)]
    rfl
  | clear => exact iff_of_true ⟨_, rfl, cls_onScreen h.video⟩ trivial
  | rendition n =>
    rw [Token.apply, hok]
    refine iff_of_true ?_ trivial
    split_ifs
    · exact ⟨h.row, h.col, h.video⟩
    · exact ⟨h.row, h.col, h.video⟩
    · exact h
  | home => exact iff_of_true ⟨_, rfl, (setCursor_onScreen h 0 0).mpr (by decide)⟩ trivial
  | clearDown => exact iff_of_true ⟨_, rfl, h.withVideo (blankRows_outside _ _)⟩ trivial
  | clearLine =>
    have hrow : t.row.toNat < 50 := Nat.lt_of_le_of_lt h.row (by decide)
    exact iff_of_true ⟨_, rfl, h.withVideo (blankRow_outside _ hrow)⟩ trivial
  | renditionOff => exact iff_of_true ⟨_, rfl, h.row, h.col, h.video⟩ trivial
  | ignored => exact iff_of_true ⟨_, rfl, h⟩ trivial
  | scrollDown =>
    obtain ⟨v, hv, hout⟩ := scroll_outside t (-1) rfl
    exact iff_of_true ⟨_, hv, h.withVideo hout⟩ trivial
  | scrollUp =>
    obtain ⟨v, hv, hout⟩ := scroll_outside t 1 rfl
    exact iff_of_true ⟨_, hv, h.withVideo hout⟩ trivial

end Step

/-- A call `tty_write(data, count)`; `data` is memory from the pointer on. -/
structure Write where
  data : List Byte
  count : Nat

/-- No call stops the kernel, and the terminal is on the screen after each character of each
call: up to the `k`th byte the loop has done what a write of `k` bytes does. -/
def StaysOnScreen (t : Terminal) : List Write → Prop
  | [] => True
  | w :: ws => (∀ k ≤ w.count, ∃ t', writeLoop t k w.data = .ok t' ∧ OnScreen t') ∧
      ∃ t', ttyWrite t w.data w.count = .ok t' ∧ OnScreen t' ∧ StaysOnScreen t' ws

/-- Each token fits the terminal it comes to. -/
def Fit (t : Terminal) : List Token → Prop
  | [] => True
  | tok :: toks => tok.fits t ∧ ∀ t', tok.apply t = .ok t' → Fit t' toks

/-- The tokens of all calls fit. -/
def WritesFit (t : Terminal) : List Write → Prop
  | [] => True
  | w :: ws => Fit t (lexed w.count w.data) ∧
      ∀ t', ttyWrite t w.data w.count = .ok t' → WritesFit t' ws

section Run
variable {t : Terminal}

/-- The first token of a text does not depend on the number of bytes, if there are any. -/
theorem lexed_succ (p : List Byte) :
    ∃ tok d pp, ∀ n, lexed (n + 1) p = tok :: lexed (n - d) pp := by
  by_cases hp : peek p = ESC
  · cases he : escapeToken p with
    | none =>
      refine ⟨.char ESC, 0, p.tail, fun n => ?_⟩
      rw [lexed, if_pos hp, he]
      rfl
    | some r =>
      refine ⟨r.1, p.length - r.2.length - 1, r.2, fun n => ?_⟩
      rw [lexed, if_pos hp, he]
  · refine ⟨.char (peek p), 0, p.tail, fun n => ?_⟩
    rw [lexed, if_neg hp]
    rfl

theorem writeLoop_onScreen_iff (h : OnScreen t) (n : Nat) (p : List Byte) :
    (∀ k ≤ n, ∃ t', writeLoop t k p = .ok t' ∧ OnScreen t') ↔ Fit t (lexed n p) := by
  simp only [writeLoop_lexed]
  induction n using Nat.strong_induction_on generalizing t p with
  | _ n ih =>
    cases n with
    | zero =>
      rw [lexed_zero]
      refine iff_of_true ?_ trivial
      intro k hk
      rw [Nat.le_zero.mp hk, lexed_zero]
      exact ⟨t, rfl, h⟩
    | succ n =>
      obtain ⟨tok, d, pp, hlexed⟩ := lexed_succ p
      rw [hlexed]
      constructor
      · intro hall
        obtain ⟨t₁, ht₁, hs₁⟩ := hall 1 (by omega)
        rw [hlexed, Nat.zero_sub, lexed_zero] at ht₁
        obtain ⟨t₂, ht₂, he⟩ := bind_eq_ok.mp ht₁
        cases he
        refine ⟨(apply_onScreen_iff h tok).mp ⟨t₁, ht₂, hs₁⟩, fun t' ht' => ?_⟩
        cases ht₂.symm.trans ht'
        apply (ih (n - d) (by omega) hs₁ pp).mp
        intro k hk
        by_cases hd : d ≤ n
        · have hk' := hall (k + d + 1) (by omega)
          rw [hlexed, Nat.add_sub_cancel, applyAll_cons, ht₂] at hk'
          exact hk'
        · have hk0 : k = 0 := by omega
          rw [hk0, lexed_zero]
          exact ⟨t₁, rfl, hs₁⟩
      · intro hfit k hk
        cases k with
        | zero =>
          rw [lexed_zero]
          exact ⟨t, rfl, h⟩
        | succ k =>
          obtain ⟨t₁, ht₁, hs₁⟩ := (apply_onScreen_iff h tok).mpr hfit.1
          rw [hlexed, applyAll_cons, ht₁]
          exact (ih (n - d) (by omega) hs₁ pp).mpr (hfit.2 t₁ ht₁) (k - d) (by omega)

theorem OnScreen.updateCursor (h : OnScreen t) : OnScreen t.updateCursor := by
  rw [Terminal.updateCursor_eq]
  exact ⟨h.row, h.col, h.video⟩

theorem staysOnScreen_iff (h : OnScreen t) (ws : List Write) :
    StaysOnScreen t ws ↔ WritesFit t ws := by
  induction ws generalizing t with
  | nil => exact Iff.rfl
  | cons w ws ih =>
    have hloop := writeLoop_onScreen_iff h w.count w.data
    constructor
    · intro hs
      obtain ⟨hall, t', ht, hs', hrest⟩ := hs
      refine ⟨hloop.mp hall, fun t'' ht'' => ?_⟩
      cases ht.symm.trans ht''
      exact (ih hs').mp hrest
    · intro hs
      obtain ⟨hfit, hrest⟩ := hs
      have hall := hloop.mpr hfit
      obtain ⟨t₁, ht₁, hs₁⟩ := hall w.count le_rfl
      have ht : ttyWrite t w.data w.count = .ok t₁.updateCursor := by
        rw [ttyWrite, ht₁]
        rfl
      exact ⟨hall, _, ht, hs₁.updateCursor, (ih hs₁.updateCursor).mpr (hrest _ ht)⟩

end Run

/-- After cls, output stays on the screen and stops nothing if and only if all its sequences
fit; and of the scroll areas in rows 1 to 25 those that end in row 25 are refused. -/
theorem output_onScreen_iff (t : Terminal) (hv : t.video.outside = false) (ws : List Write) :
    (StaysOnScreen t.cls ws ↔ WritesFit t.cls ws) ∧
      ∀ start stop : Byte, 1 ≤ start.toNat → start.toNat ≤ stop.toNat → stop.toNat ≤ 25 →
        ((∃ t', t.setScrollArea start stop = .ok t') ↔ stop.toNat ≤ 24) := by
  refine ⟨staysOnScreen_iff (cls_onScreen hv) ws, ?_⟩
  intro start stop h1 h2 _
  rw [setScrollArea_iff]
  omega

/-- The middle of row 5, and a character there. -/
theorem output_onScreen_iff_row_five :
    freshTerminal.video.outside = false ∧
    WritesFit freshTerminal.cls
      [⟨[ESC, ch '[', ch '5', ch ';', ch '4', ch '0', ch 'H', ch 'A'], 8⟩] ∧
    StaysOnScreen freshTerminal.cls
      [⟨[ESC, ch '[', ch '5', ch ';', ch '4', ch '0', ch 'H', ch 'A'], 8⟩] := by
  have hlexed : lexed 8 [ESC, ch '[', ch '5', ch ';', ch '4', ch '0', ch 'H', ch 'A'] =
      [.position 5 40, .char (ch 'A')] := by
    have hclosed : Closed [ESC, ch '[', ch '5', ch ';', ch '4', ch '0', ch 'H', ch 'A'] := by
      decide
    have h := hclosed.lexed [] 0
    rw [lexed_zero, List.append_nil, List.append_nil] at h
    exact h
  have hfit : WritesFit freshTerminal.cls
      [⟨[ESC, ch '[', ch '5', ch ';', ch '4', ch '0', ch 'H', ch 'A'], 8⟩] := by
    refine ⟨?_, fun _ _ => trivial⟩
    rw [hlexed]
    exact ⟨⟨by decide, by decide⟩, fun _ _ => ⟨trivial, fun _ _ => trivial⟩⟩
  exact ⟨rfl, hfit, (output_onScreen_iff freshTerminal rfl _).1.mpr hfit⟩

/-- The sequence for row 200 is obeyed, and the one for the scroll area of rows 1 to 25, the
whole screen, ends in a PANIC. -/
theorem row_two_hundred_accepted :
    (∃ t', ttyWrite freshTerminal.cls [ESC, ch '[', ch '2', ch '0', ch '0', ch ';', ch '1', ch 'H']
        8 = .ok t' ∧ t'.row = 199) ∧
    ttyWrite freshTerminal.cls [ESC, ch '[', ch '1', ch ';', ch '2', ch '5', ch 'r'] 7 =
      .error .panic ∧
    ¬ StaysOnScreen freshTerminal.cls
      [⟨[ESC, ch '[', ch '2', ch '0', ch '0', ch ';', ch '1', ch 'H'], 8⟩] ∧
    ¬ StaysOnScreen freshTerminal.cls
      [⟨[ESC, ch '[', ch '1', ch ';', ch '2', ch '5', ch 'r'], 7⟩] := by
  have hrow : ttyWrite freshTerminal.cls
      [ESC, ch '[', ch '2', ch '0', ch '0', ch ';', ch '1', ch 'H'] 8 =
        .ok (freshTerminal.cls.setCursor 199 0).updateCursor := by
    have hclosed : Closed [ESC, ch '[', ch '2', ch '0', ch '0', ch ';', ch '1', ch 'H'] := by
      decide
    exact hclosed.ttyWrite_all freshTerminal.cls []
  have harea : ttyWrite freshTerminal.cls [ESC, ch '[', ch '1', ch ';', ch '2', ch '5', ch 'r'] 7 =
      .error .panic := by
    have hclosed : Closed [ESC, ch '[', ch '1', ch ';', ch '2', ch '5', ch 'r'] := by
      decide
    exact hclosed.ttyWrite_all freshTerminal.cls []
  refine ⟨⟨_, hrow, rfl⟩, harea, ?_, ?_⟩
  · intro hs
    obtain ⟨-, t', ht, hon, -⟩ := hs
    cases hrow.symm.trans ht
    exact absurd hon.row (by decide)
  · intro hs
    obtain ⟨-, t', ht, -⟩ := hs
    cases harea.symm.trans ht

end TapiOS.Tty
