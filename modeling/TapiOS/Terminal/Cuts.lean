import TapiOS.Terminal.Decimal

/-!
# Output cut into writes

A text can be cut where no escape sequence is open. Elsewhere the first write looks for
the rest of the sequence behind its buffer, and the second one does not know that a
sequence was begun.
-/
namespace TapiOS.Tty

open Lib Util

/-- The text does not end inside an escape sequence. -/
def Closed (text : List Byte) : Prop := (scan .ground text).2 = .ground

instance (text : List Byte) : Decidable (Closed text) :=
  inferInstanceAs (Decidable ((scan .ground text).2 = .ground))

/-- A scroll area that set_scroll_area does not accept. -/
def Token.panics : Token → Bool
  | .area start stop => uint8 stop < uint8 start || uint8 start == 0 || 25 ≤ uint8 stop
  | _ => false

/-- The text asks for such a scroll area. -/
def Panics (text : List Byte) : Prop := ∃ tok ∈ (scan .ground text).1, tok.panics

instance (text : List Byte) : Decidable (Panics text) :=
  inferInstanceAs (Decidable (∃ tok ∈ (scan .ground text).1, tok.panics))

section Apply
variable (t : Terminal)

theorem scroll_ok (rows : Int) : ∃ v, t.scroll rows = .ok { t with video := v } := by
  unfold Terminal.scroll
  rw [if_neg (Nat.not_lt.mpr (Nat.min_le_right _ _))]
  by_cases h : 0 < rows
  · rw [if_pos h]
    exact ⟨_, rfl⟩
  · rw [if_neg h]
    exact ⟨_, rfl⟩

theorem scrollIntoArea_ok : ∃ t', t.scrollIntoArea = .ok t' ∧ t'.col = t.col := by
  unfold Terminal.scrollIntoArea
  by_cases h : t.scrollBufferEnd < t.row
  · obtain ⟨v, hv⟩ := scroll_ok { t with row := t.scrollBufferEnd } 1
    rw [if_pos h, hv]
    exact ⟨_, rfl, rfl⟩
  · rw [if_neg h]
    exact ⟨t, rfl, rfl⟩

theorem printchar_ok (c color : Byte) (bold : Bool) : ∃ t', t.printchar c color bold = .ok t' := by
  unfold Terminal.printchar
  split_ifs
  · exact ⟨_, rfl⟩
  · exact ⟨_, rfl⟩
  · exact ⟨_, rfl⟩
  · obtain ⟨t', ht, -⟩ := scrollIntoArea_ok t.newline
    exact ⟨t', ht⟩
  · obtain ⟨t', ht, -⟩ := scrollIntoArea_ok { t with col := 0, even := even_zero }
    exact ⟨t', ht⟩
  · obtain ⟨t', ht, -⟩ := scrollIntoArea_ok (t.place c 0x09)
    exact ⟨t', ht⟩
  · obtain ⟨t', ht, -⟩ := scrollIntoArea_ok (t.place c color)
    exact ⟨t', ht⟩

theorem apply_panics {tok : Token} (h : tok.panics) : tok.apply t = .error .panic := by
  cases tok with
  | area start stop =>
    simp only [Token.panics, Bool.or_eq_true, decide_eq_true_eq, beq_iff_eq, or_assoc] at h
    rw [Token.apply, Terminal.setScrollArea, dif_pos h]
  | _ => cases h

theorem apply_ok {tok : Token} (h : tok.panics = false) : ∃ t', tok.apply t = .ok t' := by
  cases tok with
  | char c =>
    rw [Token.apply]
    split_ifs
    · exact ⟨t, rfl⟩
    · exact printchar_ok t c 0x07 t.bold
  | area start stop =>
    have h' : ¬ (uint8 stop < uint8 start ∨ uint8 start = 0 ∨ 25 ≤ uint8 stop) := by
      intro hp
      simp only [Token.panics, Bool.or_eq_false_iff, decide_eq_false_iff_not, beq_eq_false_iff_ne,
        and_assoc] at h
      rcases hp with hp | hp | hp
      · exact h.1 hp
      · exact h.2.1 hp
      · exact h.2.2 hp
    rw [Token.apply, Terminal.setScrollArea, dif_neg h']
    exact ⟨_, rfl⟩
  | scrollDown =>
    obtain ⟨v, hv⟩ := scroll_ok t (-1)
    exact ⟨_, hv⟩
  | scrollUp =>
    obtain ⟨v, hv⟩ := scroll_ok t 1
    exact ⟨_, hv⟩
  | _ => exact ⟨_, rfl⟩

variable {toks : List Token}

theorem applyAll_panics (h : ∃ tok ∈ toks, tok.panics) :
    applyAll t toks = .error .panic := by
  induction toks generalizing t with
  | nil =>
    obtain ⟨tok, hm, -⟩ := h
    cases hm
  | cons tok toks ih =>
    rw [applyAll_cons]
    by_cases hp : tok.panics
    · rw [apply_panics t hp, error_bind]
    · obtain ⟨t', ht⟩ := apply_ok t (Bool.not_eq_true _ ▸ hp)
      rw [ht]
      apply ih
      obtain ⟨tok', hm, hp'⟩ := h
      rcases List.mem_cons.mp hm with rfl | hm
      · exact absurd hp' hp
      · exact ⟨tok', hm, hp'⟩

theorem applyAll_ok (h : ∀ tok ∈ toks, tok.panics = false) : ∃ t', applyAll t toks = .ok t' := by
  induction toks generalizing t with
  | nil => exact ⟨t, rfl⟩
  | cons tok toks ih =>
    obtain ⟨hp, hrest⟩ := List.forall_mem_cons.mp h
    obtain ⟨t', ht⟩ := apply_ok t hp
    obtain ⟨t'', ht'⟩ := ih t' hrest
    exact ⟨t'', by rw [applyAll_cons, ht, ok_bind, ht']⟩

theorem applyAll_chars (text : List Byte) : ∃ t', applyAll t (text.map .char) = .ok t' := by
  apply applyAll_ok
  intro tok hm
  obtain ⟨c, -, rfl⟩ := List.mem_map.mp hm
  rfl

end Apply

section Position

/-! Nothing reads the position in the registers, which the last update_cursor sets. -/

def Terminal.withPos (t : Terminal) (p : BitVec 16) : Terminal := { t with pos := p }

variable (t : Terminal) (p : BitVec 16)

theorem scroll_withPos (rows : Int) :
    (t.withPos p).scroll rows = (t.scroll rows).map (·.withPos p) := by
  unfold Terminal.scroll
  dsimp only [Terminal.withPos]
  split_ifs <;> rfl

theorem scrollIntoArea_withPos :
    (t.withPos p).scrollIntoArea = t.scrollIntoArea.map (·.withPos p) := by
  unfold Terminal.scrollIntoArea
  by_cases h : t.scrollBufferEnd < t.row
  · have h' : (t.withPos p).scrollBufferEnd < (t.withPos p).row := h
    rw [if_pos h, if_pos h']
    show ({ t with row := t.scrollBufferEnd }.withPos p).scroll 1 >>= _ = _
    rw [scroll_withPos]
    cases { t with row := t.scrollBufferEnd }.scroll 1 with
    | error e => rfl
    | ok t' => rfl
  · have h' : ¬ (t.withPos p).scrollBufferEnd < (t.withPos p).row := h
    rw [if_neg h, if_neg h']
    rfl

theorem place_withPos (c color : Byte) :
    (t.withPos p).place c color = (t.place c color).withPos p := by
  unfold Terminal.place
  by_cases h : 160 ≤ t.col + 2
  · have h' : 160 ≤ (t.withPos p).col + 2 := h
    rw [if_pos h, if_pos h']
    rfl
  · have h' : ¬ 160 ≤ (t.withPos p).col + 2 := h
    rw [if_neg h, if_neg h']
    rfl

theorem printchar_withPos (c color : Byte) (bold : Bool) : ∃ q,
    (t.withPos p).printchar c color bold = (t.printchar c color bold).map (·.withPos q) := by
  unfold Terminal.printchar
  by_cases h7 : c.toInt ≤ 7
  · rw [if_pos h7, if_pos h7]
    exact ⟨p, rfl⟩
  rw [if_neg h7, if_neg h7]
  by_cases h8 : c = 8
  · rw [if_pos h8, if_pos h8]
    by_cases hcol : 0 < t.col
    · have hcol' : 0 < (t.withPos p).col := hcol
      rw [if_pos hcol, if_pos hcol']
      exact ⟨(t.moveCursor 0 (-1)).pos, rfl⟩
    · have hcol' : ¬ 0 < (t.withPos p).col := hcol
      rw [if_neg hcol, if_neg hcol']
      exact ⟨p, rfl⟩
  rw [if_neg h8, if_neg h8]
  by_cases h10 : c = 10
  · rw [if_pos h10, if_pos h10]
    exact ⟨p, scrollIntoArea_withPos t.newline p⟩
  rw [if_neg h10, if_neg h10]
  by_cases h13 : c = 13
  · rw [if_pos h13, if_pos h13]
    exact ⟨p, scrollIntoArea_withPos { t with col := 0, even := even_zero } p⟩
  rw [if_neg h13, if_neg h13, place_withPos]
  exact ⟨p, scrollIntoArea_withPos _ p⟩

theorem cls_withPos : (t.withPos p).cls = t.cls.withPos p := by
  unfold Terminal.cls Terminal.withPos
  dsimp only

theorem apply_withPos (tok : Token) :
    ∃ q, tok.apply (t.withPos p) = (tok.apply t).map (·.withPos q) := by
  cases tok with
  | char c =>
    rw [Token.apply, Token.apply]
    by_cases h : c = 0x0F ∨ c = 0x0E
    · rw [if_pos h, if_pos h]
      exact ⟨p, rfl⟩
    · rw [if_neg h, if_neg h]
      exact printchar_withPos t p c 0x07 t.bold
  | position row col => exact ⟨_, rfl⟩
  | area start stop =>
    refine ⟨p, ?_⟩
    rw [Token.apply, Token.apply]
    unfold Terminal.setScrollArea
    split_ifs <;> rfl
  | forward n => exact ⟨(t.moveCursor 0 (uint8 n)).pos, rfl⟩
  | clear => exact ⟨p, congrArg Except.ok (cls_withPos t p)⟩
  | rendition n =>
    refine ⟨p, ?_⟩
    rw [Token.apply, Token.apply]
    split_ifs <;> rfl
  | up n => exact ⟨(t.moveCursor (uint8 (-n)) 0).pos, rfl⟩
  | down n => exact ⟨(t.moveCursor (uint8 n) 0).pos, rfl⟩
  | back n => exact ⟨(t.moveCursor 0 (uint8 (-n))).pos, rfl⟩
  | home => exact ⟨_, rfl⟩
  | clearDown => exact ⟨p, rfl⟩
  | clearLine => exact ⟨p, rfl⟩
  | renditionOff => exact ⟨p, rfl⟩
  | ignored => exact ⟨p, rfl⟩
  | scrollDown => exact ⟨p, scroll_withPos t p (-1)⟩
  | scrollUp => exact ⟨p, scroll_withPos t p 1⟩

theorem applyAll_withPos (toks : List Token) :
    ∃ q, applyAll (t.withPos p) toks = (applyAll t toks).map (·.withPos q) := by
  induction toks generalizing t p with
  | nil => exact ⟨p, rfl⟩
  | cons tok toks ih =>
    obtain ⟨q, hq⟩ := apply_withPos t p tok
    rw [applyAll_cons, applyAll_cons, hq]
    cases tok.apply t with
    | error e => exact ⟨p, rfl⟩
    | ok t' => exact ih t' q

/-- An update_cursor before other output is not seen at its end. -/
theorem applyAll_updateCursor (toks : List Token) :
    (applyAll t.updateCursor toks >>= fun t => (.ok t.updateCursor : Except Stop Terminal)) =
      applyAll t toks >>= fun t => .ok t.updateCursor := by
  rw [Terminal.updateCursor_eq]
  obtain ⟨q, hq⟩ := applyAll_withPos t (t.row.setWidth 16 * 80 + (t.col / 2).setWidth 16) toks
  rw [Terminal.withPos] at hq
  rw [hq]
  cases applyAll t toks with
  | error e => rfl
  | ok t' => rfl

end Position

/-- Writing `a` and then more is writing both at once, and what lies behind `a` in memory
does not matter. -/
def Cuttable (a : List Byte) : Prop :=
  (∀ (t : Terminal) (b behind rest : List Byte),
    (ttyWrite t (a ++ behind) a.length >>= fun t => ttyWrite t (b ++ rest) b.length) =
      ttyWrite t (a ++ (b ++ rest)) (a.length + b.length)) ∧
  ∀ (t : Terminal) (behind behind' : List Byte),
    ttyWrite t (a ++ behind) a.length = ttyWrite t (a ++ behind') a.length

section Cut
variable {a : List Byte} {t : Terminal}

theorem ttyWrite_eq (t : Terminal) (data : List Byte) (n : Nat) :
    ttyWrite t data n = applyAll t (lexed n data) >>= fun t => .ok t.updateCursor := by
  rw [ttyWrite, writeLoop_lexed]
  rfl

theorem lexed_text (a p : List Byte) (n : Nat) : lexed (a.length + n) (a ++ p) =
    (scan .ground a).1 ++
      lexed ((scan .ground a).2.bytes.length + n) ((scan .ground a).2.bytes ++ p) := by
  have h := lexed_scan n p .ground a
  rwa [show Mode.ground.bytes = [] from rfl, List.length_nil, Nat.zero_add, List.nil_append] at h

theorem Closed.lexed (h : Closed a) (p : List Byte) (n : Nat) :
    lexed (a.length + n) (a ++ p) = (scan .ground a).1 ++ Tty.lexed n p := by
  rw [lexed_text, show (scan .ground a).2 = .ground from h]
  show _ ++ Tty.lexed (0 + n) p = _
  rw [Nat.zero_add]

theorem Closed.ttyWrite (h : Closed a) (t : Terminal) (p : List Byte) (n : Nat) :
    ttyWrite t (a ++ p) (a.length + n) =
      applyAll t (scan .ground a).1 >>= fun t => Tty.ttyWrite t p n := by
  rw [ttyWrite_eq, h.lexed, applyAll_append, bind_assoc]
  congr 1
  funext t
  rw [ttyWrite_eq]

/-- A write of a closed text reads nothing behind it. -/
theorem Closed.ttyWrite_all (h : Closed a) (t : Terminal) (p : List Byte) :
    Tty.ttyWrite t (a ++ p) a.length =
      applyAll t (scan .ground a).1 >>= fun t => .ok t.updateCursor := by
  have hw := h.ttyWrite t p 0
  rw [Nat.add_zero] at hw
  rw [hw]
  congr 1
  funext t
  rw [ttyWrite_eq, lexed_zero]
  rfl

theorem Closed.cuttable (h : Closed a) : Cuttable a := by
  constructor
  · intro t b behind rest
    rw [h.ttyWrite_all, h.ttyWrite, bind_assoc]
    congr 1
    funext t
    rw [ok_bind, ttyWrite_eq, ttyWrite_eq]
    exact applyAll_updateCursor t _
  · intro t behind behind'
    rw [h.ttyWrite_all, h.ttyWrite_all]

theorem Panics.cuttable (h : Panics a) : Cuttable a := by
  have hwrite : ∀ (t : Terminal) (p : List Byte) (n : Nat),
      ttyWrite t (a ++ p) (a.length + n) = .error .panic := by
    intro t p n
    rw [ttyWrite_eq, lexed_text, applyAll_append, applyAll_panics t h]
    rfl
  constructor
  · intro t b behind rest
    have hw := hwrite t behind 0
    rw [Nat.add_zero] at hw
    rw [hw, hwrite, error_bind]
  · intro t behind behind'
    have hw := fun p => hwrite t p 0
    simp only [Nat.add_zero] at hw
    rw [hw, hw]

end Cut

section Unfinished
variable {a : List Byte} {t t' : Terminal} {m : Mode}

theorem progress_nul (hm : m ≠ .ground) : m.progress 0 = .mismatch := by
  cases m with
  | ground => exact absurd rfl hm
  | _ => rfl

/-- A digit 0 multiplies by ten. -/
theorem value_more (ds : Digits) : (ds.more (ch '0') rfl).value = ds.value * 10 := by
  rw [Digits.value, Digits.value, katoi_eq ds.digits, katoi_eq (ds.more (ch '0') rfl).digits]
  show BitVec.ofNat 32 (decimal (ds.list ++ [ch '0'])) = _
  rw [decimal_append]
  show BitVec.ofNat 32 (0 + 10 * decimal ds.list) = _
  rw [Nat.zero_add, Nat.mul_comm, BitVec.ofNat_mul]
  rfl

/-- Every sequence that has been begun can be completed to one that panics, or to the one
that is ignored. -/
theorem exists_completion (hm : m ≠ .ground) : ∃ b tok, ESC ∉ b ∧ scan m b = ([tok], .ground) ∧
    (tok.panics ∨
      tok = .ignored ∧ m.bytes ++ b = CSI ++ [ch '?', ch '1', ch 'l']) := by
  have hzero : ∀ x y : Word, uint8 y = 0 → (Token.area x y).panics := by
    intro x y hy
    rw [Token.panics, hy]
    by_cases hx : uint8 x = 0
    · rw [hx]
      rfl
    · have hpos : (0 : Byte) < uint8 x := by bv_omega
      rw [decide_eq_true hpos]
      rfl
  cases m with
  | ground => exact absurd rfl hm
  | escape => exact ⟨[ch '[', ch '0', ch ';', ch '0', ch 'r'], _, by decide, rfl, .inl rfl⟩
  | bracket => exact ⟨[ch '0', ch ';', ch '0', ch 'r'], _, by decide, rfl, .inl rfl⟩
  | number ds => exact ⟨[ch ';', ch '0', ch 'r'], _, by decide, rfl, .inl (hzero _ _ rfl)⟩
  | separator ds => exact ⟨[ch '0', ch 'r'], _, by decide, rfl, .inl (hzero _ _ rfl)⟩
  | second ds es =>
    -- eight more zeros make a multiple of 256
    refine ⟨[ch '0', ch '0', ch '0', ch '0', ch '0', ch '0', ch '0', ch '0', ch 'r'], _, by decide,
      rfl, .inl (hzero _ _ ?_)⟩
    simp only [value_more, BitVec.mul_assoc]
    rw [uint8, BitVec.setWidth_mul _ _ (by decide)]
    exact BitVec.mul_zero
  | question => exact ⟨[ch '1', ch 'l'], _, by decide, rfl, .inr ⟨rfl, rfl⟩⟩
  | questionOne => exact ⟨[ch 'l'], _, by decide, rfl, .inr ⟨rfl, rfl⟩⟩

/-- The column behind a glyph. -/
def nextCol (x : Byte) : Byte := if 160 ≤ x + 2 then 0 else x + 2

theorem apply_glyph {c : Byte} (hc : 15 < c.toInt) :
    ∃ t', (Token.char c).apply t = .ok t' ∧ t'.col = nextCol t.col := by
  have hne : ∀ x : Byte, x.toInt ≤ 15 → c ≠ x := by
    intro x hx he
    subst he
    omega
  obtain ⟨t', ht, hcol⟩ := scrollIntoArea_ok (t.place c (if t.bold then 0x09 else 0x07))
  refine ⟨t', ?_, ?_⟩
  · rw [Token.apply, if_neg (not_or.mpr ⟨hne 0x0F (by decide), hne 0x0E (by decide)⟩),
      Terminal.kprintca, Terminal.printchar, if_neg (by omega), if_neg (hne 8 (by decide)),
      if_neg (hne 10 (by decide)), if_neg (hne 13 (by decide)), ht]
  · rw [hcol]
    unfold Terminal.place nextCol
    by_cases h : 160 ≤ t.col + 2
    · rw [if_pos h, if_pos h]
      rfl
    · rw [if_neg h, if_neg h]

theorem applyAll_glyphs (text : List Byte) (h : ∀ c ∈ text, 15 < c.toInt) :
    ∃ t', applyAll t (text.map .char) = .ok t' ∧ t'.col = nextCol^[text.length] t.col := by
  induction text generalizing t with
  | nil => exact ⟨t, rfl, rfl⟩
  | cons c text ih =>
    obtain ⟨hc, htext⟩ := List.forall_mem_cons.mp h
    obtain ⟨t', ht, hcol⟩ := apply_glyph (t := t) hc
    obtain ⟨t'', ht', hcol'⟩ := ih htext (t := t')
    refine ⟨t'', by rw [List.map_cons, applyAll_cons, ht, ok_bind, ht'], ?_⟩
    rw [hcol', hcol]
    rfl

theorem nextCol_five : ∀ x : Byte, nextCol^[5] x ≠ x := by
  decide

/-- A write that ends in an open sequence prints it, if a zero follows. -/
theorem ttyWrite_unfinished {t₁ : Terminal} (hm : (scan .ground a).2 ≠ .ground)
    (ht : applyAll t (scan .ground a).1 = .ok t₁) :
    ttyWrite t (a ++ [0]) a.length =
      applyAll t₁ ((scan .ground a).2.bytes.map .char) >>= fun t => .ok t.updateCursor := by
  have hlexed := lexed_text a [0] 0
  rw [lexed_mismatch hm (progress_nul hm), lexed_zero, List.append_nil, Nat.add_zero] at hlexed
  rw [ttyWrite_eq, hlexed, applyAll_append, ht, ok_bind]

theorem ttyWrite_chars {b : List Byte} (hb : ESC ∉ b) : ttyWrite t b b.length =
    applyAll t (b.map .char) >>= fun t => .ok t.updateCursor := by
  have hlexed := lexed_chars (n := 0) (p := []) hb
  rw [lexed_zero, List.append_nil, List.append_nil, Nat.add_zero] at hlexed
  rw [ttyWrite_eq, hlexed]

/-- Inside a sequence a text cannot be cut. -/
theorem not_cuttable (hc : ¬ Closed a) (hp : ¬ Panics a) (t : Terminal) : ¬ Cuttable a := by
  intro hcut
  have hok : ∀ tok ∈ (scan .ground a).1, tok.panics = false := by
    intro tok hm
    rw [← Bool.not_eq_true]
    intro h
    exact hp ⟨tok, hm, h⟩
  obtain ⟨t₁, ht₁⟩ := applyAll_ok t hok
  obtain ⟨b, tok, hb, hscan, htok⟩ := exists_completion hc
  -- at once, the sequence takes effect
  have hclosed : Closed (a ++ b) := by
    rw [Closed, scan_append, hscan]
  have hone : ttyWrite t (a ++ (b ++ [])) (a.length + b.length) =
      tok.apply t₁ >>= fun t => .ok t.updateCursor := by
    have h := hclosed.ttyWrite_all t []
    rw [scan_append, hscan, applyAll_append, ht₁, ok_bind, List.length_append,
      List.append_assoc] at h
    rw [h, applyAll_cons, bind_assoc]
    rfl
  -- in two writes its bytes are printed
  have htwo := hcut.1 t b [0] []
  rw [hone, ttyWrite_unfinished hc ht₁, List.append_nil] at htwo
  obtain ⟨t₂, ht₂⟩ := applyAll_chars t₁ (scan .ground a).2.bytes
  rw [ht₂, ok_bind, ok_bind, ttyWrite_chars hb] at htwo
  rcases htok with hpanic | ⟨rfl, hbytes⟩
  · obtain ⟨t₃, ht₃⟩ := applyAll_chars t₂.updateCursor b
    rw [ht₃, apply_panics t₁ hpanic] at htwo
    cases htwo
  · rw [applyAll_updateCursor] at htwo
    have hall : applyAll t₁ ((CSI ++ [ch '?', ch '1', ch 'l']).map .char) =
        applyAll t₂ (b.map .char) := by
      rw [← hbytes, List.map_append, applyAll_append, ht₂, ok_bind]
    obtain ⟨t₃, ht₃, hcol⟩ := applyAll_glyphs (t := t₁) (CSI ++ [ch '?', ch '1', ch 'l'])
      (by decide)
    rw [← hall, ht₃] at htwo
    have he := congrArg Terminal.col (Except.ok.inj htwo)
    rw [Terminal.updateCursor_eq, Terminal.updateCursor_eq] at he
    exact nextCol_five t₁.col (hcol.symm.trans he)

end Unfinished

/-- A terminal after start, with zeros on the screen. -/
def freshTerminal : Terminal where
  video := ⟨fun _ => 0, false⟩
  row := 0
  col := 0
  scrollBufferStart := 0
  scrollBufferEnd := 24
  pos := 0
  bold := false
  even := even_zero
  ordered := by decide
  inside := by decide

/-- Output may be cut behind a text if and only if the text ends in no open escape sequence,
or has stopped the kernel before its end. -/
theorem cuttable_iff (a : List Byte) : Cuttable a ↔ Closed a ∨ Panics a := by
  constructor
  · intro h
    by_contra hno
    rw [not_or] at hno
    exact not_cuttable hno.1 hno.2 freshTerminal h
  · intro h
    rcases h with h | h
    · exact h.cuttable
    · exact h.cuttable

/-- ESC in one write and `[H` in the next are three glyphs; at once they are the sequence
that sends the cursor home. -/
theorem escape_cut_printed : (∃ t₁ t₂,
      (ttyWrite freshTerminal ([ESC] ++ [0]) 1 >>= fun t =>
        ttyWrite t ([ch '[', ch 'H'] ++ []) 2) = .ok t₁ ∧
      ttyWrite freshTerminal ([ESC] ++ ([ch '[', ch 'H'] ++ [])) (1 + 2) = .ok t₂ ∧
      t₁.col = 6 ∧ t₂.col = 0) ∧ ¬ Cuttable [ESC] := by
  have hfirst : ttyWrite freshTerminal ([ESC] ++ [0]) 1 = _ :=
    ttyWrite_unfinished (a := [ESC]) (by decide) rfl
  obtain ⟨t, ht, hcol⟩ := applyAll_glyphs (t := freshTerminal) [ESC] (by decide)
  obtain ⟨t₁, ht₁, hcol₁⟩ := applyAll_glyphs (t := t.updateCursor) [ch '[', ch 'H']
    (by decide)
  have htwo : (ttyWrite freshTerminal ([ESC] ++ [0]) 1 >>= fun t =>
      ttyWrite t ([ch '[', ch 'H'] ++ []) 2) = .ok t₁.updateCursor := by
    have hsecond : ttyWrite t.updateCursor [ch '[', ch 'H'] 2 = _ :=
      ttyWrite_chars (b := [ch '[', ch 'H']) (by decide)
    rw [hfirst, show (scan .ground [ESC]).2.bytes = [ESC] from rfl, ht, ok_bind, ok_bind,
      List.append_nil, hsecond, ht₁, ok_bind]
  have hone : ttyWrite freshTerminal ([ESC] ++ ([ch '[', ch 'H'] ++ [])) (1 + 2) =
      .ok (freshTerminal.setCursor 0 0).updateCursor := by
    have hclosed : Closed [ESC, ch '[', ch 'H'] := by decide
    exact hclosed.ttyWrite_all freshTerminal []
  have hcol₁' : t₁.updateCursor.col = 6 := by
    rw [Terminal.updateCursor_eq]
    show t₁.col = 6
    rw [hcol₁, Terminal.updateCursor_eq]
    show nextCol^[2] t.col = 6
    rw [hcol]
    decide
  refine ⟨⟨_, _, htwo, hone, hcol₁', rfl⟩, ?_⟩
  intro hcut
  have h := hcut.1 freshTerminal [ch '[', ch 'H'] [0] []
  change (ttyWrite freshTerminal ([ESC] ++ [0]) 1 >>= fun t =>
      ttyWrite t ([ch '[', ch 'H'] ++ []) 2) =
    ttyWrite freshTerminal ([ESC] ++ ([ch '[', ch 'H'] ++ [])) (1 + 2) at h
  rw [htwo, hone] at h
  have he := congrArg Terminal.col (Except.ok.inj h)
  rw [hcol₁'] at he
  revert he
  decide

end TapiOS.Tty
