import Mathlib.Data.Nat.Digits.Defs
import TapiOS.Terminal.Scanf

/-!
# Decimal numbers, terminal/vga.c

printi stores the digits of a number from the end of a static buffer towards its front, and
prints from the first one on. katoi reads digits back.
-/
namespace TapiOS.Tty

open Util

/-- The buffer of printi; its last byte is not stored to. -/
structure PrintBuf where
  bytes : Vector Byte 12
  terminated : bytes[11] = 0

/-- A static buffer starts with zeros. -/
instance : Inhabited PrintBuf := ⟨⟨Vector.replicate 12 0, rfl⟩⟩

namespace PrintBuf

/-- `*p = c` in front of the terminator. -/
def put (buf : PrintBuf) (p : Fin 11) (c : Byte) : PrintBuf where
  bytes := buf.bytes.set p c
  terminated := by
    rw [Vector.getElem_set_ne _ _ (by omega)]
    exact buf.terminated

/-- The string that starts at index `p`. -/
def text (buf : PrintBuf) (p : Nat) : List Byte := (buf.bytes.toList.drop p).takeWhile (· != 0)

end PrintBuf

/-- The loop of printi from `p` on, and where `p` is after it; `none` if a digit would be stored
in front of the buffer. -/
def printiLoop : (p : Nat) → p ≤ 11 → PrintBuf → Word → Option (Nat × PrintBuf)
  | 0, _, _, _ => none
  | p + 1, hp, buf, i =>
    let buf := buf.put ⟨p, hp⟩ (ch '0' + (i % 10).setWidth 8)
    let i := i / 10
    if i ≠ 0 then printiLoop p (by omega) buf i else some (p, buf)

def Terminal.print (t : Terminal) (str : List Byte) (color : Byte) : Except Stop Terminal :=
  str.foldlM (fun t c => t.printchar c color false) t

def Terminal.printi (t : Terminal) (buf : PrintBuf) (i : Word) (color : Byte) :
    Option (Except Stop Terminal × PrintBuf) :=
  (printiLoop 11 le_rfl buf i).map fun (p, buf) => (t.print (buf.text p) color, buf)

/-- No zero stands before another digit. -/
def Digits.Plain (s : Digits) : Prop := s.list.head? = some (ch '0') → s.list = [ch '0']

/-- All other digits with the value `n` are more. -/
structure Digits.Shortest (s : Digits) (n : Nat) : Prop where
  value : decimal s.list = n
  least : ∀ t : Digits, decimal t.list = n → t ≠ s → s.list.length < t.list.length

section Value
variable {s t : List Byte}

/-- The values of the digits, the last one first. -/
def digitValues (s : List Byte) : List Nat := (s.map fun d => d.toNat - 48).reverse

theorem decimal_eq (s : List Byte) : decimal s = Nat.ofDigits 10 (digitValues s) := by
  induction s with
  | nil => rfl
  | cons d s ih =>
    have hv : digitValues (d :: s) = digitValues s ++ [d.toNat - 48] := by simp [digitValues]
    rw [hv, Nat.ofDigits_append, Nat.ofDigits_singleton, ← ih, decimal, digitValues,
      List.length_reverse, List.length_map, Nat.mul_comm, Nat.add_comm]

theorem decimal_append (s : List Byte) (d : Byte) :
    decimal (s ++ [d]) = d.toNat - 48 + 10 * decimal s := by
  have hv : digitValues (s ++ [d]) = (d.toNat - 48) :: digitValues s := by simp [digitValues]
  rw [decimal_eq, decimal_eq, hv, Nat.ofDigits_cons]

theorem digitValues_lt (h : ∀ d ∈ s, isdigit d) : ∀ v ∈ digitValues s, v < 10 := by
  intro v hv
  obtain ⟨d, hd, rfl⟩ := List.mem_map.mp (List.mem_reverse.mp hv)
  have hle := (isdigit_iff.mp (h d hd)).2
  omega

theorem decimal_lt (h : ∀ d ∈ s, isdigit d) : decimal s < 10 ^ s.length := by
  have hlt := Nat.ofDigits_lt_base_pow_length (by decide) (digitValues_lt h)
  rwa [← decimal_eq, digitValues, List.length_reverse, List.length_map] at hlt

theorem decimal_inj (hs : ∀ d ∈ s, isdigit d) (ht : ∀ d ∈ t, isdigit d)
    (hlen : s.length = t.length) (h : decimal s = decimal t) : s = t := by
  have hback : ∀ l : List Byte, (∀ d ∈ l, isdigit d) →
      (digitValues l).reverse.map (fun v => BitVec.ofNat 8 (v + 48)) = l := by
    intro l hl
    rw [digitValues, List.reverse_reverse, List.map_map]
    refine (List.map_congr_left fun d hd => ?_).trans (List.map_id l)
    have hle := (isdigit_iff.mp (hl d hd)).1
    show BitVec.ofNat 8 (d.toNat - 48 + 48) = d
    rw [Nat.sub_add_cancel hle, BitVec.ofNat_toNat, BitVec.setWidth_eq]
  rw [decimal_eq, decimal_eq] at h
  have hv : digitValues s = digitValues t := Nat.ofDigits_inj_of_len_eq (by decide) (by simp [digitValues, hlen])
    (digitValues_lt hs) (digitValues_lt ht) h
  rw [← hback s hs, hv, hback t ht]

end Value

section Shortest
variable {s t : Digits}

/-- Digits without leading zeros are the shortest with their value. -/
theorem Digits.Plain.shortest (h : s.Plain) : s.Shortest (decimal s.list) := by
  refine ⟨rfl, fun t ht hne => ?_⟩
  obtain ⟨l, hl, hs⟩ := s
  have hle : l.length ≤ t.list.length := by
    cases l with
    | nil => exact absurd rfl hl
    | cons d l =>
      by_cases h0 : d = ch '0'
      · rw [show d :: l = [ch '0'] from h (congrArg some h0)]
        exact List.length_pos_of_ne_nil t.nonempty
      · have hd : 1 ≤ d.toNat - 48 := by
          have hge := (isdigit_iff.mp (hs d (.head _))).1
          have hne : d.toNat ≠ 48 := fun he => h0 (BitVec.eq_of_toNat_eq he)
          omega
        have hlow : 10 ^ l.length ≤ decimal (d :: l) :=
          (Nat.le_mul_of_pos_left _ hd).trans (Nat.le_add_right _ _)
        exact (Nat.pow_lt_pow_iff_right (by decide)).mp
          (hlow.trans_lt (ht ▸ decimal_lt t.digits))
  refine lt_of_le_of_ne hle fun hlen => hne ?_
  obtain ⟨k, hk, hds⟩ := t
  obtain rfl : k = l := decimal_inj hds hs hlen.symm ht
  rfl

theorem Digits.Plain.unique (hs : s.Plain) (ht : t.Plain) (h : decimal s.list = decimal t.list) :
    s = t := by
  by_contra hne
  have h1 := hs.shortest.least t h.symm (Ne.symm hne)
  have h2 := ht.shortest.least s h hne
  omega

end Shortest

section Print
variable {i : Word}

theorem digit_toNat (i : Word) : (ch '0' + (i % 10).setWidth 8).toNat = 48 + i.toNat % 10 := by
  show (48 + i.toNat % 10 % 256) % 256 = _
  omega

theorem isdigit_digit (i : Word) : isdigit (ch '0' + (i % 10).setWidth 8) := by
  rw [isdigit_iff, digit_toNat]
  omega

theorem PrintBuf.drop_put (buf : PrintBuf) {p : Nat} (hp : p < 11) (c : Byte) :
    (buf.put ⟨p, hp⟩ c).bytes.toList.drop p = c :: buf.bytes.toList.drop (p + 1) := by
  have hlen : p < (buf.bytes.toList.set p c).length := by
    rw [List.length_set, Vector.length_toList]
    omega
  rw [PrintBuf.put, Vector.toList_set, List.drop_eq_getElem_cons hlen, List.getElem_set_self,
    List.drop_set_of_lt (Nat.lt_succ_self p)]

theorem PrintBuf.drop_last (buf : PrintBuf) : buf.bytes.toList.drop 11 = [0] := by
  rw [List.drop_eq_getElem_cons (by simp), List.drop_of_length_le (by simp)]
  exact congrArg (· :: []) buf.terminated

/-- The loop stores a number of at most `p` digits in front of `p`. -/
theorem printiLoop_spec {p : Nat} (hp : p ≤ 11) (buf : PrintBuf) (h0 : 0 < p)
    (hi : i.toNat < 10 ^ p) : ∃ (q : Nat) (buf' : PrintBuf) (s : Digits),
      printiLoop p hp buf i = some (q, buf') ∧
      buf'.bytes.toList.drop q = s.list ++ buf.bytes.toList.drop p ∧
      s.Plain ∧ decimal s.list = i.toNat := by
  induction p generalizing buf i with
  | zero => cases h0
  | succ p ih =>
    have hd := digit_toNat i
    have hdig := isdigit_digit i
    rw [printiLoop]
    generalize ch '0' + (i % 10).setWidth 8 = c at hd hdig
    have hput := buf.drop_put hp c
    have hdiv : (i / 10).toNat = i.toNat / 10 := BitVec.toNat_udiv
    by_cases hz : i / 10 = 0
    · rw [hz] at hdiv
      refine ⟨p, _, .one c hdig, if_neg (not_not.mpr hz), hput, fun hc => ?_, ?_⟩
      · exact congrArg (· :: []) (Option.some.inj hc)
      · show (c.toNat - 48) * 10 ^ 0 + 0 = _
        change 0 = _ at hdiv
        omega
    · have hne : i.toNat / 10 ≠ 0 := fun he => hz (BitVec.eq_of_toNat_eq (hdiv.trans he))
      have hlt : (i / 10).toNat < 10 ^ p := by
        rw [Nat.pow_succ] at hi
        omega
      have hpos : 0 < p := by
        rcases Nat.eq_zero_or_pos p with rfl | hpos
        · omega
        · exact hpos
      obtain ⟨q, buf', s, hr, hdrop, hs, hval⟩ := ih (by omega) (buf.put ⟨p, hp⟩ c) hpos hlt
      refine ⟨q, buf', s.more c hdig, (if_pos hz).trans hr, ?_, fun hc => ?_, ?_⟩
      · rw [hdrop, hput, Digits.more, List.append_assoc]
        rfl
      · -- a leading zero would be all that is in front of the last digit
        rw [Digits.more, List.head?_append_of_ne_nil _ s.nonempty] at hc
        rw [hs hc] at hval
        exact absurd (hval.symm.trans rfl) (by rw [hdiv]; exact hne)
      · rw [Digits.more, decimal_append, hval, hd, hdiv]
        omega

theorem printi_spec (buf : PrintBuf) (n : Word) : ∃ (s : Digits) (buf' : PrintBuf),
    (∀ (t : Terminal) color, t.printi buf n color = some (t.print s.list color, buf')) ∧
      s.Plain ∧ decimal s.list = n.toNat := by
  obtain ⟨q, buf', s, hr, hdrop, hs, hval⟩ := printiLoop_spec le_rfl buf (by decide)
    (n.isLt.trans (by decide : 2 ^ 32 < 10 ^ 11))
  have htext : buf'.text q = s.list := by
    rw [PrintBuf.text, hdrop, buf.drop_last, List.takeWhile_append_of_pos]
    · simp
    · intro d hd
      have hge := (isdigit_iff.mp (s.digits d hd)).1
      exact bne_iff_ne.mpr fun he => by simp [he] at hge
  refine ⟨s, buf', fun t color => ?_, hs, hval⟩
  rw [Terminal.printi, hr, ← htext]
  rfl

end Print

/-- What printi prints is the shortest decimal representation and katoi gives the number
back; digits without leading zeros are printed again as they were read. -/
theorem printi_katoi_inverse (buf : PrintBuf) :
    (∀ n : Word, ∃ (s : Digits) (buf' : PrintBuf),
      (∀ (t : Terminal) color, t.printi buf n color = some (t.print s.list color, buf')) ∧
        s.Shortest n.toNat ∧ katoi s.list = n) ∧
    ∀ s : Digits, s.Plain → decimal s.list < 2 ^ 32 → ∃ buf', ∀ (t : Terminal) color,
      t.printi buf (katoi s.list) color = some (t.print s.list color, buf') := by
  refine ⟨fun n => ?_, fun s hs hlt => ?_⟩
  · obtain ⟨s, buf', hr, hs, hval⟩ := printi_spec buf n
    refine ⟨s, buf', hr, hval ▸ hs.shortest, ?_⟩
    rw [katoi_eq s.digits, hval, BitVec.ofNat_toNat, BitVec.setWidth_eq]
  · obtain ⟨s', buf', hr, hs', hval⟩ := printi_spec buf (katoi s.list)
    rw [katoi_eq s.digits, toNat_ofNat_of_lt hlt] at hval
    rw [hs'.unique hs hval] at hr
    exact ⟨buf', hr⟩

def maxDigits : Digits := ⟨"4294967295".toList.map ch, by decide, by decide⟩

theorem printi_katoi_inverse_max : ∃ buf', ∀ (t : Terminal) color,
    t.printi default (katoi maxDigits.list) color = some (t.print maxDigits.list color, buf') :=
  (printi_katoi_inverse default).2 maxDigits (fun h => absurd h (by decide)) (by decide)

end TapiOS.Tty
