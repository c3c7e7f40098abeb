import Mathlib.Data.List.DropRight
import TapiOS.Util.Memory

/-!
# Reading a line, tty_read of drivers/tty.c

The keys are those kbd_read delivers, one by one; what is echoed on the screen is left out.
After a backspace the index is two below its old value when the newline test reads `to[i]`.
-/
namespace TapiOS.Drivers

open Util
open BitVec (ofNat)

def CHAR_BACKSPACE : Byte := 8

def newline : Byte := 10

/-- What tty_read has returned, `none` if it waits for a key, the memory, and the addresses
it has read or written. -/
structure LineRead where
  ret : Option Word
  mem : Mem
  log : List Word

def LineRead.after (l : List Word) (r : LineRead) : LineRead := { r with log := l ++ r.log }

/-- The loop of tty_read at the index `i`. -/
def ttyRead (canonical : Bool) (top count : Word) : List Byte → Word → Mem → LineRead
  | [], i, m => ⟨if i < count then none else some i, m, []⟩
  | c :: keys, i, m =>
    if i < count then
      let m := m.set (top + i) c
      if m (top + i) = CHAR_BACKSPACE ∧ canonical then
        if i = 0 then (ttyRead canonical top count keys i m).after [top + i]
        else
          let m := m.set (top + (i - 1)) 0
          let j := i - 1 - 1
          if m (top + j) = newline then ⟨some (j + 1), m, [top + i, top + (i - 1), top + j]⟩
          else (ttyRead canonical top count keys (j + 1) m).after [top + i, top + (i - 1), top + j]
      else if ¬ canonical then ⟨some 1, m, [top + i]⟩
      else if m (top + i) = newline then ⟨some (i + 1), m, [top + i]⟩
      else (ttyRead canonical top count keys (i + 1) m).after [top + i]
    else ⟨some i, m, []⟩

/-- The line that is edited: `none` until a newline is read or `count` characters are held. -/
def editLine (count : Nat) : List Byte → List Byte → Option (List Byte)
  | [], held => if held.length < count then none else some held
  | c :: keys, held =>
    if held.length < count then
      if c = CHAR_BACKSPACE then editLine count keys held.dropLast
      else if c = newline then some (held ++ [c])
      else editLine count keys (held ++ [c])
    else some held

/-- No backspace is read while exactly one character is held; `n` are held now. -/
def OneKept (count : Nat) : List Byte → Nat → Prop
  | [], _ => True
  | c :: keys, n => n < count →
    if c = CHAR_BACKSPACE then n ≠ 1 ∧ OneKept count keys (n - 1)
    else c ≠ newline → OneKept count keys (n + 1)

/-- The bytes before the returned index are the line, and all accesses are in the buffer. -/
structure Edits (r : LineRead) (top count : Word) (line : Option (List Byte)) : Prop where
  line : r.ret.map (fun n => bytesAt r.mem top n.toNat) = line
  inside : ∀ a ∈ r.log, ∃ j < count.toNat, a = top + ofNat 32 j

section Line
variable {r : LineRead} {top count : Word} {line : Option (List Byte)} {m : Mem} {n k : Nat}

theorem edits_after {l : List Word} (hl : ∀ a ∈ l, ∃ j < count.toNat, a = top + ofNat 32 j) :
    Edits (r.after l) top count line ↔ Edits r top count line := by
  constructor
  · exact fun h => ⟨h.line, fun a ha => h.inside a (List.mem_append_right _ ha)⟩
  · intro h
    refine ⟨h.line, fun a ha => ?_⟩
    exact (List.mem_append.mp ha).elim (hl a) (h.inside a)

theorem toNat_ofNat_le (hn : n ≤ count.toNat) : (ofNat 32 n).toNat = n := by
  exact Nat.mod_eq_of_lt (by omega)

theorem lt_count_iff (hn : n ≤ count.toNat) : ofNat 32 n < count ↔ n < count.toNat := by
  rw [BitVec.lt_def, toNat_ofNat_le hn]

theorem bytesAt_set (hn : n ≤ k) (hk : k < 2 ^ 32) (c : Byte) :
    bytesAt (m.set (top + ofNat 32 k) c) top n = bytesAt m top n := by
  refine bytesAt_congr fun i hi => Mem.set_other _ _ fun he => ?_
  have hik := congrArg BitVec.toNat ((BitVec.add_right_inj top).mp he)
  rw [BitVec.toNat_ofNat, BitVec.toNat_ofNat] at hik
  omega

theorem bytesAt_push (hk : k < 2 ^ 32) (c : Byte) :
    bytesAt (m.set (top + ofNat 32 k) c) top (k + 1) = bytesAt m top k ++ [c] := by
  rw [bytesAt_succ, bytesAt_set (Nat.le_refl k) hk, Mem.set_same]

/-- The `to[-1]` of a backspace with one character held is not in the buffer. -/
theorem not_edits_before (h : top + (1 - 1 - 1) ∈ r.log) : ¬ Edits r top count line := by
  intro he
  obtain ⟨j, hj, ha⟩ := he.inside _ h
  have hj' := congrArg BitVec.toNat ((BitVec.add_right_inj top).mp ha)
  rw [toNat_ofNat_le (Nat.le_of_lt hj)] at hj'
  have hlast : (1 - 1 - 1 : Word).toNat = 2 ^ 32 - 1 := by decide
  omega

theorem edits_full (hn : n ≤ count.toNat) :
    Edits ⟨some (ofNat 32 n), m, []⟩ top count (some (bytesAt m top n)) :=
  ⟨by rw [Option.map_some, toNat_ofNat_le hn], fun a ha => by cases ha⟩

/-- The loop with `n` characters held, none of them a newline. -/
theorem ttyRead_edits (keys : List Byte) (hn : n ≤ count.toNat) (hnl : newline ∉ bytesAt m top n) :
    Edits (ttyRead true top count keys (ofNat 32 n) m) top count
      (editLine count.toNat keys (bytesAt m top n)) ↔ OneKept count.toNat keys n := by
  induction keys generalizing n m with
  | nil =>
    refine iff_of_true ?_ trivial
    rw [ttyRead, editLine, bytesAt_length]
    by_cases hlt : n < count.toNat
    · rw [if_pos ((lt_count_iff hn).mpr hlt), if_pos hlt]
      exact ⟨rfl, fun a ha => by cases ha⟩
    · rw [if_neg (mt (lt_count_iff hn).mp hlt), if_neg hlt]
      exact edits_full hn
  | cons c keys ih =>
    rw [ttyRead, editLine, OneKept, bytesAt_length]
    by_cases hlt : n < count.toNat
    swap
    · rw [if_neg (mt (lt_count_iff hn).mp hlt), if_neg hlt]
      exact iff_of_true (edits_full hn) fun h => absurd h hlt
    have hpush : bytesAt (m.set (top + ofNat 32 n) c) top (n + 1) = bytesAt m top n ++ [c] :=
      bytesAt_push (by omega) c
    have hin : ∀ a ∈ [top + ofNat 32 n], ∃ j < count.toNat, a = top + ofNat 32 j :=
      fun a ha => ⟨n, hlt, List.mem_singleton.mp ha⟩
    rw [if_pos ((lt_count_iff hn).mpr hlt), if_pos hlt, imp_iff_right hlt]
    simp only [Mem.set_same, and_true, not_true_eq_false, if_false]
    by_cases hb : c = CHAR_BACKSPACE
    · rw [if_pos hb, if_pos hb, if_pos hb]
      match n with
      | 0 =>
        rw [if_pos (show ofNat 32 0 = 0 from rfl), edits_after hin]
        have := ih (m := m.set (top + ofNat 32 0) c) (Nat.zero_le _) hnl
        exact this.trans (and_iff_right Nat.zero_ne_one).symm
      | 1 =>
        rw [if_neg (by decide)]
        refine iff_of_false ?_ fun h => h.1 rfl
        split <;> exact not_edits_before (by simp [LineRead.after])
      | k + 2 =>
        have hone : ofNat 32 (k + 2) - 1 = ofNat 32 (k + 1) := by bv_omega
        have htwo : ofNat 32 (k + 1) - 1 = ofNat 32 k := by bv_omega
        generalize hm' : (m.set (top + ofNat 32 (k + 2)) c).set
          (top + ofNat 32 (k + 1)) 0 = m'
        have hheld : bytesAt m' top (k + 1) = bytesAt m top (k + 1) := by
          rw [← hm', bytesAt_set le_rfl (by omega), bytesAt_set (by omega) (by omega)]
        have hdrop : (bytesAt m top (k + 2)).dropLast = bytesAt m' top (k + 1) := by
          rw [bytesAt_succ, List.dropLast_concat, hheld]
        have hnl' : newline ∉ bytesAt m' top (k + 1) := fun h =>
          hnl (List.mem_of_mem_dropLast (hdrop ▸ h))
        have hk : m' (top + ofNat 32 k) ≠ newline := fun h =>
          hnl' (by rw [bytesAt_succ, h]; simp)
        have hin' : ∀ a ∈ [top + ofNat 32 (k + 2), top + ofNat 32 (k + 1),
            top + ofNat 32 k], ∃ j < count.toNat, a = top + ofNat 32 j := by
          simp only [List.forall_mem_cons, List.not_mem_nil, false_imp_iff, implies_true, and_true]
          exact ⟨⟨k + 2, hlt, rfl⟩, ⟨k + 1, by omega, rfl⟩, ⟨k, by omega, rfl⟩⟩
        have hback : ofNat 32 k + 1 = ofNat 32 (k + 1) := (BitVec.ofNat_add ..).symm
        rw [if_neg (by bv_omega), hone, htwo, hm', if_neg hk, edits_after hin', hdrop, hback]
        exact (ih (by omega) hnl').trans (and_iff_right (by omega)).symm
    · rw [if_neg hb, if_neg hb, if_neg hb]
      have hnext : ofNat 32 n + 1 = ofNat 32 (n + 1) := (BitVec.ofNat_add ..).symm
      by_cases hc : c = newline
      · rw [if_pos hc, if_pos hc, hnext, ← hpush]
        refine iff_of_true ⟨?_, hin⟩ fun h => absurd hc h
        rw [Option.map_some, toNat_ofNat_le hlt]
      · rw [if_neg hc, if_neg hc, edits_after hin, imp_iff_right hc, ← hpush, hnext]
        refine ih hlt ?_
        rw [hpush, List.mem_append, List.mem_singleton]
        exact not_or.mpr ⟨hnl, Ne.symm hc⟩

end Line

/-- tty_read edits the line, inside its buffer, unless the first character is taken back when
it is the only one. -/
theorem line_edited_iff (top count : Word) (keys : List Byte) (m : Mem) :
    Edits (ttyRead true top count keys 0 m) top count (editLine count.toNat keys []) ↔
      OneKept count.toNat keys 0 :=
  ttyRead_edits keys (Nat.zero_le _) List.not_mem_nil

/-- A newline in front of the buffer ends the line that has become empty. -/
theorem empty_line_returned :
    (ttyRead true 1000 2 [0x61, CHAR_BACKSPACE] 0 fun _ => newline).ret = some 0 ∧
      editLine 2 [0x61, CHAR_BACKSPACE] [] = none ∧
      ¬ Edits (ttyRead true 1000 2 [0x61, CHAR_BACKSPACE] 0 fun _ => newline) 1000 2
        (editLine 2 [0x61, CHAR_BACKSPACE] []) := by
  refine ⟨by decide, by decide, fun h => ?_⟩
  have hret := h.line
  revert hret
  decide +kernel

end TapiOS.Drivers
