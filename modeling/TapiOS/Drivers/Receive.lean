import TapiOS.Util.Frames
import TapiOS.Util.Pages

/-!
# The receive ring, drivers/rtl8139.c

The card stores a frame behind a header of two halves, status and length, and the next one at
the following multiple of four, modulo the length of the ring. A frame that starts inside of
the ring is not cut at its end, as RCR has the WRAP bit. CAPR stays 16 behind the offset up to
which the driver has read. rtl8139_isr passes the frames on until the card has no more.
-/
namespace TapiOS.Drivers.Receive

open Util
open BitVec (ofNat)

def RXBUF_EMPTY : BitVec 16 := 1
def RX_READ_POINTER_MASK : BitVec 16 := ~~~3
def RXBUF_LEN : Nat := 8192
def MTU : Nat := 1500
def ROK : BitVec 16 := 1

/-- What populate_netdev allocates. -/
def rxBufSize : Nat := RXBUF_LEN + MTU + 16

/-- Memory, the receiving side of struct network_device, and of the card CAPR and the offset
of the next frame. -/
structure Receiver where
  mem : Mem
  rxBuf : Word
  rxPos : BitVec 16
  capr : BitVec 16
  next : Nat

namespace Receiver

/-- `inw(rtl->io_base+CMD)`, of which only RXBUF_EMPTY is read. -/
def cmd (r : Receiver) : BitVec 16 :=
  if (r.capr + 0x10).toNat % 0x2000 = r.next then RXBUF_EMPTY else 0

def rxLen (r : Receiver) : BitVec 16 := r.mem.half (r.rxBuf + r.rxPos.setWidth 32 + 2)

/-- The body of the loop, with the frame that ethernet_handle_frame gets. -/
def pass (r : Receiver) : List Byte × Receiver :=
  let data := r.rxBuf + r.rxPos.setWidth 32 + 4
  let rxPos := (r.rxPos + r.rxLen + 4 + 3) &&& RX_READ_POINTER_MASK
  (bytesAt r.mem data r.rxLen.toNat, { r with rxPos := rxPos % 0x2000, capr := rxPos - 0x10 })

/-- At most `n` passes. -/
def loop : Nat → Receiver → Option (List (List Byte) × Receiver)
  | 0, r => if r.cmd &&& RXBUF_EMPTY = 0 then none else some ([], r)
  | n + 1, r =>
    if r.cmd &&& RXBUF_EMPTY = 0 then (loop n r.pass.2).map fun x => (r.pass.1 :: x.1, x.2)
    else some ([], r)

end Receiver

/-- The frames that are handed to ethernet_handle_frame, for the status that ISR reads. -/
def rtl8139Isr (n : Nat) (status : BitVec 16) (r : Receiver) :
    Option (List (List Byte) × Receiver) :=
  if status &&& ROK = 0 then some ([], r) else r.loop n

/-- What a frame takes of the ring. -/
def slot (f : List Byte) : Nat := (f.length + 4 + 3) / 4 * 4

/-- A frame behind its header. -/
def packed (f : List Byte) : List Byte :=
  let len := ofNat 16 f.length
  1 :: 0 :: len.extractLsb' 0 8 :: len.extractLsb' 8 8 :: f

namespace Receiver

/-- The bytes from the card's offset to where the driver reads next. -/
def room (r : Receiver) : Nat :=
  0x2000 - (r.next + 0x2000 - (r.capr + 0x10).toNat % 0x2000) % 0x2000

/-- The card stores a frame. -/
def receive (r : Receiver) (f : List Byte) : Receiver :=
  { r with mem := r.mem.setBytes (r.rxBuf + ofNat 32 r.next) (packed f)
           next := (r.next + slot f) % 0x2000 }

end Receiver

/-- A frame comes in, or the handler makes its next pass. -/
inductive Event where
  | arrive (f : List Byte)
  | pass

/-- With the frames that the card has stored and those that were passed on. -/
structure History where
  rx : Receiver
  stored : List (List Byte)
  handed : List (List Byte)

/-- After register_rtl8139_driver; the reset has put 0xFFF0 into CAPR. -/
def start (mem : Mem) (rxBuf : Word) : History := ⟨⟨mem, rxBuf, 0, 0xFFF0, 0⟩, [], []⟩

/-- The card drops a frame that has no room. -/
def step (s : History) : Event → History
  | .arrive f => if slot f < s.rx.room then
      { s with rx := s.rx.receive f, stored := s.stored ++ [f] } else s
  | .pass => if s.rx.cmd &&& RXBUF_EMPTY = 0 then
      { s with rx := s.rx.pass.2, handed := s.handed ++ [s.rx.pass.1] } else s

/-- The frames stand one behind the other from offset `o` of the ring to offset `e`. -/
def Holds (m : Mem) (rxBuf : Word) : Nat → List (List Byte) → Nat → Prop
  | o, [], e => o = e
  | o, f :: fs, e => bytesAt m (rxBuf + ofNat 32 o) (packed f).length = packed f ∧
      Holds m rxBuf ((o + slot f) % 0x2000) fs e

/-- The frames that wait in the ring. -/
structure Waiting (r : Receiver) (fs : List (List Byte)) : Prop where
  frames : Holds r.mem r.rxBuf r.rxPos.toNat fs r.next
  capr : (r.capr + 0x10).toNat % 0x2000 = r.rxPos.toNat
  aligned : r.rxPos.toNat % 4 = 0
  fits : (fs.map slot).sum < 0x2000

variable {m m' : Mem} {a rxBuf : Word} {f : List Byte} {fs : List (List Byte)} {o e n : Nat}

theorem packed_le (f : List Byte) : (packed f).length ≤ slot f ∧ slot f % 4 = 0 := by
  simp only [packed, List.length_cons, slot]
  omega

theorem read_packed (h : bytesAt m a (packed f).length = packed f) :
    m.half (a + 2) = ofNat 16 f.length ∧ bytesAt m (a + 4) f.length = f := by
  simp only [packed, List.length_cons, bytesAt_cons, BitVec.add_assoc, List.cons.injEq] at h
  obtain ⟨-, -, hlow, hhigh, hrest⟩ := h
  refine ⟨?_, hrest⟩
  rw [Mem.half, BitVec.add_assoc]
  exact (congrArg₂ _ hhigh hlow).trans BitVec.extractLsb'_append_extractLsb'

theorem Holds.stop (h : Holds m rxBuf o fs e) (ho : o < 0x2000) :
    e = (o + (fs.map slot).sum) % 0x2000 := by
  induction fs generalizing o with
  | nil =>
    rw [← h]
    exact (Nat.mod_eq_of_lt ho).symm
  | cons f fs ih =>
    rw [ih h.2 (Nat.mod_lt _ (by decide)), List.map_cons, List.sum_cons, Nat.mod_add_mod,
      Nat.add_assoc]

/-- A store behind the frames that ends before they come round again. -/
theorem Holds.keep (h : Holds m rxBuf o fs e) (ho : o < 0x2000)
    (hm : ChangesOnly (span (rxBuf + ofNat 32 e) n) m m')
    (hn : (fs.map slot).sum + n ≤ 0x2000) : Holds m' rxBuf o fs e := by
  induction fs generalizing o with
  | nil => exact h
  | cons f fs ih =>
    have he := h.stop ho
    have hl := packed_le f
    rw [List.map_cons, List.sum_cons] at hn he
    have hd := span_disjoint rxBuf (o := o) (n := (packed f).length) (p := e) (k := n) (by omega)
      (by omega) (by omega)
    refine ⟨(bytesAt_congr fun i hi => hm.keeps hd (add_mem_span _ hi (by omega))).trans h.1,
      ih h.2 (Nat.mod_lt _ (by decide)) ?_⟩
    omega

theorem Holds.append (h : Holds m rxBuf o fs e)
    (hs : bytesAt m (rxBuf + ofNat 32 e) (packed f).length = packed f) :
    Holds m rxBuf o (fs ++ [f]) ((e + slot f) % 0x2000) := by
  induction fs generalizing o with
  | nil =>
    rw [show o = e from h]
    exact ⟨hs, rfl⟩
  | cons g fs ih => exact ⟨h.1, ih h.2⟩

section Waiting
variable {r : Receiver}

theorem Waiting.rxPos_lt (h : Waiting r fs) : r.rxPos.toNat < 0x2000 := by
  rw [← h.capr]
  exact Nat.mod_lt _ (by decide)

theorem Waiting.receive (h : Waiting r fs) (hr : slot f < r.room) :
    Waiting (r.receive f) (fs ++ [f]) := by
  have hp := h.rxPos_lt
  have he := h.frames.stop hp
  have hl := packed_le f
  have ht := h.fits
  rw [Receiver.room, h.capr] at hr
  have hsum : (fs.map slot).sum + slot f < 0x2000 := by
    omega
  have hm := Mem.setBytes_changes r.mem (r.rxBuf + ofNat 32 r.next) (packed f)
  refine ⟨(h.frames.keep hp hm (by omega)).append (bytesAt_setBytes _ _ _ (by omega)),
    h.capr, h.aligned, ?_⟩
  simpa using hsum

theorem Waiting.cmd_nil (h : Waiting r []) : r.cmd = RXBUF_EMPTY := if_pos (h.capr.trans h.frames)

variable (h : Waiting r (f :: fs))
include h

theorem Waiting.cmd_cons : r.cmd = 0 := by
  have hp := h.rxPos_lt
  have he := h.frames.stop hp
  have hl := packed_le f
  have ht := h.fits
  rw [List.map_cons, List.sum_cons] at he ht
  apply if_neg
  rw [h.capr, he]
  simp only [packed, List.length_cons] at hl
  omega

theorem Waiting.rxLen : r.rxLen.toNat = f.length ∧ r.pass.1 = f := by
  have hl := packed_le f
  have ht := h.fits
  have hs := h.frames.1
  rw [List.map_cons, List.sum_cons] at ht
  rw [BitVec.ofNat_toNat] at hs
  obtain ⟨hlen, hbytes⟩ := read_packed hs
  simp only [packed, List.length_cons] at hl
  have hnat : r.rxLen.toNat = f.length := by
    rw [Receiver.rxLen, hlen, toNat_ofNat_of_lt (by omega)]
  refine ⟨hnat, ?_⟩
  show bytesAt r.mem _ r.rxLen.toNat = f
  rw [hnat]
  exact hbytes

theorem Waiting.rxPos_pass : r.pass.2.rxPos.toNat = (r.rxPos.toNat + slot f) % 0x2000 := by
  have ha := h.aligned
  have hl : slot f = (f.length + 4 + 3) / 4 * 4 := rfl
  show (((r.rxPos + r.rxLen + 4 + 3) &&& BitVec.allOnes 16 <<< 2) % 0x2000).toNat = _
  rw [BitVec.toNat_umod, and_mask_toNat]
  simp only [BitVec.toNat_add, h.rxLen.1]
  show (((_ + _) % 2 ^ 16 + 4) % 2 ^ 16 + 3) % 2 ^ 16 / 4 * 4 % 8192 = _
  omega

theorem Waiting.pass : Waiting r.pass.2 fs := by
  have ht := h.fits
  have ha := h.aligned
  have hl := packed_le f
  have hpos := h.rxPos_pass
  rw [List.map_cons, List.sum_cons] at ht
  refine ⟨?_, ?_, by omega, by omega⟩
  · rw [hpos]
    exact h.frames.2
  · show (_ - 0x10 + 0x10 : BitVec 16).toNat % 0x2000 = _
    rw [BitVec.sub_add_cancel]
    rfl

omit h in
/-- The loop hands over what waits. -/
theorem Waiting.loop (h : Waiting r fs) (hn : fs.length ≤ n) :
    ∃ r', r.loop n = some (fs, r') ∧ Waiting r' [] := by
  induction fs generalizing r n with
  | nil =>
    refine ⟨r, ?_, h⟩
    cases n <;> exact if_neg (by rw [h.cmd_nil]; decide)
  | cons f fs ih =>
    obtain ⟨n, rfl⟩ := Nat.exists_eq_add_of_le' (Nat.one_le_of_lt hn)
    obtain ⟨r', hr, hw⟩ := ih h.pass (Nat.le_of_succ_le_succ hn)
    refine ⟨r', ?_, hw⟩
    rw [Receiver.loop, if_pos (by rw [h.cmd_cons]; decide), hr, h.rxLen.2]
    rfl

end Waiting

/-- What was stored and not passed on waits in the ring. -/
def Ordered (s : History) : Prop := ∃ fs, Waiting s.rx fs ∧ s.stored = s.handed ++ fs

theorem step_ordered {s : History} (h : Ordered s) (v : Event) : Ordered (step s v) := by
  obtain ⟨fs, hw, hs⟩ := h
  cases v with
  | arrive f =>
    by_cases hr : slot f < s.rx.room
    · rw [step, if_pos hr]
      exact ⟨fs ++ [f], hw.receive hr, by simp [hs]⟩
    · rw [step, if_neg hr]
      exact ⟨fs, hw, hs⟩
  | pass =>
    cases fs with
    | nil =>
      rw [step, if_neg (by rw [hw.cmd_nil]; decide)]
      exact ⟨[], hw, hs⟩
    | cons f fs =>
      rw [step, if_pos (by rw [hw.cmd_cons]; decide), hw.rxLen.2]
      exact ⟨fs, hw.pass, by simp [hs]⟩

theorem run_ordered (m : Mem) (rxBuf : Word) (events : List Event) :
    Ordered (events.foldl step (start m rxBuf)) := by
  have hc : (0xFFF0 + 0x10 : BitVec 16).toNat % 0x2000 = 0 := by decide
  exact events.foldlRecOn _ ⟨[], ⟨rfl, hc, rfl, by decide⟩, rfl⟩ fun _ hs v _ => step_ordered hs v

/-- Whatever the order of arrivals and passes, the stored frames are passed on in their order,
each once, and the next interrupt passes on all that are left. The frame that is read next ends
inside of the buffer if it has at most MTU + 16 bytes. -/
theorem frames_passed_on (m : Mem) (rxBuf : Word) (events : List Event) :
    let s := events.foldl step (start m rxBuf)
    ∃ left, s.stored = s.handed ++ left ∧
      (∀ n status, left.length ≤ n → status &&& ROK ≠ 0 →
        ∃ r, rtl8139Isr n status s.rx = some (left, r) ∧ r.cmd = RXBUF_EMPTY) ∧
      ∀ f ∈ left.head?, s.rx.rxLen.toNat = f.length ∧
        (f.length ≤ MTU + 16 → s.rx.rxPos.toNat + 4 + f.length ≤ rxBufSize) := by
  intro s
  obtain ⟨fs, hw, hs⟩ := run_ordered m rxBuf events
  refine ⟨fs, hs, fun n status hn hst => ?_, fun f hf => ?_⟩
  · obtain ⟨r, hr, hw'⟩ := hw.loop hn
    exact ⟨r, (if_neg hst).trans hr, hw'.cmd_nil⟩
  · obtain ⟨fs, rfl⟩ := List.head?_eq_some_iff.mp hf
    have hp : s.rx.rxPos.toNat < 0x2000 := hw.rxPos_lt
    have ha : s.rx.rxPos.toNat % 4 = 0 := hw.aligned
    refine ⟨hw.rxLen.1, fun hlen => ?_⟩
    show s.rx.rxPos.toNat + 4 + f.length ≤ 8192 + MTU + 16
    omega

end TapiOS.Drivers.Receive
