import TapiOS.Network.Isolation
import TapiOS.Network.Sequence

/-!
# The answers to SYN and FIN

tcp.c computes the acknowledgement of a SYN or FIN in three places: twice by adding a
swapped 1 to the number of the segment, once by incrementing the number it stored
before. None of them looks at the payload of the segment.
-/
namespace TapiOS.Network.Acknowledge

open Util Network Network.Sequence

/-- The bytes of payload that the headers of a segment announce. -/
def payloadLength (fr : Frame) : Nat :=
  (htons (fr.ip.length.setWidth 32)).toNat - 4 * fr.ip.ihl.toNat - 4 * fr.tcp.opts.offset.toNat

/-- The number that follows the segment and its SYN or FIN. -/
def following (fr : Frame) : Word :=
  htonl fr.tcp.seqNo + BitVec.ofNat 32 (payloadLength fr) + 1

/-- SYN+ACK, or a FIN that is answered with an ACK. -/
def answered (opts : TcpOpts) (state : Byte) : Bool :=
  (opts.syn && opts.ack) || (opts.fin && state == FIN_WAIT2) ||
    (opts.fin && opts.ack && (state == FIN_WAIT1 || state == CONNECTED))

/-- A FIN on an established connection must follow what was acknowledged last; any other
segment must be empty, with a number whose low byte is not 255. -/
def Acknowledgeable (sock : Socket) (fr : Frame) : Prop :=
  if !(fr.tcp.opts.syn && fr.tcp.opts.ack) && sock.state == CONNECTED then
    htonl sock.ackNo = htonl fr.tcp.seqNo + BitVec.ofNat 32 (payloadLength fr)
  else payloadLength fr = 0 ∧ wordByte (htonl fr.tcp.seqNo) 0 ≠ 255

instance (sock : Socket) (fr : Frame) : Decidable (Acknowledgeable sock fr) :=
  inferInstanceAs (Decidable (if !(fr.tcp.opts.syn && fr.tcp.opts.ack) &&
    sock.state == CONNECTED then _ else _))

theorem noCarry_low {n c : Word} (hc : c.toNat < 256) :
    NoCarry n c ↔ n.toNat % 256 + c.toNat < 256 := by
  have hz (i : Nat) (hi : 256 ≤ 256 ^ i) : (wordByte c i).toNat = 0 := by
    rw [toNat_wordByte, Nat.div_eq_of_lt (hc.trans_le hi)]
  have hlow (x : Word) : (wordByte x 0).toNat = x.toNat % 256 := by
    rw [toNat_wordByte, Nat.pow_zero, Nat.div_one]
  rw [noCarry_iff, hz 1 (by omega), hz 2 (by omega), hz 3 (by omega), hlow, hlow,
    Nat.mod_eq_of_lt hc]
  omega

theorem low_byte_iff (n : Word) : wordByte n 0 = 255 ↔ n.toNat % 256 = 255 := by
  rw [← BitVec.toNat_inj, toNat_wordByte, Nat.pow_zero, Nat.div_one]
  rfl

theorem noCarry_one (n : Word) : NoCarry n 1 ↔ wordByte n 0 ≠ 255 := by
  rw [noCarry_low (by decide), Ne, low_byte_iff, show (1 : Word).toNat = 1 from rfl]
  omega

/-- With a low byte of 255 the number falls back by 255: a swapped 255 and a swapped 1
add up to 0. -/
theorem swapped_add_one_carry {s : Word} (h : wordByte (htonl s) 0 = 255) :
    htonl (s + htonl 1) = htonl s - 255 := by
  have hn := (low_byte_iff _).mp h
  have hadd : htonl (htonl s - 255) + htonl 255 = s := by
    have hc : NoCarry (htonl s - 255) 255 := by
      rw [noCarry_low (by decide)]
      bv_omega
    rw [(htonl_add_iff _ _).mpr hc, BitVec.sub_add_cancel, htonl_htonl]
  have hone : htonl 255 + htonl 1 = 0#32 := by decide
  calc htonl (s + htonl 1) = htonl (htonl (htonl s - 255) + (htonl 255 + htonl 1)) := by
        rw [← BitVec.add_assoc, hadd]
    _ = htonl s - 255 := by rw [hone, BitVec.add_zero, htonl_htonl]

theorem payloadLength_lt (fr : Frame) : payloadLength fr < 65536 := by
  have h : (htons (fr.ip.length.setWidth 32)).toNat < 65536 := by
    rw [← htons_setWidth, BitVec.toNat_setWidth_of_le (by decide)]
    exact BitVec.isLt _
  unfold payloadLength
  omega

/-- Adding a swapped 1 acknowledges empty segments whose number has no low byte 255. -/
theorem swapped_one_iff (fr : Frame) : htonl (fr.tcp.seqNo + htonl 1) = following fr ↔
    payloadLength fr = 0 ∧ wordByte (htonl fr.tcp.seqNo) 0 ≠ 255 := by
  have hlt := payloadLength_lt fr
  unfold following
  by_cases hw : wordByte (htonl fr.tcp.seqNo) 0 = 255
  · rw [swapped_add_one_carry hw]
    refine ⟨fun h => ?_, fun h => absurd hw h.2⟩
    bv_omega
  · rw [(swapped_add_iff _ _).mpr ((noCarry_one _).mpr hw)]
    refine ⟨fun h => ⟨?_, hw⟩, fun h => ?_⟩
    · bv_omega
    · rw [h.1, BitVec.add_zero]

section Answers
variable {mac : Mac} {net net' : Net} {sock : Word} {fr : Frame}

/-- The number in the answer: the stored one plus 1 for a FIN on an established
connection, else the segment's with a swapped 1 added. -/
def answerNo (sock : Socket) (fr : Frame) : Word :=
  if !(fr.tcp.opts.syn && fr.tcp.opts.ack) && sock.state == CONNECTED then
    htonl (htonl sock.ackNo + 1)
  else fr.tcp.seqNo + htonl 1

theorem handleClosing_sent (hs : (net.heap sock).state ≠ LAST_ACK)
    (h : handleClosing mac net sock fr = some net') :
    net'.sent = (tcpSendPacket mac net sock fr.tcp.ackNo (fr.tcp.seqNo + htonl 1) ackOpts).sent := by
  simp only [handleClosing, ne_eq, hs, not_false_eq_true, ↓reduceIte] at h
  split at h
  · cases h
  · next v net1 hr =>
    have hsent := (tcpRemoveConnection_effect hr).1
    split at h
    · cases h
      exact hsent
    · cases h
      rw [(socketFree_effect _ v).1, modify_sent, hsent]

theorem handleSocket_answer (ha : answered fr.tcp.opts (net.heap sock).state)
    (h : handleSocket mac net sock fr = some net') :
    ∃ p, net'.sent = p :: net.sent ∧ p.tcp.opts.ack ∧
      p.tcp.ackNo = answerNo (net.heap sock) fr := by
  unfold answerNo
  simp only [handleSocket] at h
  by_cases hsyn : (fr.tcp.opts.syn && fr.tcp.opts.ack)
  · rw [if_pos hsyn, Option.some.injEq] at h
    obtain ⟨p, hp, hack, hopt⟩ := send_sent mac net sock fr.tcp.ackNo (fr.tcp.seqNo + htonl 1) ackOpts
    exact ⟨p, by rw [← h, modify_sent, hp], hopt, by simp [hsyn, hack]⟩
  rw [if_neg hsyn] at h
  simp only [answered, hsyn, Bool.false_or] at ha
  by_cases hst : (net.heap sock).state = CONNECTED
  · -- FIN and ACK on an established connection
    simp only [hst, CONNECTED, FIN_WAIT1, FIN_WAIT2, LAST_ACK, closes, BitVec.reduceBEq,
      Bool.and_false, Bool.or_false, Bool.false_or, Bool.and_true, Bool.false_eq_true,
      ↓reduceIte] at h ha
    obtain ⟨hf, hk⟩ := Bool.and_eq_true_iff.mp ha
    rw [if_pos hf, Option.some.injEq] at h
    obtain ⟨p, hp, hack, hopt⟩ := send_sent mac net sock (net.heap sock).seqNo
      (htonl (htonl (net.heap sock).ackNo + 1)) { fin := true, ack := fr.tcp.opts.ack }
    refine ⟨p, ?_, hopt.trans hk, ?_⟩
    · rw [← h, handleFin, modify_sent, ← hp, if_pos hk]
    · rw [hack]
      simp [hsyn, hst]
  · have hst' : ((net.heap sock).state == CONNECTED) = false := by simpa using hst
    simp only [hst', Bool.or_false] at ha
    have hclose : closes fr.tcp.opts (net.heap sock).state := by
      rw [closes, ha, Bool.true_or]
    have hlast : (net.heap sock).state ≠ LAST_ACK := by
      intro he
      rw [he] at ha
      simp [FIN_WAIT1, FIN_WAIT2, LAST_ACK] at ha
    rw [if_pos hclose] at h
    obtain ⟨p, hp, hack, hopt⟩ := send_sent mac net sock fr.tcp.ackNo (fr.tcp.seqNo + htonl 1) ackOpts
    exact ⟨p, by rw [handleClosing_sent hlast h, hp], hopt, by simp [hst', hack]⟩

theorem answerNo_iff (s : Socket) (fr : Frame) :
    htonl (answerNo s fr) = following fr ↔ Acknowledgeable s fr := by
  unfold answerNo Acknowledgeable
  split_ifs
  · rw [htonl_htonl, following, BitVec.add_left_inj]
  · exact swapped_one_iff fr

end Answers

/-- For every segment with SYN+ACK, or with a FIN that the state of its socket makes the
kernel answer with an ACK: one such answer is sent, and its number is the segment's plus
its payload plus 1 exactly when the segment is `Acknowledgeable`. -/
theorem answer_acknowledges_iff (mac : Mac) (net net1 net' : Net) (sock : Word) (fr : Frame)
    (hr : handleReset net fr = some net1) (hf : net1.find (portTest net1 fr) = some sock)
    (h0 : sock ≠ 0) (ha : answered fr.tcp.opts (net1.heap sock).state)
    (h : tcpHandleFrame mac net fr = some net') :
    ∃ p, net'.sent = p :: net.sent ∧ p.tcp.opts.ack ∧
      (htonl p.tcp.ackNo = following fr ↔ Acknowledgeable (net1.heap sock) fr) := by
  simp only [tcpHandleFrame, hr, demultiplex, hf, ne_eq, h0, not_false_eq_true, ↓reduceIte] at h
  obtain ⟨p, hp, hopt, hno⟩ := handleSocket_answer ha h
  refine ⟨p, ?_, hopt, ?_⟩
  · rw [hp, handleReset_sent hr]
  · rw [hno]
    exact answerNo_iff _ _

/-- A SYN+ACK with number `n` for the second of `Isolation.twoSockets`. -/
def synAck (n : Word) : Frame :=
  let fr := Isolation.bareFrame ⟨2, 80, 7⟩ { syn := true, ack := true, offset := 5 }
  { fr with tcp := { fr.tcp with seqNo := htonl n } }

theorem twoSockets_find (n : Word) : Isolation.twoSockets.find
    (portTest Isolation.twoSockets (synAck n)) = some 0x2000#32 := by
  rfl

theorem answer_acknowledges_synAck : ∃ net', tcpHandleFrame (Vector.replicate 6 0)
    Isolation.twoSockets (synAck 7) = some net' ∧ ∃ p, net'.sent = [p] ∧ htonl p.tcp.ackNo = 8 := by
  have hrun : (tcpHandleFrame (Vector.replicate 6 0) Isolation.twoSockets (synAck 7)).isSome := by
    decide
  obtain ⟨net', h⟩ := Option.isSome_iff_exists.mp hrun
  obtain ⟨p, hp, -, hiff⟩ := answer_acknowledges_iff _ _ _ net' _ _ rfl (twoSockets_find 7)
    (by decide) (by decide) h
  exact ⟨net', h, p, hp, hiff.mpr (by decide)⟩

/-- A SYN+ACK with number 255 is acknowledged with 0. -/
theorem synAck_acknowledged_with_zero :
    ¬ ∀ (mac : Mac) (net net1 net' : Net) (sock : Word) (fr : Frame) (p : TcpPacket),
      handleReset net fr = some net1 → net1.find (portTest net1 fr) = some sock → sock ≠ 0 →
      answered fr.tcp.opts (net1.heap sock).state →
      tcpHandleFrame mac net fr = some net' → net'.sent = p :: net.sent →
      htonl p.tcp.ackNo = following fr := by
  intro h
  have hrun : (tcpHandleFrame (Vector.replicate 6 0) Isolation.twoSockets (synAck 255)).map
      (fun net => net.sent.map (fun p => htonl p.tcp.ackNo)) = some [0] := by decide
  obtain ⟨net', hr, hs⟩ := Option.map_eq_some_iff.mp hrun
  obtain ⟨p, hp, hno⟩ := List.map_eq_singleton_iff.mp hs
  have hc := h _ _ _ net' _ _ p rfl (twoSockets_find 255) (by decide) (by decide) hr hp
  rw [hno] at hc
  exact absurd hc (by decide)

end TapiOS.Network.Acknowledge
