import TapiOS.Network.Checksum
import TapiOS.Network.Sequence
import TapiOS.Util.Frames

/-!
# Sending on a socket, network/socket.c and drivers/rtl8139.c

socket_write builds the frame on the stack and hands it to rtl8139_tx, which copies it to the
current one of four buffers of 2048 bytes, programs its length into the card and returns it.
-/
namespace TapiOS.Network.Transmit

open Util Network.Sequence

def TXSTAT : Word := 0x10
def TXBUF : Word := 0x20

/-- What populate_netdev allocates for each of the four buffers. -/
def txBufSize : Nat := 2048

/-- sizeof(struct tcp_packet) -/
def tcpPacketSize : Word := 54

def ethernetBytes (h : EthernetHeader) : List Byte :=
  h.macDst.toList ++ h.macSrc.toList ++ bytesOf [h.ethertype]

/-- The memory of a struct tcp_packet up to its data. -/
def packetHeader (p : TcpPacket) : List Byte :=
  ethernetBytes p.eth ++ p.ipv4.bytes ++ bytesOf p.tcp.words

/-- The frame as socket_write has it on the stack. -/
def packetBytes (p : TcpPacket) : List Byte := packetHeader p ++ p.data

/-- The transmitting side of struct network_device. -/
structure NetworkDevice where
  ioBase : Word
  mac : Mac
  txBuf : Vector Word 4
  txPos : Fin 4
  txBuffersFree : Byte

/-- One outdw. -/
structure PortWrite where
  port : Half
  value : Word
  deriving DecidableEq

/-- Memory, the device and what was written to its ports, latest first. -/
structure Card where
  mem : Mem
  dev : NetworkDevice
  ports : List PortWrite

/-- The buffer that the next frame goes to. -/
def Card.buffer (c : Card) : Word := c.dev.txBuf.get c.dev.txPos

/-- A register of the current buffer. -/
def Card.register (c : Card) (base : Word) : Half :=
  (c.dev.ioBase + base + 4 * BitVec.ofNat 32 c.dev.txPos.val).setWidth 16

/-- rtl8139_tx; `data` are the bytes from the pointer on, none if it is NULL, and `phys` is
vaddr_to_physaddr. -/
def rtl8139Tx (phys : Word → Word) (c : Card) (data : Option (List Byte)) (len : Word) :
    Word × Card :=
  match data with
  | none => (-1, c)
  | some bytes =>
    let mem := c.mem.setBytes c.buffer (bytes.take len.toNat)
    let ports := ⟨c.register TXBUF, phys c.buffer⟩ :: c.ports
    let ports := ⟨c.register TXSTAT, len &&& 0xFFF⟩ :: ports
    let dev := { c.dev with
      txPos := c.dev.txPos + 1, txBuffersFree := c.dev.txBuffersFree - 1 }
    (len, ⟨mem, dev, ports⟩)

/-- What socket_write returns and leaves behind. -/
structure Written where
  result : Word
  card : Card
  net : Net

/-- The segment for `count` bytes at `data`. -/
def frameOf (c : Card) (net : Net) (s data count : Word) : TcpPacket :=
  dataSegment c.dev.mac net s (bytesAt c.mem data count.toNat)

/-- socket_write with its device; sizeof(buf) wraps like every size_t. -/
def socketWriteTo (phys : Word → Word) (c : Card) (net : Net) (s data count : Word) : Written :=
  let p := frameOf c net s data count
  let net' := socketWrite c.dev.mac net s (bytesAt c.mem data count.toNat)
  let (result, c') := rtl8139Tx phys c (some (packetBytes p)) (tcpPacketSize + count)
  ⟨result, c', net'⟩

/-- One frame is in the current buffer and inside of it, and the card got its address and its
full length. -/
structure Placed (phys : Word → Word) (c : Card) (p : TcpPacket) (count : Nat) (c' : Card) :
    Prop where
  inside : 54 + count ≤ txBufSize
  frame : bytesAt c'.mem c.buffer (54 + count) = packetBytes p
  outside : ChangesOnly (span c.buffer txBufSize) c.mem c'.mem
  programmed : ∃ stat, stat.toNat = 54 + count ∧
    c'.ports = ⟨c.register TXSTAT, stat⟩ :: ⟨c.register TXBUF, phys c.buffer⟩ :: c.ports
  next : c'.dev.txPos = c.dev.txPos + 1

/-- Every byte was sent: the frame is placed and the count is returned. -/
def Sent (phys : Word → Word) (c : Card) (p : TcpPacket) (count : Word) (w : Written) : Prop :=
  Placed phys c p count.toNat w.card ∧ w.result = count

/-- A negative value is returned, and ring and sequence number are as before. -/
structure Refused (c : Card) (net : Net) (s : Word) (w : Written) : Prop where
  negative : w.result.toInt < 0
  ring : w.card = c
  seqNo : (w.net.heap s).seqNo = (net.heap s).seqNo

section Send
variable (phys : Word → Word) (c : Card) (net : Net) (s data count : Word)

theorem packetHeader_length (p : TcpPacket) : (packetHeader p).length = 54 := by
  simp [packetHeader, ethernetBytes, Ipv4Header.bytes, bytesOf, Ipv4Header.words,
    TcpHeader.words]

theorem frameOf_length : (packetBytes (frameOf c net s data count)).length = 54 + count.toNat := by
  rw [packetBytes, List.length_append, packetHeader_length]
  exact congrArg (54 + ·) (bytesAt_length _ _ _)

/-- The frame is sent off whatever its length, and this length is returned. -/
theorem socketWriteTo_result : (socketWriteTo phys c net s data count).result = 54 + count := rfl

theorem socketWriteTo_txPos :
    (socketWriteTo phys c net s data count).card.dev.txPos = c.dev.txPos + 1 := rfl

/-- The frame is placed exactly if it is not longer than the buffer. -/
theorem placed_iff :
    Placed phys c (frameOf c net s data count) count.toNat
        (socketWriteTo phys c net s data count).card ↔ 54 + count.toNat ≤ 2048 := by
  constructor
  · intro h
    exact h.inside
  · intro hle
    have hlen := frameOf_length c net s data count
    have hsum : (tcpPacketSize + count).toNat = 54 + count.toNat := by
      exact Nat.mod_eq_of_lt (by change 54 + _ < _; omega)
    have htake : (packetBytes (frameOf c net s data count)).take (tcpPacketSize + count).toNat =
        packetBytes (frameOf c net s data count) := by
      rw [hsum, ← hlen]
      exact List.take_length
    have hmem : (socketWriteTo phys c net s data count).card.mem =
        c.mem.setBytes c.buffer (packetBytes (frameOf c net s data count)) :=
      congrArg (c.mem.setBytes c.buffer) htake
    refine ⟨hle, ?_, ?_, ⟨(tcpPacketSize + count) &&& 0xFFF, ?_, rfl⟩, rfl⟩
    · rw [hmem, ← hlen]
      exact bytesAt_setBytes _ _ _ (by omega)
    · rw [hmem]
      apply (Mem.setBytes_changes _ _ _).mono
      intro x hx
      rw [hlen] at hx
      exact lt_of_lt_of_le hx hle
    · -- the length field has twelve bits
      rw [BitVec.toNat_and, hsum]
      change _ &&& (2 ^ 12 - 1) = _
      rw [Nat.and_two_pow_sub_one_eq_mod]
      exact Nat.mod_eq_of_lt (by omega)

/-- No call sends every byte and says so, and none is refused: the length of the frame is
returned in place of the count, and the ring always moves on. All but the returned value is
right exactly if the frame fits the buffer. -/
theorem socket_write_iff :
    (Sent phys c (frameOf c net s data count) count (socketWriteTo phys c net s data count) ∨
        Refused c net s (socketWriteTo phys c net s data count) ↔ False) ∧
      (Placed phys c (frameOf c net s data count) count.toNat
        (socketWriteTo phys c net s data count).card ↔ 54 + count.toNat ≤ 2048) := by
  refine ⟨⟨?_, False.elim⟩, placed_iff phys c net s data count⟩
  intro h
  rcases h with hsent | hrefused
  · have hr := (socketWriteTo_result phys c net s data count).symm.trans hsent.2
    bv_omega
  · have hpos := congrArg (·.dev.txPos) hrefused.ring
    rw [socketWriteTo_txPos] at hpos
    revert hpos
    generalize c.dev.txPos = i
    revert i
    decide

end Send

/-- Cleared memory with the four buffers behind one another. -/
def freshCard : Card where
  mem := fun _ => 0
  dev := ⟨0xC000, Vector.replicate 6 0, #v[0x1000, 0x1800, 0x2000, 0x2800], 0, 4⟩
  ports := []

/-- A write of 1995 bytes stores one byte behind the buffer and returns 2049. -/
theorem large_write_leaves_buffer : ∃ (net : Net) (s : Word),
    (socketWriteTo id freshCard net s 0x8000 1995).result = 2049 ∧
      (packetBytes (frameOf freshCard net s 0x8000 1995)).length = 2049 ∧
      ¬(Sent id freshCard (frameOf freshCard net s 0x8000 1995) 1995
          (socketWriteTo id freshCard net s 0x8000 1995) ∨
        Refused freshCard net s (socketWriteTo id freshCard net s 0x8000 1995)) := by
  refine ⟨⟨fun _ => clearedSocket, 0, 0, [], []⟩, 0x4000, by decide, frameOf_length _ _ _ _ _, ?_⟩
  intro h
  rcases h with hsent | hrefused
  · exact absurd hsent.1.inside (by decide)
  · exact absurd hrefused.negative (by decide)

end TapiOS.Network.Transmit
