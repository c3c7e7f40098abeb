import TapiOS.Network.FrameReads

/-!
# Address resolution, network/arp.c

A `Node` is a host: its address, its network card, its sockets and the list that starts
at `arp_cache`. `kmalloc` hands out the blocks of `supply` in order, each with whatever
it happens to hold.
-/
namespace TapiOS.Network.Arp

open Lib Util Network

def ARP_REQUEST : Word := 1
def ARP_REPLY : Word := 2

structure ArpHeader where
  hwType : Half
  protocolType : Half
  hwSize : Byte
  protocolSize : Byte
  opcode : Half
  sourceMac : Mac
  sourceIp : Word
  targetMac : Mac
  targetIp : Word
  deriving DecidableEq

structure ArpPacket where
  ethHeader : EthernetHeader
  arpHeader : ArpHeader
  deriving DecidableEq

section Layout

/-! The packed structures in the memory of a little-endian machine. -/

def ArpHeader.bytes (p : ArpHeader) : List Byte :=
  halfBytes p.hwType ++ halfBytes p.protocolType ++ [p.hwSize, p.protocolSize] ++
    halfBytes p.opcode ++ p.sourceMac.toList ++ wordBytes p.sourceIp ++ p.targetMac.toList ++
    wordBytes p.targetIp

def ArpPacket.bytes (p : ArpPacket) : List Byte :=
  p.ethHeader.macDst.toList ++ p.ethHeader.macSrc.toList ++ halfBytes p.ethHeader.ethertype ++
    p.arpHeader.bytes

def halfAt (bs : List Byte) (i : Nat) : Half := bs.getD (i + 1) 0 ++ bs.getD i 0

def wordAt (bs : List Byte) (i : Nat) : Word := halfAt bs (i + 2) ++ halfAt bs i

def macAt (bs : List Byte) (i : Nat) : Mac := Vector.ofFn fun j => bs.getD (i + j.val) 0

/-- The memcpy into p.arp_header. -/
def ArpHeader.ofBytes (bs : List Byte) : ArpHeader where
  hwType := halfAt bs 0
  protocolType := halfAt bs 2
  hwSize := bs.getD 4 0
  protocolSize := bs.getD 5 0
  opcode := halfAt bs 6
  sourceMac := macAt bs 8
  sourceIp := wordAt bs 14
  targetMac := macAt bs 18
  targetIp := wordAt bs 24

theorem append_words (w : Word) :
    (wordByte w 3 ++ wordByte w 2) ++ (wordByte w 1 ++ wordByte w 0) = w := by
  have hlow : wordByte w 1 ++ wordByte w 0 = w.extractLsb' 0 16 :=
    BitVec.extractLsb'_append_extractLsb'_eq_extractLsb' rfl
  have hhigh : wordByte w 3 ++ wordByte w 2 = w.extractLsb' 16 16 :=
    BitVec.extractLsb'_append_extractLsb'_eq_extractLsb' rfl
  have hw : w.extractLsb' 16 16 ++ w.extractLsb' 0 16 = w.extractLsb' 0 32 :=
    BitVec.extractLsb'_append_extractLsb'_eq_extractLsb' rfl
  rw [hlow, hhigh, hw, BitVec.extractLsb'_eq_self]

theorem mac_toList (m : Mac) : m.toList = [m[0], m[1], m[2], m[3], m[4], m[5]] := by
  apply List.ext_getElem
  · simp
  · intro i hi _
    have hi' : i < 6 := by simpa using hi
    interval_cases i <;> simp

/-- The bytes of a header, also with others behind them, are read back as the header. -/
theorem ofBytes_bytes (p : ArpHeader) (rest : List Byte) :
    ArpHeader.ofBytes (p.bytes ++ rest) = p := by
  have hm : ∀ (bs : List Byte) (i : Nat) (m : Mac), (∀ j (hj : j < 6), bs.getD (i + j) 0 = m[j]) →
      macAt bs i = m := by
    intro bs i m h
    apply Vector.ext
    intro j hj
    rw [macAt, Vector.getElem_ofFn]
    exact h j hj
  obtain ⟨hw, pt, hs, ps, op, sm, si, tm, ti⟩ := p
  simp only [ArpHeader.ofBytes, ArpHeader.bytes, halfBytes, wordBytes, mac_toList, List.cons_append,
    List.nil_append]
  congr
  · exact BitVec.extractLsb'_append_extractLsb'
  · exact BitVec.extractLsb'_append_extractLsb'
  · exact BitVec.extractLsb'_append_extractLsb'
  · apply hm
    intro j hj
    interval_cases j <;> rfl
  · exact append_words si
  · apply hm
    intro j hj
    interval_cases j <;> rfl
  · exact append_words ti

end Layout

/-- struct ip_mac_pair; `next` is its `list.next`, which points to a list field. -/
structure IpMacPair where
  ip : Word
  mac : Mac
  next : Word

/-- offsetof(struct ip_mac_pair, list) -/
def pairOffset : Word := 12

/-- What kmalloc returns: an address and what the memory there holds. -/
structure Block where
  ptr : Word
  content : IpMacPair

structure Node where
  /-- MY_IP -/
  myIp : Word
  /-- dev->mac -/
  mac : Mac
  net : Net
  arpCache : Word := 0
  heap : Word → IpMacPair
  supply : List Block

/-- Why a handler does not return. -/
inductive Stop where
  | endlessList
  | outOfMemory
  deriving DecidableEq

def Node.modify (n : Node) (a : Word) (f : IpMacPair → IpMacPair) : Node :=
  { n with heap := Function.update n.heap a (f (n.heap a)) }

def Node.kmalloc (n : Node) : Except Stop (Word × Node) :=
  match n.supply with
  | [] => .error .outOfMemory
  | b :: supply =>
    .ok (b.ptr, { n with heap := Function.update n.heap b.ptr b.content, supply := supply })

/-- The step of list_foreach. -/
def nextPair (heap : Word → IpMacPair) (s : Word) : Word :=
  if (heap s).next = 0 then 0 else (heap s).next - pairOffset

/-- The first entry of a list_foreach loop over arp_cache that passes the test, NULL if
there is none. -/
def Node.find (n : Node) (test : Word → Bool) : Except Stop Word :=
  match findAlong 0 (nextPair n.heap) test loopBound n.arpCache with
  | none => .error .endlessList
  | some s => .ok s

/-- `_list_add` of the entry at `e`. The loop goes from list field to list field until
one is linked to nothing. -/
def Node.listAdd (n : Node) (e : Word) : Except Stop Node :=
  match lastAlong (fun s => (n.heap s).next == 0) (fun s => (n.heap s).next - pairOffset)
      loopBound n.arpCache with
  | none => .error .endlessList
  | some l => .ok ((n.modify l fun t => { t with next := e + pairOffset }).modify e
      fun t => { t with next := 0 })

def Node.record (n : Node) (e : Word) (p : ArpHeader) : Node :=
  n.modify e fun t => { t with ip := p.sourceIp, mac := p.sourceMac }

def isRequest (p : ArpHeader) : Bool := p.opcode.setWidth 32 == htons ARP_REQUEST

def isReply (p : ArpHeader) : Bool := p.opcode.setWidth 32 == htons ARP_REPLY

/-- The packet sent for a request: the header it came with, with the sender and the
target exchanged. -/
def Node.reply (n : Node) (p : ArpHeader) : ArpPacket :=
  { ethHeader := { macDst := p.sourceMac, macSrc := n.mac,
                   ethertype := (htons FrameReads.ARP).setWidth 16 }
    arpHeader := { p with targetMac := p.sourceMac, sourceMac := n.mac, sourceIp := p.targetIp,
                          targetIp := p.sourceIp, opcode := (htons ARP_REPLY).setWidth 16 } }

/-- The branch for replies. The first entry becomes arp_cache without a call of list_add. -/
def Node.learn (n : Node) (p : ArpHeader) : Except Stop Node :=
  if n.arpCache = 0 then do
    let (e, n) ← n.kmalloc
    return Node.record { n with arpCache := e } e p
  else do
    let entry ← n.find fun s => (n.heap s).ip == p.sourceIp
    if entry ≠ 0 then return n
    else do
      let (e, n) ← n.kmalloc
      let n ← n.listAdd e
      return n.record e p

/-- What is transmitted, and the node afterwards. -/
def arpHandleFrame (n : Node) (data : List Byte) : Except Stop (Option ArpPacket × Node) :=
  let p := ArpHeader.ofBytes data
  if isRequest p ∧ p.targetIp = htonl n.myIp then .ok (some (n.reply p), n)
  else if isReply p ∧ p.targetIp = htonl n.myIp then do
    let n ← n.learn p
    return (none, n)
  else .ok (none, n)

/-- `uninit` is what the stack frame of the packet holds; nothing is stored to the two
hardware addresses of the ARP header. -/
def arpRequest (n : Node) (uninit : ArpPacket) (targetIp : Word) : ArpPacket :=
  { ethHeader := { macDst := Vector.replicate 6 0xFF, macSrc := n.mac,
                   ethertype := (htons FrameReads.ARP).setWidth 16 }
    arpHeader := { uninit.arpHeader with
                   hwType := (htons 1).setWidth 16, hwSize := 6,
                   protocolType := (htons FrameReads.IPV4).setWidth 16, protocolSize := 4,
                   opcode := (htons ARP_REQUEST).setWidth 16, targetIp := targetIp,
                   sourceIp := htonl n.myIp } }

/-- The address that is copied to `to` if the call returns true. -/
def arpFindMac (n : Node) (destIp : Word) : Except Stop (Option Mac) := do
  let entry ← n.find fun s => (n.heap s).ip == destIp
  return if entry = 0 then none else some (n.heap entry).mac

/-- ethernet_handle_frame with the effect of both protocols. -/
def ethernetHandleFrame (n : Node) (data : FrameReads.Bytes) :
    Except Stop (Option ArpPacket × Node) :=
  match (FrameReads.ethernetHandleFrame n.mac n.net).value data with
  | .ipv4 none => .error .endlessList
  | .ipv4 (some net) => .ok (none, { n with net := net })
  | .arp header => arpHandleFrame n header
  | .dropped => .ok (none, n)

end TapiOS.Network.Arp
