import TapiOS.Lib.Access
import TapiOS.Network.Isolation

/-!
# Reading a received frame, network/ethernet.c, network/ipv4.c, network/arp.c, network/tcp.c

The handlers again, now as programs that read the frame byte by byte: offset 0 is where
`data` of ethernet_handle_frame points to. `frame` is what the headers at their fixed
offsets hold, and the programs compute on it what `Network.tcpHandleFrame` does.
-/
namespace TapiOS.Network.FrameReads

open Lib Lib.Access Util Network

abbrev Reading := Access Byte

/-- The bytes from `data` on, also behind the end of the frame. -/
abbrev Bytes := Nat → Byte

def half (o : Nat) : Reading Half := do
  let a ← cell o
  let b ← cell (o + 1)
  return b ++ a

def word (o : Nat) : Reading Word := do
  let a ← half o
  let b ← half (o + 2)
  return b ++ a

def macAddress (o : Nat) : Reading Mac := do
  let a ← cell o
  let b ← cell (o + 1)
  let c ← cell (o + 2)
  let d ← cell (o + 3)
  let e ← cell (o + 4)
  let f ← cell (o + 5)
  return #v[a, b, c, d, e, f]

section Fields

/-! The fields of the three headers, which start at 0, 14 and 34. -/

def macSrc : Reading Mac := macAddress 6
def ethertype : Reading Half := half 12
def ipLength : Reading Half := half 16
def protocol : Reading Byte := cell 23
def srcIp : Reading Word := word 26
def portSrc : Reading Half := half 34
def portDst : Reading Half := half 36
def seqNo : Reading Word := word 38
def ackNo : Reading Word := word 42

/-- The flags FIN to CWR, the second byte of `opts`. -/
def flags : Reading Byte := cell 47

end Fields

def fin (b : Byte) : Bool := b.getLsbD 0
def syn (b : Byte) : Bool := b.getLsbD 1
def rst (b : Byte) : Bool := b.getLsbD 2
def ack (b : Byte) : Bool := b.getLsbD 4

/-- struct tcp_opts of two bytes. -/
def optsOf (a b : Byte) : TcpOpts :=
  { reserved := a.extractLsb' 0 3, ns := a.getLsbD 3, offset := a.extractLsb' 4 4,
    fin := fin b, syn := syn b, rst := rst b, psh := b.getLsbD 3, ack := ack b,
    urg := b.getLsbD 5, ece := b.getLsbD 6, cwr := b.getLsbD 7 }

/-- The frame that the bytes hold. -/
def frame (m : Bytes) : Frame where
  eth := { macDst := (macAddress 0).value m, macSrc := macSrc.value m,
           ethertype := ethertype.value m }
  ip := { ihl := (m 14).extractLsb' 0 4, version := (m 14).extractLsb' 4 4,
          ecn := (m 15).extractLsb' 0 2, dscp := (m 15).extractLsb' 2 6,
          length := ipLength.value m, identification := (half 18).value m,
          flags := ((half 20).value m).extractLsb' 0 3,
          fragmentOffset := ((half 20).value m).extractLsb' 3 13,
          ttl := m 22, protocol := protocol.value m, checksum := (half 24).value m,
          srcIp := srcIp.value m, destIp := (word 30).value m }
  tcp := { portSrc := portSrc.value m, portDst := portDst.value m, seqNo := seqNo.value m,
           ackNo := ackNo.value m, opts := optsOf (m 46) (m 47),
           windowSize := (half 48).value m, checksum := (half 50).value m,
           urgentPtr := (half 52).value m }
  data := fun i => m (54 + i.toNat)

/-- The list_foreach loop of `Net.find` with a test that reads the frame. -/
def findLoop (heap : Word → Socket) (test : Word → Reading Bool) : Nat → Word →
    Reading (Option Word)
  | 0, s => return (if s = 0 then some 0 else none)
  | n + 1, s =>
    if s = 0 then return some 0
    else do
      if ← test s then return some s
      else findLoop heap test n (nextSocket heap s)

def find (net : Net) (test : Word → Reading Bool) : Reading (Option Word) :=
  findLoop net.heap test loopBound net.openSockets

def removeTest (net : Net) (s : Word) : Reading Bool := do
  let ip ← srcIp
  if (net.heap s).saddr.sinAddr == ip then
    let port ← portDst
    return (net.heap s).srcPort == port
  else return false

/-- tcp_remove_connection after its search. -/
def removeFound (net : Net) (sock : Word) : Option (Word × Net) :=
  if sock = 0 then some (0, net)
  else match unlink net sock with
  | none => none
  | some net => some (sock, net.modify sock (fun s => { s with state := DISCONNECTED }))

def tcpRemoveConnection (net : Net) : Reading (Option (Word × Net)) := do
  let found ← find net (removeTest net)
  return found.bind (removeFound net)

def handleReset (net : Net) : Reading (Option Net) := do
  let b ← flags
  if rst b then
    let removed ← tcpRemoveConnection net
    return removed.map (fun r => if r.1 = 0 then r.2 else socketFree r.2 r.1)
  else return some net

/-- ACK of the number that follows a SYN or FIN. -/
def sendAck (mac : Mac) (net : Net) (sock : Word) : Reading Net := do
  let seq ← seqNo
  let acked ← ackNo
  return tcpSendPacket mac net sock acked (seq + htonl 1) ackOpts

/-- The answer to a closing segment, unless it is the last one. -/
def ackClosing (mac : Mac) (net : Net) (sock : Word) : Reading Net :=
  if (net.heap sock).state ≠ LAST_ACK then sendAck mac net sock else return net

def handleClosing (mac : Mac) (net : Net) (sock : Word) : Reading (Option Net) := do
  let net ← ackClosing mac net sock
  let removed ← tcpRemoveConnection net
  return removed.map (fun r => if r.1 = 0 then r.2
    else socketFree (r.2.modify r.1 (fun t => { t with state := DISCONNECTED })) r.1)

def handleFin (mac : Mac) (net : Net) (sock : Word) : Reading Net := do
  let b ← flags
  let s := net.heap sock
  let number := if ack b then htonl (htonl s.ackNo + 1) else s.ackNo
  let net := tcpSendPacket mac net sock s.seqNo number { fin := true, ack := ack b }
  return net.modify sock (fun s => { s with state := LAST_ACK })

/-- The byte loop: `dp[i]` is read only when there is room for it. -/
def storeLoop : Nat → Nat → Socket → Reading Socket
  | 0, _, s => return s
  | n + 1, i, s =>
    if s.pos < TCP_RCVBUF_SIZE then do
      let b ← cell (54 + i)
      storeLoop n (i + 1) { s with buf := s.buf.set s.pos b, pos := s.pos + 1#32 }
    else storeLoop n (i + 1) s

def handleData (mac : Mac) (net : Net) (sock : Word) : Reading Net := do
  let length ← ipLength
  let datalen := htons (length.setWidth 32) - 20 - 20
  if 0#32 < datalen then
    let stored ← storeLoop datalen.toNat 0 (net.heap sock)
    let acked ← ackNo
    let seq ← seqNo
    let number := htonl (htonl seq + datalen)
    let net := net.modify sock (fun _ => { stored with seqNo := acked, ackNo := number })
    return tcpSendPacket mac net sock acked number ackOpts
  else return net

def handleSocket (mac : Mac) (net : Net) (sock : Word) : Reading (Option Net) := do
  let b ← flags
  let state := (net.heap sock).state
  if syn b && ack b then
    let net ← sendAck mac net sock
    return some (net.modify sock (fun s => { s with state := CONNECTED }))
  else if closes (optsOf 0 b) state then handleClosing mac net sock
  else if ack b && state == FIN_WAIT1 then
    return some (net.modify sock (fun s => { s with state := FIN_WAIT2 }))
  else if fin b && state == CONNECTED then
    let net ← handleFin mac net sock
    return some net
  else if ack b then
    let net ← handleData mac net sock
    return some net
  else return some net

def rejectSyn (mac : Mac) (net : Net) : Reading Net := do
  let ip ← srcIp
  let port ← portSrc
  let dest ← macSrc
  let own ← portDst
  let seq ← seqNo
  let next := nextRandom net.next
  let p := tcpBuildPacket mac dest ip port { rst := true, ack := true } [] next
  return net.transmit next (p.finish own 0 (htonl (htonl seq + 1)))

def portTest (net : Net) (s : Word) : Reading Bool := do
  let port ← portDst
  return (net.heap s).srcPort == port

/-- The socket that a segment is for is known; NULL if there is none. -/
def handleFound (mac : Mac) (net : Net) (sock : Word) : Reading (Option Net) :=
  if sock ≠ 0 then handleSocket mac net sock
  else do
    let b ← flags
    if syn b then
      let net ← rejectSyn mac net
      return some net
    else return some net

/-- A walk over the sockets that never ends reads nothing more. -/
def orStuck {α β : Type} (x : Option α) (f : α → Reading (Option β)) : Reading (Option β) :=
  match x with
  | none => return none
  | some a => f a

def demultiplex (mac : Mac) (net : Net) : Reading (Option Net) := do
  let found ← find net (portTest net)
  orStuck found (handleFound mac net)

def tcpHandleFrame (mac : Mac) (net : Net) : Reading (Option Net) := do
  let next ← handleReset net
  orStuck next (demultiplex mac)

def IPV4 : Word := 0x0800
def ARP : Word := 0x0806
def TCP_PROTOCOL_NUMBER : Byte := 6

def ipv4HandleFrame (mac : Mac) (net : Net) : Reading (Option Net) := do
  let number ← protocol
  if number = TCP_PROTOCOL_NUMBER then tcpHandleFrame mac net else return some net

/-- memcpy out of the frame. -/
def copyFrom (o : Nat) : Nat → Reading (List Byte)
  | 0 => return []
  | n + 1 => do
    let b ← cell o
    let bs ← copyFrom (o + 1) n
    return b :: bs

/-- arp_handle_frame copies its header of 28 bytes and works on the copy alone. -/
def arpHandleFrame : Reading (List Byte) := copyFrom 14 28

/-- What becomes of a frame. -/
inductive Handled where
  | ipv4 (net : Option Net)
  | arp (header : List Byte)
  | dropped

/-- ethernet_handle_frame; no function it calls looks at `len`. -/
def ethernetHandleFrame (mac : Mac) (net : Net) : Reading Handled := do
  let t ← ethertype
  if htons (t.setWidth 32) = IPV4 then
    let net ← ipv4HandleFrame mac net
    return .ipv4 net
  else if htons (t.setWidth 32) = ARP then
    let header ← arpHandleFrame
    return .arp header
  else return .dropped

section Values
variable (m : Bytes) (mac : Mac) (net : Net) (sock : Word)

theorem value_findLoop (heap : Word → Socket) (test : Word → Reading Bool) (n : Nat) (s : Word) :
    (findLoop heap test n s).value m =
      findAlong 0 (nextSocket heap) (fun s => (test s).value m) n s := by
  induction n generalizing s with
  | zero => rfl
  | succ n ih =>
    unfold findLoop findAlong
    simp [ih]

theorem value_find (test : Word → Reading Bool) :
    (find net test).value m = net.find (fun s => (test s).value m) :=
  value_findLoop m net.heap test loopBound net.openSockets

theorem value_removeTest (s : Word) :
    (removeTest net s).value m = Network.removeTest net (frame m) s := by
  simp only [removeTest, value_bind, value_ite, value_pure]
  show (if (net.heap s).saddr.sinAddr == (frame m).ip.srcIp then
    (net.heap s).srcPort == (frame m).tcp.portDst else false) = _
  unfold Network.removeTest
  cases (net.heap s).saddr.sinAddr == (frame m).ip.srcIp with
  | false => rfl
  | true => rfl

@[simp] theorem value_tcpRemoveConnection :
    (tcpRemoveConnection net).value m = Network.tcpRemoveConnection net (frame m) := by
  simp only [tcpRemoveConnection, value_bind, value_pure, value_find, value_removeTest]
  unfold Network.tcpRemoveConnection
  cases net.find (Network.removeTest net (frame m)) with
  | none => rfl
  | some sock => rfl

@[simp] theorem value_handleReset :
    (handleReset net).value m = Network.handleReset net (frame m) := by
  simp only [handleReset, value_bind, value_ite, value_pure, value_tcpRemoveConnection]
  show (if (frame m).tcp.opts.rst then _ else _) = _
  unfold Network.handleReset
  split
  · cases Network.tcpRemoveConnection net (frame m) with
    | none => rfl
    | some r => exact apply_ite some (r.1 = 0) r.2 (socketFree r.2 r.1)
  · rfl

@[simp] theorem value_sendAck : (sendAck mac net sock).value m =
    tcpSendPacket mac net sock (frame m).tcp.ackNo ((frame m).tcp.seqNo + htonl 1) ackOpts := by
  rfl

@[simp] theorem value_handleClosing : (handleClosing mac net sock).value m =
    Network.handleClosing mac net sock (frame m) := by
  simp only [handleClosing, ackClosing, value_bind, value_ite, value_pure, value_sendAck,
    value_tcpRemoveConnection]
  unfold Network.handleClosing
  dsimp only
  generalize (if (net.heap sock).state ≠ LAST_ACK then
    tcpSendPacket mac net sock (frame m).tcp.ackNo ((frame m).tcp.seqNo + htonl 1) ackOpts
    else net) = net1
  cases Network.tcpRemoveConnection net1 (frame m) with
  | none => rfl
  | some r => exact apply_ite some (r.1 = 0) r.2 _

@[simp] theorem value_handleFin : (handleFin mac net sock).value m =
    Network.handleFin mac net sock (frame m) := by
  rfl

/-- Index `i` of the loop does not wrap: the count is a machine word. -/
theorem value_storeLoop (n i : Nat) (hi : i + n ≤ 2 ^ 32) (s : Socket) :
    (storeLoop n i s).value m = Network.storeLoop (frame m).data n (BitVec.ofNat 32 i) s := by
  induction n generalizing i s with
  | zero => rfl
  | succ n ih =>
    have hidx : (frame m).data (BitVec.ofNat 32 i) = m (54 + i) := by
      show m (54 + (BitVec.ofNat 32 i).toNat) = _
      rw [toNat_ofNat_of_lt (by omega)]
    have hnext : BitVec.ofNat 32 i + 1#32 = BitVec.ofNat 32 (i + 1) := by
      rw [BitVec.ofNat_add]
    unfold storeLoop Network.storeLoop
    simp only [value_ite, value_bind, value_cell]
    rw [ih (i + 1) (by omega), ih (i + 1) (by omega), hidx, hnext]
    split <;> rfl

@[simp] theorem value_handleData : (handleData mac net sock).value m =
    Network.handleData mac net sock (frame m) := by
  simp only [handleData, value_bind, value_ite, value_pure]
  show (if 0#32 < datalen (frame m) then
    tcpSendPacket mac (net.modify sock (fun _ =>
      { (storeLoop (datalen (frame m)).toNat 0 (net.heap sock)).value m with
        seqNo := (frame m).tcp.ackNo
        ackNo := htonl (htonl (frame m).tcp.seqNo + datalen (frame m)) })) sock
      (frame m).tcp.ackNo (htonl (htonl (frame m).tcp.seqNo + datalen (frame m))) ackOpts
    else net) = _
  rw [value_storeLoop m _ 0 (by have h := (datalen (frame m)).isLt; omega)]
  unfold Network.handleData
  split
  · congr 1
    refine congrArg (fun heap => { net with heap := heap }) (funext fun a => ?_)
    by_cases ha : a = sock
    · subst ha
      rw [if_pos rfl, if_pos rfl, modify_heap_same]
    · rw [if_neg ha, if_neg ha, modify_heap_other _ _ _ _ ha]
  · rfl

@[simp] theorem value_handleSocket : (handleSocket mac net sock).value m =
    Network.handleSocket mac net sock (frame m) := by
  simp only [handleSocket, value_bind, value_ite, value_pure, value_sendAck, value_handleClosing,
    value_handleFin, value_handleData]
  rfl

@[simp] theorem value_rejectSyn : (rejectSyn mac net).value m =
    Network.rejectSyn mac net (frame m) := by
  rfl

theorem value_portTest (s : Word) :
    (portTest net s).value m = Network.portTest net (frame m) s := by
  rfl

@[simp] theorem value_orStuck {α β : Type} (x : Option α) (f : α → Reading (Option β)) :
    (orStuck x f).value m = x.bind (fun a => (f a).value m) := by
  cases x <;> rfl

theorem value_demultiplex : (demultiplex mac net).value m =
    Network.demultiplex mac net (frame m) := by
  simp only [demultiplex, value_bind, value_find, value_portTest, value_orStuck, handleFound,
    value_ite, value_handleSocket, value_pure, value_rejectSyn]
  unfold Network.demultiplex
  cases net.find (Network.portTest net (frame m)) with
  | none => rfl
  | some sock => rfl

/-- Read byte by byte, a segment does what it does as a `Frame`. -/
theorem value_tcpHandleFrame : (tcpHandleFrame mac net).value m =
    Network.tcpHandleFrame mac net (frame m) := by
  simp only [tcpHandleFrame, value_bind, value_handleReset, value_orStuck, value_demultiplex]
  unfold Network.tcpHandleFrame
  cases Network.handleReset net (frame m) with
  | none => rfl
  | some net1 => rfl

end Values

end TapiOS.Network.FrameReads
