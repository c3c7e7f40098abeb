import TapiOS.Network.Socket

/-!
# Incoming segments, network/tcp.c

`tcpHandleFrame` follows the source branch by branch. Its result is `none` when one
of its walks over the socket list never ends.
-/
namespace TapiOS.Network

open Util

/-- A received frame; `data` is the memory that follows the 20 bytes of struct
tcp_header. -/
structure Frame where
  eth : EthernetHeader
  ip : Ipv4Header
  tcp : TcpHeader
  data : Mem

/-- tcp_send_packet of device `mac` through the socket at `s`. -/
def tcpSendPacket (mac : Mac) (net : Net) (s seqNo ackNo : Word) (opts : TcpOpts) : Net :=
  let sock := net.heap s
  let next := nextRandom net.next
  let p := tcpBuildPacket mac sock.dstMac sock.saddr.sinAddr sock.saddr.sinPort opts [] next
  let net := net.modify s (fun sock => { sock with seqNo := seqNo, ackNo := ackNo })
  net.transmit next (p.finish sock.srcPort seqNo ackNo)

/-- The test of tcp_remove_connection. -/
def removeTest (net : Net) (fr : Frame) (s : Word) : Bool :=
  (net.heap s).saddr.sinAddr == fr.ip.srcIp && (net.heap s).srcPort == fr.tcp.portDst

/-- Take the socket out of the list: the two branches of tcp_remove_connection. -/
def unlink (net : Net) (sock : Word) : Option Net :=
  if sock = net.openSockets then some { net with openSockets := (net.heap sock).next }
  else
    match net.find (fun s => (net.heap s).next == sock + listOffset) with
    | none => none
    | some s =>
      if s = 0 then some net
      else some (net.modify s (fun t => { t with next := (net.heap sock).next }))

/-- tcp_remove_connection: the socket removed, or NULL. -/
def tcpRemoveConnection (net : Net) (fr : Frame) : Option (Word × Net) :=
  match net.find (removeTest net fr) with
  | none => none
  | some sock =>
    if sock = 0 then some (0, net)
    else match unlink net sock with
    | none => none
    | some net => some (sock, net.modify sock (fun s => { s with state := DISCONNECTED }))

/-- The byte loop of tcp_handle_frame: `n` more bytes of `dp` from index `i`. -/
def storeLoop (dp : Mem) : Nat → Word → Socket → Socket
  | 0, _, s => s
  | n + 1, i, s =>
    storeLoop dp n (i + 1#32)
      (if s.pos < TCP_RCVBUF_SIZE then { s with buf := s.buf.set s.pos (dp i), pos := s.pos + 1#32 }
        else s)

/-- `htons(iph->length) - sizeof(struct ipv4_header) - sizeof(struct tcp_header)` -/
def datalen (fr : Frame) : Word := htons (fr.ip.length.setWidth 32) - 20 - 20

/-- The RST part at the start of tcp_handle_frame. -/
def handleReset (net : Net) (fr : Frame) : Option Net :=
  if fr.tcp.opts.rst then
    match tcpRemoveConnection net fr with
    | none => none
    | some (s, net) => if s = 0 then some net else some (socketFree net s)
  else some net

def ackOpts : TcpOpts := { ack := true }

/-- The segment closes a connection that is in `state`. -/
def closes (opts : TcpOpts) (state : Byte) : Bool :=
  (opts.fin && state == FIN_WAIT2) || (opts.fin && opts.ack && state == FIN_WAIT1) ||
    (opts.ack && state == LAST_ACK)

/-- The closing branch: acknowledge, remove the connection, free its socket. -/
def handleClosing (mac : Mac) (net : Net) (sock : Word) (fr : Frame) : Option Net :=
  let net := if (net.heap sock).state ≠ LAST_ACK then
      tcpSendPacket mac net sock fr.tcp.ackNo (fr.tcp.seqNo + htonl 1) ackOpts
    else net
  match tcpRemoveConnection net fr with
  | none => none
  | some (s, net) =>
    if s = 0 then some net
    else some (socketFree (net.modify s (fun t => { t with state := DISCONNECTED })) s)

/-- The peer closes an established connection. -/
def handleFin (mac : Mac) (net : Net) (sock : Word) (fr : Frame) : Net :=
  let s := net.heap sock
  let ackNo := if fr.tcp.opts.ack then htonl (htonl s.ackNo + 1) else s.ackNo
  let net := tcpSendPacket mac net sock s.seqNo ackNo { fin := true, ack := fr.tcp.opts.ack }
  net.modify sock (fun s => { s with state := LAST_ACK })

/-- Payload: store what fits, acknowledge all of it. -/
def handleData (mac : Mac) (net : Net) (sock : Word) (fr : Frame) : Net :=
  if 0#32 < datalen fr then
    let net := net.modify sock (fun s => storeLoop fr.data (datalen fr).toNat 0#32 s)
    let ackNo := htonl (htonl fr.tcp.seqNo + datalen fr)
    let net := net.modify sock (fun s => { s with seqNo := fr.tcp.ackNo, ackNo := ackNo })
    tcpSendPacket mac net sock fr.tcp.ackNo ackNo ackOpts
  else net

/-- The branches for the socket found by its port. -/
def handleSocket (mac : Mac) (net : Net) (sock : Word) (fr : Frame) : Option Net :=
  let opts := fr.tcp.opts
  let state := (net.heap sock).state
  if opts.syn && opts.ack then
    let net := tcpSendPacket mac net sock fr.tcp.ackNo (fr.tcp.seqNo + htonl 1) ackOpts
    some (net.modify sock (fun s => { s with state := CONNECTED }))
  else if closes opts state then handleClosing mac net sock fr
  else if opts.ack && state == FIN_WAIT1 then
    some (net.modify sock (fun s => { s with state := FIN_WAIT2 }))
  else if opts.fin && state == CONNECTED then some (handleFin mac net sock fr)
  else if opts.ack then some (handleData mac net sock fr)
  else some net

/-- RST for a SYN to a port without a socket. -/
def rejectSyn (mac : Mac) (net : Net) (fr : Frame) : Net :=
  let next := nextRandom net.next
  let p := tcpBuildPacket mac fr.eth.macSrc fr.ip.srcIp fr.tcp.portSrc
    { rst := true, ack := true } [] next
  net.transmit next (p.finish fr.tcp.portDst 0 (htonl (htonl fr.tcp.seqNo + 1)))

/-- The test of the demultiplexing loop. -/
def portTest (net : Net) (fr : Frame) (s : Word) : Bool := (net.heap s).srcPort == fr.tcp.portDst

/-- The part of tcp_handle_frame after the RST part. -/
def demultiplex (mac : Mac) (net : Net) (fr : Frame) : Option Net :=
  match net.find (portTest net fr) with
  | none => none
  | some sock =>
    if sock ≠ 0 then handleSocket mac net sock fr
    else if fr.tcp.opts.syn then some (rejectSyn mac net fr)
    else some net

def tcpHandleFrame (mac : Mac) (net : Net) (fr : Frame) : Option Net :=
  match handleReset net fr with
  | none => none
  | some net => demultiplex mac net fr

@[simp] theorem finish_ackNo (p : TcpPacket) (port : Half) (seqNo ackNo : Word) :
    (p.finish port seqNo ackNo).tcp.ackNo = ackNo := rfl

section Send
variable (mac : Mac) (net : Net) (s seqNo ackNo : Word) (opts : TcpOpts)

@[simp] theorem send_heap : (tcpSendPacket mac net s seqNo ackNo opts).heap =
    (net.modify s (fun sock => { sock with seqNo := seqNo, ackNo := ackNo })).heap := by
  rw [tcpSendPacket, transmit_heap]

@[simp] theorem send_openSockets :
    (tcpSendPacket mac net s seqNo ackNo opts).openSockets = net.openSockets := by
  rw [tcpSendPacket, transmit_openSockets, modify_openSockets]

theorem send_sent : ∃ p, (tcpSendPacket mac net s seqNo ackNo opts).sent = p :: net.sent ∧
    p.tcp.ackNo = ackNo ∧ p.tcp.opts.ack = opts.ack := by
  exact ⟨_, rfl, finish_ackNo _ _ _ _, rfl⟩

end Send

section Effects
variable {mac : Mac} {net net' : Net} {s : Word} {fr : Frame}

/-- Taking a socket out of the list writes links and `open_sockets` only. -/
theorem unlink_effect (h : unlink net s = some net') :
    net'.sent = net.sent ∧ net'.freed = net.freed ∧
      ∀ a, ∃ n, net'.heap a = { net.heap a with next := n } := by
  unfold unlink at h
  split at h
  · cases h
    exact ⟨rfl, rfl, fun a => ⟨_, rfl⟩⟩
  · split at h
    · cases h
    · split at h
      · cases h
        exact ⟨rfl, rfl, fun a => ⟨_, rfl⟩⟩
      · next t _ _ =>
        cases h
        refine ⟨rfl, rfl, fun a => ?_⟩
        by_cases ha : a = t
        · subst ha
          exact ⟨_, modify_heap_same ..⟩
        · exact ⟨_, modify_heap_other _ _ _ _ ha⟩

/-- tcp_remove_connection writes links, `open_sockets` and the state of the socket it returns. -/
theorem tcpRemoveConnection_effect (h : tcpRemoveConnection net fr = some (s, net')) :
    net'.sent = net.sent ∧ net'.freed = net.freed ∧
      ∀ a, ∃ n st, net'.heap a = { net.heap a with next := n, state := st } ∧
        (st = (net.heap a).state ∨ a = s ∧ st = DISCONNECTED) := by
  unfold tcpRemoveConnection at h
  split at h
  · cases h
  · next v _ =>
    split at h
    · obtain ⟨rfl, rfl⟩ := Prod.mk.inj (Option.some.inj h)
      exact ⟨rfl, rfl, fun a => ⟨_, _, rfl, .inl rfl⟩⟩
    · split at h
      · cases h
      · next net1 hu =>
        obtain ⟨rfl, rfl⟩ := Prod.mk.inj (Option.some.inj h)
        obtain ⟨hsent, hfreed, hheap⟩ := unlink_effect hu
        refine ⟨hsent, hfreed, fun a => ?_⟩
        obtain ⟨n, hn⟩ := hheap a
        by_cases ha : a = v
        · subst ha
          exact ⟨n, _, by rw [modify_heap_same, hn], .inr ⟨rfl, rfl⟩⟩
        · exact ⟨n, _, by rw [modify_heap_other _ _ _ _ ha, hn], .inl rfl⟩

theorem socketFree_effect (net : Net) (s : Word) :
    (socketFree net s).sent = net.sent ∧ (socketFree net s).openSockets = net.openSockets ∧
      (socketFree net s).heap =
        (net.modify s (fun sock => { sock with refcount := sock.refcount - 1 })).heap := by
  unfold socketFree
  dsimp only
  split_ifs <;> exact ⟨rfl, rfl, rfl⟩

theorem handleReset_sent (h : handleReset net fr = some net') : net'.sent = net.sent := by
  unfold handleReset at h
  split at h
  · split at h
    · cases h
    · next v net1 hr =>
      have hs := (tcpRemoveConnection_effect hr).1
      split at h
      · cases h
        exact hs
      · cases h
        exact (socketFree_effect net1 v).1.trans hs
  · cases h
    rfl

end Effects
end TapiOS.Network
