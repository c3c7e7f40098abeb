import TapiOS.Lib.Chain
import TapiOS.Network.Packet

/-!
# Sockets, network/socket.c

A struct socket is a record; `heap` gives the record at every address, also at
addresses where no socket was allocated, where it stands for whatever the memory
holds. A receive buffer is a block of its own, indexed from its start. List
pointers are the machine's: `next` is the address of the `list` field of the next
socket, 52 bytes into it.
-/
namespace TapiOS.Network

open Lib Util

def TCP_RCVBUF_SIZE : Word := 131072

def CONNECTING : Byte := 1
def CONNECTED : Byte := 2
def DISCONNECTED : Byte := 4
def FIN_WAIT1 : Byte := 5
def FIN_WAIT2 : Byte := 6
def LAST_ACK : Byte := 7

/-- struct socket; `buf` is what `rcvbuf` points to and `next` is `list.next`. -/
structure Socket where
  refcount : Word
  inode : Word
  pos : Word
  saddr : SockaddrIn
  srcPort : Half
  seqNo : Word
  ackNo : Word
  state : Byte
  dstMac : Mac
  rcvbuf : Word
  buf : Mem
  next : Word

/-- What `_socket` writes to the memory it allocated. -/
def newSocket (stale : Socket) (inode rcvbuf : Word) : Socket :=
  { stale with refcount := 2, inode := inode, pos := 0, rcvbuf := rcvbuf }

/-- A struct socket in cleared memory. -/
def clearedSocket : Socket :=
  { refcount := 0, inode := 0, pos := 0, saddr := ⟨0, 0, 0, Vector.replicate 8 0⟩, srcPort := 0,
    seqNo := 0, ackNo := 0, state := 0, dstMac := Vector.replicate 6 0, rcvbuf := 0,
    buf := fun _ => 0, next := 0 }

/-- The kernel's view of the network: the sockets in memory, `open_sockets`, the
state of rand, the pointers passed to kfree and the packets sent, latest first. -/
structure Net where
  heap : Word → Socket
  openSockets : Word
  next : Word
  freed : List Word
  sent : List TcpPacket

/-- Write through a socket pointer. -/
def Net.modify (net : Net) (s : Word) (f : Socket → Socket) : Net :=
  { net with heap := fun a => if a = s then f (net.heap a) else net.heap a }

/-- A packet handed to the device; `next` is the state of rand by then. -/
def Net.transmit (net : Net) (next : Word) (p : TcpPacket) : Net :=
  { net with next := next, sent := p :: net.sent }

/-- offsetof(struct socket, list) -/
def listOffset : Word := 52

/-- The step of list_foreach. -/
def nextSocket (heap : Word → Socket) (s : Word) : Word :=
  if (heap s).next = 0 then 0 else (heap s).next - listOffset

/-- A loop that visits this many pointers visits one of them twice and never ends. -/
def loopBound : Nat := 2 ^ 32

/-- The first socket of a list_foreach loop that passes the test, NULL if there is none;
`none` if the loop never ends. -/
def Net.find (net : Net) (test : Word → Bool) : Option Word :=
  findAlong 0 (nextSocket net.heap) test loopBound net.openSockets

def socketFree (net : Net) (s : Word) : Net :=
  let net := net.modify s (fun sock => { sock with refcount := sock.refcount - 1 })
  let net := { net with freed := (net.heap s).rcvbuf :: net.freed }
  if (net.heap s).refcount ≠ 0 then net else { net with freed := s :: net.freed }

/-- The bytes copied to the caller and the socket afterwards. -/
def socketRead (s : Socket) (count : Word) : List Byte × Socket :=
  let n := if s.pos < count then s.pos else count
  if n = 0#32 then ([], s)
  else
    let remainder := s.pos - n
    let buf := if 0#32 < remainder then memmove s.buf 0#32 remainder remainder else s.buf
    (bytesAt s.buf 0#32 n.toNat, { s with buf := buf, pos := s.pos - n })

section Memory
variable (net : Net) (s a : Word) (f : Socket → Socket)

@[simp] theorem modify_heap_same : (net.modify s f).heap s = f (net.heap s) := by
  simp [Net.modify]

theorem modify_heap_other (h : a ≠ s) : (net.modify s f).heap a = net.heap a := by
  simp [Net.modify, h]

@[simp] theorem modify_openSockets : (net.modify s f).openSockets = net.openSockets := rfl

@[simp] theorem modify_sent : (net.modify s f).sent = net.sent := rfl

@[simp] theorem modify_freed : (net.modify s f).freed = net.freed := rfl

@[simp] theorem transmit_heap (next : Word) (p : TcpPacket) :
    (net.transmit next p).heap = net.heap := rfl

@[simp] theorem transmit_openSockets (next : Word) (p : TcpPacket) :
    (net.transmit next p).openSockets = net.openSockets := rfl

@[simp] theorem transmit_sent (next : Word) (p : TcpPacket) :
    (net.transmit next p).sent = p :: net.sent := rfl

end Memory
end TapiOS.Network
