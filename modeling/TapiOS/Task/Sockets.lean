import TapiOS.Network.Release
import TapiOS.Task.Slots

/-!
# Sockets behind descriptors, syscall/syscalls.c and fs/vfs.c

A struct socket starts with the fields of a struct file. The slots of `kernel` hold
sockets, whose records are in `net`; other files are left out. `blocks` are the struct
sockets and receive buffers that kmalloc gave out and that were not freed since.
-/
namespace TapiOS.Task.Sockets

open Lib Util Fs Network Kernel

structure Machine where
  kernel : Kernel
  net : Net
  blocks : Finset Word

/-- `_socket`, given the blocks that kmalloc returns for the inode, the struct and the buffer. -/
def sysSocket (m : Machine) (p : Nat) (inode f rcvbuf : Word) : Machine where
  kernel := (newfd m.kernel p f).2
  net := m.net.modify f (fun stale => newSocket stale inode rcvbuf)
  blocks := insert f (insert rcvbuf m.blocks)

/-- vfs_close of a socket, whose inode has no parent. -/
def closeSocket (mac : Mac) (m : Machine) (f : Word) : Except Stop (List Word × Machine) :=
  let s := m.net.heap f
  if s.inode = 0 then .ok ([], m)
  else if s.refcount = 0 then .error .refcountZero
  else if s.inode = m.kernel.vfs.rootFs then .ok ([], m)
  else
    let net := m.net.modify f (fun s => { s with refcount := s.refcount - 1 })
    let net := StateMachine.socketClose mac net f
    .ok ([], { m with net := net.modify f (fun s => { s with inode := 0 }) })

/-- The calls on descriptors work on sockets as on files. -/
def sockets (mac : Mac) : FileKind Machine Word where
  procs m := m.kernel.procs
  fds m := m.kernel.fds
  setFd m p i f := { m with kernel := m.kernel.setFd p i f }
  close := closeSocket mac
  refcount m f := (m.net.heap f).refcount
  kfree m f := .ok { m with blocks := m.blocks.erase f }
  freed f _ := f
  retain m f := { m with net := m.net.modify f (fun s => { s with refcount := s.refcount + 1 }) }
  newProcess m p := { m with
    kernel := m.kernel.newProcess fun q =>
      if q = m.kernel.procs then m.kernel.cwd p else m.kernel.cwd q }

/-- `_read` into the caller's memory, which is left out. -/
def sysRead (m : Machine) (p : Nat) (i : Fd) (count : Word) : Except Stop Machine :=
  let f := m.kernel.fds p i
  if f = 0 ∨ (m.net.heap f).inode = 0 then .error .fault
  else .ok { m with net := m.net.modify f (fun s => (socketRead s count).2) }

/-- `_connect` up to its SYN. -/
def sysConnect (mac destMac : Mac) (m : Machine) (p : Nat) (i : Fd) (addr : SockaddrIn) :
    Except Stop Machine :=
  let f := m.kernel.fds p i
  if f = 0 ∨ (m.net.heap f).inode = 0 then .ok m
  else match connect mac destMac m.net f addr with
  | none => .error .endless
  | some net => .ok { m with net := net }

/-- A segment from the network, and what it frees. -/
def receive (mac : Mac) (m : Machine) (fr : Frame) : Except Stop (List Word × Machine) :=
  match tcpHandleFrame mac m.net fr with
  | none => .error .endless
  | some net =>
    let freed := net.freed.take (net.freed.length - m.net.freed.length)
    .ok (freed, { m with net := net, blocks := m.blocks \ freed.toFinset })

inductive Event where
  | socket (p : Nat) (inode f rcvbuf : Word)
  | connect (p : Nat) (i : Fd) (destMac : Mac) (addr : SockaddrIn)
  | dup2 (p : Nat) (oldfd newfd : Fd)
  | fork (p : Nat)
  | read (p : Nat) (i : Fd) (count : Word)
  | close (p : Nat) (i : Fd)
  | exit (p : Nat)
  | segment (fr : Frame)

def Event.caller : Event → Option Nat
  | .socket p _ _ _ => some p
  | .connect p _ _ _ => some p
  | .dup2 p _ _ => some p
  | .fork p => some p
  | .read p _ _ => some p
  | .close p _ => some p
  | .exit p => some p
  | .segment _ => none

def perform (mac : Mac) (m : Machine) : Event → Except Stop (List Word × Machine)
  | .socket p inode f rcvbuf => .ok ([], sysSocket m p inode f rcvbuf)
  | .connect p i destMac addr =>
    match sysConnect mac destMac m p i addr with
    | .error e => .error e
    | .ok m => .ok ([], m)
  | .dup2 p oldfd newfd =>
    match (sockets mac).sysDup2 m p oldfd newfd.val with
    | .error e => .error e
    | .ok ((_, freed), m) => .ok (freed, m)
  | .fork p => .ok ([], (sockets mac).fork m p)
  | .read p i count =>
    match sysRead m p i count with
    | .error e => .error e
    | .ok m => .ok ([], m)
  | .close p i =>
    match (sockets mac).sysClose m p i with
    | .error e => .error e
    | .ok ((_, freed), m) => .ok (freed, m)
  | .exit p => (sockets mac).exitLoop m p (List.finRange 256)
  | .segment fr => receive mac m fr

/-- One call by an existing process, or one segment; the output is what was freed. -/
def step (mac : Mac) (m : Machine) (e : Event) : Except Stop (List Word × Machine) :=
  if e.caller.any (fun p => m.kernel.procs ≤ p) then .error .noProcess else perform mac m e

end TapiOS.Task.Sockets
