import TapiOS.Drivers.Keyboard
import TapiOS.Fs.Ext2
import TapiOS.Fs.Vfs
import TapiOS.Network.Socket

/-!
# Waiting for input, syscall/syscalls.c

`_poll` asks the driver of every descriptor. The drivers set `revents` themselves and return
what `_poll` adds up.
-/
namespace TapiOS.Task.Poll

open Util Fs Network Drivers

def POLLIN : Half := 1
def POLLNVAL : Half := 0x100

/-- struct pollfd -/
structure Pollfd where
  fd : Word
  events : Half
  revents : Half
  deriving DecidableEq, Repr

/-- A file by the driver of its inode. -/
inductive Polled where
  | ext2 (f : Ext2.OpenFile)
  | tty
  | socket (s : Socket)

def kbdHasdata (k : Keyboard) : Bool := decide (0 < k.size)

/-- A driver's return value and `*revents`. -/
abbrev Answer := Int × Half

def ext2Poll (f : Ext2.OpenFile) (events revents : Half) : Answer :=
  if events &&& POLLIN ≠ 0 then
    if f.pos < f.size then (1, revents ||| POLLIN) else (0, revents)
  else (0, revents)

def ttyPoll (k : Keyboard) (events revents : Half) : Answer :=
  if events &&& POLLIN ≠ 0 then
    if kbdHasdata k then (1, revents ||| POLLIN) else (0, revents)
  else (0, revents)

/-- socket_poll; `none` is a NULL `f`. -/
def socketPoll (f : Option Socket) (events revents : Half) : Answer :=
  let r : Answer := match f with
    | some s =>
      if events &&& POLLIN ≠ 0 ∧ (0 < s.pos ∨ s.state = DISCONNECTED) then (1, revents ||| POLLIN)
      else (0, revents)
    | none => (0, revents)
  if events &&& POLLNVAL ≠ 0 ∧ f.isNone then (1, r.2 ||| POLLNVAL) else r

def vfsPoll (k : Keyboard) (f : Polled) (events revents : Half) : Answer :=
  match f with
  | .ext2 f => ext2Poll f events revents
  | .tty => ttyPoll k events revents
  | .socket s => socketPoll (some s) events revents

/-- The loop of _poll. `files` are the open files of the caller; to use a slot that is empty,
or whose file was closed and has no inode any more, is a fault. -/
def pollLoop (k : Keyboard) (files : Word → Option Polled) :
    List Pollfd → Int → Except Stop (Int × List Pollfd)
  | [], ret => .ok (ret, [])
  | e :: fds, ret =>
    let e := { e with revents := 0 }
    if e.fd.toInt < 0 then
      match pollLoop k files fds ret with
      | .error s => .error s
      | .ok (ret, fds) => .ok (ret, e :: fds)
    else
      match files e.fd with
      | none => .error .fault
      | some f =>
        let r := vfsPoll k f e.events e.revents
        match pollLoop k files fds (ret + r.1) with
        | .error s => .error s
        | .ok (ret, fds) => .ok (ret, { e with revents := r.2 } :: fds)

def poll (k : Keyboard) (files : Word → Option Polled) (fds : List Pollfd) :
    Except Stop (Int × List Pollfd) := pollLoop k files fds 0

/-- What _poll leaves of the entry `e`. -/
structure Answered (e e' : Pollfd) : Prop where
  fd : e'.fd = e.fd
  events : e'.events = e.events
  subset : e'.revents &&& e.events = e'.revents
  skipped : e.fd.toInt < 0 → e'.revents = 0

def readyCount (fds : List Pollfd) : Nat := fds.countP fun e => decide (e.revents ≠ 0)

/-- An answer counts one exactly if it reports something, and reports only what was asked. -/
def Fair (events : Half) (a : Answer) : Prop :=
  a.1 = (if a.2 ≠ 0 then 1 else 0) ∧ a.2 &&& events = a.2

theorem fair_pollin (events : Half) (ready : Prop) [Decidable ready] :
    Fair events (if events &&& POLLIN ≠ 0 ∧ ready then (1, 0 ||| POLLIN) else (0, 0)) := by
  split_ifs with h
  · refine ⟨rfl, ?_⟩
    have hbit : (events &&& POLLIN).toNat = events.toNat % 2 := by
      exact Nat.and_one_is_mod _
    have hone : events &&& POLLIN = 1 := by
      bv_omega
    rw [BitVec.and_comm]
    exact hone
  · exact ⟨rfl, BitVec.zero_and⟩

theorem vfsPoll_fair (k : Keyboard) (f : Polled) (events : Half) :
    Fair events (vfsPoll k f events 0) := by
  cases f with
  | ext2 f =>
    have h := fair_pollin events (f.pos < f.size)
    rwa [ite_and] at h
  | tty =>
    have h := fair_pollin events (kbdHasdata k)
    rwa [ite_and] at h
  | socket s =>
    have h := fair_pollin events (0 < s.pos ∨ s.state = DISCONNECTED)
    simpa only [vfsPoll, socketPoll, Option.isNone_some, Bool.false_eq_true, and_false,
      if_false] using h

theorem pollLoop_counts (k : Keyboard) (files : Word → Option Polled) (fds : List Pollfd)
    (ret : Int) (h : ∀ e ∈ fds, 0 ≤ e.fd.toInt → (files e.fd).isSome) :
    ∃ fds', pollLoop k files fds ret = .ok (ret + readyCount fds', fds') ∧
      List.Forall₂ Answered fds fds' := by
  induction fds generalizing ret with
  | nil => exact ⟨[], by simp [pollLoop, readyCount], .nil⟩
  | cons e fds ih =>
    obtain ⟨he, hfds⟩ := List.forall_mem_cons.mp h
    by_cases hneg : e.fd.toInt < 0
    · obtain ⟨fds', hl, ha⟩ := ih ret hfds
      refine ⟨{ e with revents := 0 } :: fds', ?_, .cons ⟨rfl, rfl, BitVec.zero_and, fun _ => rfl⟩ ha⟩
      simp [pollLoop, hneg, hl, readyCount]
    · obtain ⟨f, hf⟩ := Option.isSome_iff_exists.mp (he (by omega))
      obtain ⟨hn, hsub⟩ := vfsPoll_fair k f e.events
      obtain ⟨fds', hl, ha⟩ := ih (ret + (vfsPoll k f e.events 0).1) hfds
      refine ⟨{ e with revents := (vfsPoll k f e.events 0).2 } :: fds', ?_,
        .cons ⟨rfl, rfl, hsub, fun h => absurd h hneg⟩ ha⟩
      simp only [pollLoop, hneg, if_false, hf, hl]
      rw [hn, readyCount, readyCount, List.countP_cons]
      simp only [decide_eq_true_eq]
      congr 2
      split_ifs <;> push_cast <;> omega

/-- _poll returns the number of entries with something in `revents`, reports only what was
asked for, and changes nothing else. -/
theorem poll_counts_ready (k : Keyboard) (files : Word → Option Polled) (fds : List Pollfd)
    (h : ∀ e ∈ fds, 0 ≤ e.fd.toInt → (files e.fd).isSome) :
    ∃ fds', poll k files fds = .ok (readyCount fds', fds') ∧ List.Forall₂ Answered fds fds' := by
  obtain ⟨fds', hl, ha⟩ := pollLoop_counts k files fds 0 h
  rw [Int.zero_add] at hl
  exact ⟨fds', hl, ha⟩

/-- A terminal with a key, a file read to its end, and an entry to be skipped. -/
theorem poll_counts_ready_three : ∃ fds', poll ⟨fun _ => 0, 1⟩
    (fun fd => if fd = 0 then some .tty else some (.ext2 ⟨8, 8⟩))
    [⟨0, 1, 7⟩, ⟨3, 1, 0⟩, ⟨-1, 1, 5⟩] = .ok (readyCount fds', fds') ∧
      List.Forall₂ Answered [⟨0, 1, 7⟩, ⟨3, 1, 0⟩, ⟨-1, 1, 5⟩] fds' :=
  poll_counts_ready _ _ _ fun e _ _ => by
    split_ifs <;> rfl

end TapiOS.Task.Poll
