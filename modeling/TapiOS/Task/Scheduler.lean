import TapiOS.Task.ProcessTree

/-!
# Processes and the run queue, task/process.c, task/scheduler.c and syscall/syscalls.c

The parts of fork, `_exit`, `_waitpid` and switch_task that work on process_list and on the
process tree. A system call runs with interrupts off, so a call is one step; a process in
the loop of `_waitpid` gives up the processor in every round, and each round is a step.
-/
namespace TapiOS.Task.Scheduler

open Lib Util ProcessTree

inductive ProcessState where
  | created
  | waiting
  | running
  | blocked
  | finished
  deriving DecidableEq, Repr

structure Process where
  pid : Word
  next : Word
  state : ProcessState
  deriving DecidableEq, Repr

/-- The variables of a `_waitpid(-1, ...)` call that is in its loop. -/
structure Wait where
  pnode : Word
  ret : Word
  deriving DecidableEq, Repr

/-- `blocks` are the blocks that kmalloc returned for processes, newest first; `waits` holds
the calls of `_waitpid` that have not returned. -/
structure Tasks where
  processes : Word → Process
  tree : ProcessTree
  processList : Word
  currentProcess : Word
  nextpid : Word
  blocks : List Word
  waits : Word → Option Wait

namespace Tasks

def set (t : Tasks) (a : Word) (f : Process → Process) : Tasks :=
  { t with processes := fun x => if x = a then f (t.processes x) else t.processes x }

@[simp] theorem set_processes (t : Tasks) (a : Word) (f : Process → Process) (x : Word) :
    (t.set a f).processes x = if x = a then f (t.processes x) else t.processes x := rfl

def setState (t : Tasks) (a : Word) (s : ProcessState) : Tasks := t.set a fun p => { p with state := s }

def nextOf (t : Tasks) (a : Word) : Word := (t.processes a).next

def stateOf (t : Tasks) (a : Word) : ProcessState := (t.processes a).state

def pidOf (t : Tasks) (a : Word) : Word := (t.processes a).pid

end Tasks

open Tasks

/-- A loop over process_list that is longer than this meets a process twice. -/
def processBound : Nat := 2 ^ 32

/-- The list {pid 1, idle} and the tree of pid 1, as setup_initial_process leaves them. -/
def setupInitialProcess (init idle root : Word) : Tasks where
  processes a := if a = init then ⟨1, idle, .running⟩ else ⟨-1, 0, .running⟩
  tree := setupProcessTree root init
  processList := init
  currentProcess := init
  nextpid := 2
  blocks := [idle, init]
  waits _ := none

def getNextProcess (t : Tasks) : Except Halt Word :=
  if t.nextOf t.currentProcess = 0 then .ok t.processList
  else match findAlong 0 t.nextOf (fun a => decide (t.stateOf a ≠ .finished)) processBound
    (t.nextOf t.currentProcess) with
  | none => .error .endless
  | some ret => .ok (if ret = 0 then t.processList else ret)

/-- The loop of reap_finished_processes; a finished process stays the predecessor of the
next one. -/
def reapLoop : Nat → Word → Word → Tasks → Except Halt Tasks
  | 0, _, p, t => if p = 0 then .ok t else .error .endless
  | k + 1, pp, p, t =>
    if p = 0 then .ok t
    else if t.stateOf p = .finished then
      let t := if pp = 0 then t else t.set pp fun x => { x with next := t.nextOf p }
      match deleteProcessFromProcessTree t.tree p with
      | .error e => .error e
      | .ok (_, tree) =>
        let t := { t with tree := tree }
        reapLoop k p (t.nextOf p) t
    else reapLoop k p (t.nextOf p) t

def reapFinishedProcesses (t : Tasks) : Except Halt Tasks :=
  reapLoop processBound 0 t.processList t

def switchTask (t : Tasks) : Except Halt Tasks :=
  if t.currentProcess = 0 then .ok t
  else match getNextProcess t with
  | .error e => .error e
  | .ok new => .ok (if new = 0 ∨ t.currentProcess = new then t else { t with currentProcess := new })

/-- `child` and `node` are the blocks for the process and its node in the tree. -/
def fork (t : Tasks) (child node : Word) : Except Halt (Word × Tasks) :=
  if child = 0 ∨ child ∈ t.blocks then .error .noMemory
  else
    let pid := t.nextpid
    let t := Tasks.set { t with nextpid := pid + 1, blocks := child :: t.blocks } child
      fun _ => ⟨pid, 0, .created⟩
    match findAlong 0 t.nextOf (fun a => decide (t.nextOf a = 0)) processBound t.processList with
    | none => .error .endless
    | some p =>
      if p = 0 then .error .fault
      else
        let t := t.set p fun x => { x with next := child }
        match insertProcessToProcessTree t.tree node child t.currentProcess with
        | .error e => .error e
        | .ok tree => .ok (pid, { t with tree := tree })

def exit (t : Tasks) : Except Halt Tasks :=
  reapFinishedProcesses (t.setState t.currentProcess .finished)

/-- `_waitpid(-1, ...)` up to its loop: the value it returns at once, or the wait. -/
def waitpid (t : Tasks) : Except Halt (Option Word × Tasks) :=
  match findProcessFromProcessTree t.tree t.currentProcess with
  | none => .error .endless
  | some pnode =>
    if pnode = 0 then .error .fault
    else if t.tree.firstOf pnode = 0 then .ok (some (-1), t)
    else
      let ret := t.pidOf (t.tree.processOf (t.tree.firstOf pnode))
      let t := t.setState t.currentProcess .waiting
      .ok (none, { t with
        waits := fun a => if a = t.currentProcess then some ⟨pnode, ret⟩ else t.waits a })

/-- One round of the loop. -/
def waitLoop (t : Tasks) (w : Wait) : Except Halt (Option Word × Tasks) :=
  if t.tree.firstOf w.pnode = 0 then
    let t := t.setState t.currentProcess .running
    .ok (some w.ret, { t with waits := fun a => if a = t.currentProcess then none else t.waits a })
  else (switchTask t).map fun t => (none, t)

/-- What the current process does next, or the timer interrupt. -/
inductive TaskCall where
  | fork (child node : Word)
  | exit
  | waitpid
  | resume
  | switch
  deriving DecidableEq, Repr

/-- A finished process waits for the switch, and one in `_waitpid` makes no other call. -/
def Tasks.runs (t : Tasks) : Bool :=
  decide (t.stateOf t.currentProcess ≠ .finished) && (t.waits t.currentProcess).isNone

/-- A step; the output is the value that a system call returns. -/
def step (t : Tasks) : TaskCall → Except Halt (Option Word × Tasks)
  | .fork child node =>
    if !t.runs then .error .notRunning
    else (Scheduler.fork t child node).map fun r => (some r.1, r.2)
  | .exit =>
    if !t.runs then .error .notRunning
    else (Scheduler.exit t).map fun t => (none, t)
  | .waitpid => if !t.runs then .error .notRunning else Scheduler.waitpid t
  | .resume =>
    match t.waits t.currentProcess with
    | none => .error .notRunning
    | some w => waitLoop t w
  | .switch => (switchTask t).map fun t => (none, t)

end TapiOS.Task.Scheduler
