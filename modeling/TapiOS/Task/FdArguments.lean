import TapiOS.Task.FileCounts

/-!
# Descriptor arguments of the system calls, syscall/syscalls.c and fs/vfs.c

Each call that takes a descriptor looks up current_process->fds with its own check. Most
of them look before they check, or do not check at all. What happens behind a file that
was found is up to its driver.
-/
namespace TapiOS.Task.FdArguments

open Lib Util Fs Kernel

def FD_MAX : Int := 256

def F_DUPFD : Int := 0
def TCGETATTR : Int := 1
def TCSETATTR : Int := 2
def POLLNVAL : BitVec 16 := 1 <<< 8

def ENOTSOCK : Int := 108
def ECONNREFUSED : Int := 111

structure PollFd where
  fd : Int
  events : BitVec 16

variable {fds : List PollFd}

/-- What the vfs functions are asked to do with a file. -/
inductive Request where
  | read (dest count : Word)
  | write (data count : Word)
  | readdir (ret : Word)
  | stat (buf : Word)
  | ioctl (req : Int) (argp : Word)

/-- How `_connect` goes on with an inode: no device, an established connection or none. -/
inductive Attempt where
  | notSocket
  | connected
  | refused

/-- The code behind a file; `none` does not return. A poll does not give up the processor. -/
structure FileOps where
  serve : Request → Word → Kernel → Option (Int × Kernel)
  poll : BitVec 16 → Word → Vfs → Option ((Int × BitVec 16) × Vfs)
  connect : Word → Word → Kernel → Option (Attempt × Kernel)

/-- How a call ends without returning: a stop of the calls that change the table, the PANIC
of `_read` and `_write`, a field read through a NULL file, or something behind a file. -/
inductive Halt where
  | call (e : Stop)
  | panic
  | nullFile
  | behind
  deriving DecidableEq

variable {h : Halt} {empty : Except Halt (Int × Kernel)}

/-- The value a call returns, and the revents of a poll. -/
structure Answer where
  ret : Int
  revents : List (BitVec 16)
  deriving DecidableEq

/-- `struct file *f=current_process->fds[fd]`, and what the call does without and with a file. -/
def withFile (k : Kernel) (p : Nat) (fd : Int) (empty : Except Halt (Int × Kernel))
    (found : Word → Except Halt (Int × Kernel)) : Except Halt (Int × Kernel) :=
  match descriptor fd with
  | .error e => .error (.call e)
  | .ok i => if k.fds p i = 0 then empty else found (k.fds p i)

def FileOps.request (ops : FileOps) (k : Kernel) (r : Request) (f : Word) :
    Except Halt (Int × Kernel) :=
  match ops.serve r f k with
  | none => .error .behind
  | some r => .ok r

section Calls
variable (ops : FileOps) (k : Kernel) (p : Nat)

def sysRead (fd : Int) (dest count : Word) : Except Halt (Int × Kernel) :=
  withFile k p fd (.error .panic) (ops.request k (.read dest count))

/-- `_write` also prints the descriptor before the PANIC. -/
def sysWrite (fd : Int) (data count : Word) : Except Halt (Int × Kernel) :=
  withFile k p fd (.error .panic) (ops.request k (.write data count))

/-- vfs_readdir takes the inode of whatever is in the slot. -/
def sysReaddir (dirfd : Int) (ret : Word) : Except Halt (Int × Kernel) :=
  withFile k p dirfd (.error .nullFile) (ops.request k (.readdir ret))

def sysFstat (fd : Int) (buf : Word) : Except Halt (Int × Kernel) :=
  withFile k p fd (.ok (-EBADF, k)) (ops.request k (.stat buf))

def sysIoctl (fd req : Int) (argp : Word) : Except Halt (Int × Kernel) :=
  if req = TCGETATTR ∨ req = TCSETATTR then
    withFile k p fd (.ok (-EBADF, k)) (ops.request k (.ioctl req argp))
  else .ok (-EINVAL, k)

/-- A call that creates or drops descriptors. -/
def onTable (c : Call) : Except Halt (Int × Kernel) :=
  match perform k c with
  | .error e => .error (.call e)
  | .ok (r, k) => .ok (r.ret, k)

def sysFcntl (fd cmd arg : Int) : Except Halt (Int × Kernel) :=
  if cmd = F_DUPFD then onTable k (.dupFd p fd arg) else .ok (-EINVAL, k)

def sysConnect (sock : Int) (addr : Word) : Except Halt (Int × Kernel) :=
  withFile k p sock (.ok (-EBADF, k)) (fun f =>
    if (k.vfs.files f).inode = 0 then .ok (-EBADF, k)
    else match ops.connect addr f k with
    | none => .error .behind
    | some (.notSocket, k) => .ok (-ENOTSOCK, k)
    | some (.connected, k) => .ok (0, k)
    | some (.refused, k) =>
      match onTable k (.close p sock) with
      | .error e => .error e
      | .ok (_, k) => .ok (-ECONNREFUSED, k))

/-- The loop of `_poll` over the remaining entries. -/
def sysPoll (k : Kernel) : List PollFd → Except Halt (Answer × Kernel)
  | [] => .ok (⟨0, []⟩, k)
  | e :: es =>
    if e.fd < 0 then
      match sysPoll k es with
      | .error h => .error h
      | .ok (a, k) => .ok (⟨a.ret, 0 :: a.revents⟩, k)
    else match descriptor e.fd with
    | .error s => .error (.call s)
    | .ok i =>
      if k.fds p i = 0 then .error .nullFile
      else match ops.poll e.events (k.fds p i) k.vfs with
      | none => .error .behind
      | some ((n, revents), v) =>
        match sysPoll { k with vfs := v } es with
        | .error h => .error h
        | .ok (a, k) => .ok (⟨n + a.ret, revents :: a.revents⟩, k)

end Calls

/-- The ten calls with the arguments of their caller. -/
inductive FdCall where
  | read (fd : Int) (dest count : Word)
  | write (fd : Int) (data count : Word)
  | close (fd : Int)
  | readdir (dirfd : Int) (ret : Word)
  | fstat (fd : Int) (buf : Word)
  | dup2 (oldfd newfd : Int)
  | fcntl (fd cmd arg : Int)
  | ioctl (fd req : Int) (argp : Word)
  | poll (fds : List PollFd)
  | connect (sock : Int) (addr : Word)

def returned (r : Except Halt (Int × Kernel)) : Except Halt (Answer × Kernel) :=
  match r with
  | .error h => .error h
  | .ok (ret, k) => .ok (⟨ret, []⟩, k)

def answer (ops : FileOps) (k : Kernel) (p : Nat) : FdCall → Except Halt (Answer × Kernel)
  | .read fd dest count => returned (sysRead ops k p fd dest count)
  | .write fd data count => returned (sysWrite ops k p fd data count)
  | .close fd => returned (onTable k (.close p fd))
  | .readdir dirfd ret => returned (sysReaddir ops k p dirfd ret)
  | .fstat fd buf => returned (sysFstat ops k p fd buf)
  | .dup2 oldfd newfd => returned (onTable k (.dup2 p oldfd newfd))
  | .fcntl fd cmd arg => returned (sysFcntl k p fd cmd arg)
  | .ioctl fd req argp => returned (sysIoctl ops k p fd req argp)
  | .poll fds => sysPoll ops p k fds
  | .connect sock addr => returned (sysConnect ops k p sock addr)

/-- The index is one of the table. -/
def InTable (fd : Int) : Prop := 0 ≤ fd ∧ fd < FD_MAX

/-- Nothing is open there: the index is outside the table or its slot is empty. -/
def Bad (k : Kernel) (p : Nat) (fd : Int) : Prop := ∀ i, descriptor fd = .ok i → k.fds p i = 0

/-- An index outside the table, a PANIC or a NULL file. -/
def Halt.Barred : Halt → Prop
  | .call e => e = .badDescriptor
  | .panic => True
  | .nullFile => True
  | .behind => False

/-- The call returns a negative error and leaves everything as it is. -/
def Rejects (k : Kernel) (r : Except Halt (Answer × Kernel)) : Prop :=
  ∃ a, r = .ok (a, k) ∧ a.ret < 0

/-- A poll returns with POLLNVAL in the entries where nothing is open. -/
def Flags (k : Kernel) (p : Nat) (fds : List PollFd) (r : Except Halt (Answer × Kernel)) : Prop :=
  ∃ a k', r = .ok (a, k') ∧
    (∀ x ∈ fds.zip a.revents, Bad k p x.1.fd → x.2 &&& POLLNVAL ≠ 0) ∧
    ((∀ e ∈ fds, Bad k p e.fd) → k' = k)

/-- What a call has to do about the descriptors among its arguments. -/
def Refuses (k : Kernel) (p : Nat) (r : Except Halt (Answer × Kernel)) : FdCall → Prop
  | .read fd _ _ => Bad k p fd → Rejects k r
  | .write fd _ _ => Bad k p fd → Rejects k r
  | .close fd => Bad k p fd → Rejects k r
  | .readdir dirfd _ => Bad k p dirfd → Rejects k r
  | .fstat fd _ => Bad k p fd → Rejects k r
  | .dup2 oldfd newfd => Bad k p oldfd ∨ ¬InTable newfd → Rejects k r
  | .fcntl fd cmd arg => Bad k p fd ∨ cmd = F_DUPFD ∧ ¬InTable arg → Rejects k r
  | .ioctl fd _ _ => Bad k p fd → Rejects k r
  | .poll fds => (∃ e ∈ fds, Bad k p e.fd) → Flags k p fds r
  | .connect sock _ => Bad k p sock → Rejects k r

/-- The descriptors of a call are validated. -/
structure Validated (ops : FileOps) (k : Kernel) (p : Nat) (c : FdCall) : Prop where
  allowed : ∀ h, answer ops k p c = .error h → ¬h.Barred
  refuses : Refuses k p (answer ops k p c) c

/-- The arguments the calls can cope with. -/
def Copes (k : Kernel) (p : Nat) : FdCall → Prop
  | .read fd _ _ => ¬Bad k p fd
  | .write fd _ _ => ¬Bad k p fd
  | .close fd => InTable fd
  | .readdir dirfd _ => ¬Bad k p dirfd
  | .fstat fd _ => InTable fd
  | .dup2 oldfd newfd => InTable oldfd ∧ (Bad k p oldfd ∨ oldfd = newfd ∨ InTable newfd)
  | .fcntl fd cmd arg => cmd = F_DUPFD → InTable fd → 0 ≤ arg
  | .ioctl fd req _ => req = TCGETATTR ∨ req = TCSETATTR → InTable fd
  | .poll fds => ∀ e ∈ fds, ¬Bad k p e.fd
  | .connect sock _ => InTable sock

section Lookups
variable {k : Kernel} {p : Nat} {fd : Int} {i : Fd}

theorem descriptor_of_inTable (h : InTable fd) : ∃ i, descriptor fd = .ok i := ⟨_, dif_pos h⟩

theorem lookup_cases (k : Kernel) (p : Nat) (fd : Int) :
    (¬InTable fd ∧ descriptor fd = .error .badDescriptor) ∨
    (∃ i, descriptor fd = .ok i ∧ k.fds p i = 0) ∨
    (∃ i, descriptor fd = .ok i ∧ k.fds p i ≠ 0) := by
  by_cases h : InTable fd
  · obtain ⟨i, hi⟩ := descriptor_of_inTable h
    by_cases h0 : k.fds p i = 0
    · exact .inr (.inl ⟨i, hi, h0⟩)
    · exact .inr (.inr ⟨i, hi, h0⟩)
  · exact .inl ⟨h, dif_neg h⟩

theorem inTable_of_descriptor (h : descriptor fd = .ok i) : InTable fd := by
  unfold descriptor at h
  split_ifs at h with hr
  exact hr

theorem bad_of_outside (h : ¬InTable fd) : Bad k p fd := by
  intro i hi
  exact absurd (inTable_of_descriptor hi) h

theorem bad_iff (h : descriptor fd = .ok i) : Bad k p fd ↔ k.fds p i = 0 := by
  constructor
  · intro hb
    exact hb i h
  · intro h0 j hj
    rw [← Except.ok.inj (h.symm.trans hj)]
    exact h0

theorem inTable_of_not_bad (h : ¬Bad k p fd) : InTable fd := by
  by_contra hn
  exact h (bad_of_outside hn)

end Lookups

section Handling
variable {k : Kernel} {p : Nat} {fd : Int} {P : Prop} {r : Except Halt (Int × Kernel)}
  {found : Word → Except Halt (Int × Kernel)}

/-- A call stops at nothing barred, and it rejects what satisfies `P`. -/
def Handles (k : Kernel) (P : Prop) (r : Except Halt (Answer × Kernel)) : Prop :=
  (∀ h, r = .error h → ¬h.Barred) ∧ (P → Rejects k r)

theorem not_handles (hr : r = .error h) (hb : h.Barred) : ¬Handles k P (returned r) := by
  intro hh
  subst hr
  exact hh.1 h rfl hb

theorem handles_rejected {e : Int} (hr : r = .ok (e, k)) (he : e < 0) :
    Handles k P (returned r) := by
  subst hr
  constructor
  · intro h hh
    cases hh
  · intro _
    exact ⟨_, rfl, he⟩

theorem handles_accepted (hP : ¬P) (hr : ∀ h, r = .error h → ¬h.Barred) :
    Handles k P (returned r) := by
  refine ⟨?_, fun h => absurd h hP⟩
  cases r with
  | error h =>
    intro h' hh
    cases hh
    exact hr h rfl
  | ok x =>
    intro h' hh
    cases hh

theorem withFile_outside (h : descriptor fd = .error .badDescriptor) :
    withFile k p fd empty found = .error (.call .badDescriptor) := by
  unfold withFile
  rw [h]

theorem withFile_of_ok {i : Fd} (h : descriptor fd = .ok i) :
    withFile k p fd empty found = if k.fds p i = 0 then empty else found (k.fds p i) := by
  unfold withFile
  rw [h]

/-- A call that stops at an empty slot handles its descriptor only when a file is there. -/
theorem handles_strict_iff {h0 : Halt} (hb : h0.Barred)
    (hf : ∀ f h, found f = .error h → ¬h.Barred) :
    Handles k (Bad k p fd) (returned (withFile k p fd (.error h0) found)) ↔ ¬Bad k p fd := by
  obtain ⟨hout, hd⟩ | ⟨i, hd, h0⟩ | ⟨i, hd, h0⟩ := lookup_cases k p fd
  · exact iff_of_false (not_handles (withFile_outside hd) rfl)
      (not_not_intro (bad_of_outside hout))
  · rw [bad_iff hd, withFile_of_ok hd, if_pos h0]
    exact iff_of_false (not_handles rfl hb) (not_not_intro h0)
  · rw [bad_iff hd, withFile_of_ok hd, if_neg h0]
    exact iff_of_true (handles_accepted h0 (hf _)) h0

/-- A call that returns an error for an empty slot handles every index of the table. -/
theorem handles_lenient_iff {e : Int} (he : e < 0)
    (hf : ∀ f h, found f = .error h → ¬h.Barred) :
    Handles k (Bad k p fd) (returned (withFile k p fd (.ok (e, k)) found)) ↔ InTable fd := by
  obtain ⟨hout, hd⟩ | ⟨i, hd, h0⟩ | ⟨i, hd, h0⟩ := lookup_cases k p fd
  · exact iff_of_false (not_handles (withFile_outside hd) rfl) hout
  · rw [withFile_of_ok hd, if_pos h0]
    exact iff_of_true (handles_rejected rfl he) (inTable_of_descriptor hd)
  · rw [bad_iff hd, withFile_of_ok hd, if_neg h0]
    exact iff_of_true (handles_accepted h0 (hf _)) (inTable_of_descriptor hd)

theorem request_error {ops : FileOps} {q : Request} (f : Word) (h : Halt)
    (hr : ops.request k q f = .error h) : ¬h.Barred := by
  unfold FileOps.request at hr
  split at hr
  · cases hr
    exact id
  · cases hr

end Handling

section Table
variable {k : Kernel} {p : Nat} {fd : Int}

theorem sysClose_error {i : Fd} {e : Stop} (h : sysClose k p i = .error e) :
    e ≠ .badDescriptor := by
  simp only [sysClose, FileKind.sysClose, FileKind.closeSlot, files_fds, files_close, files_kfree,
    closeFile] at h
  split_ifs at h
  cases hv : vfsClose k.vfs (k.fds p i) with
  | error e' =>
    rw [hv] at h
    cases h
    obtain ⟨rfl, -⟩ | rfl | rfl := vfsClose_error hv <;> decide
  | ok x =>
    rw [hv] at h
    dsimp only at h
    split_ifs at h
    cases hk : x.2.kfree (k.fds p i) with
    | error e' =>
      rw [hk] at h
      cases h
      rw [kfree_error hk]
      decide
    | ok v =>
      rw [hk] at h
      cases h

theorem onTable_error {c : Call} (hr : onTable k c = .error h) :
    ∃ e, h = .call e ∧ perform k c = .error e := by
  unfold onTable at hr
  split at hr
  · rename_i e he
    cases hr
    exact ⟨e, rfl, he⟩
  · cases hr

theorem onTable_close_error (hin : InTable fd) (hr : onTable k (.close p fd) = .error h) :
    ¬h.Barred := by
  obtain ⟨e, rfl, he⟩ := onTable_error hr
  obtain ⟨i, hd⟩ := descriptor_of_inTable hin
  simp only [perform, hd] at he
  split at he
  · rename_i hc
    cases he
    exact sysClose_error hc
  · cases he

theorem handles_close_iff :
    Handles k (Bad k p fd) (returned (onTable k (.close p fd))) ↔ InTable fd := by
  obtain ⟨hout, hd⟩ | ⟨i, hd, h0⟩ | ⟨i, hd, h0⟩ := lookup_cases k p fd
  · have hr : onTable k (.close p fd) = .error (.call .badDescriptor) := by
      simp only [onTable, perform, hd]
    exact iff_of_false (not_handles hr rfl) hout
  · have hr : onTable k (.close p fd) = .ok (-EBADF, k) := by
      simp [onTable, perform, hd, sysClose, FileKind.sysClose, files_fds, h0]
    exact iff_of_true (handles_rejected hr (by decide)) (inTable_of_descriptor hd)
  · have hin := inTable_of_descriptor hd
    rw [bad_iff hd]
    exact iff_of_true (handles_accepted h0 (fun h => onTable_close_error hin)) hin

theorem onTable_dup2 {oldfd newfd : Int} {i : Fd} (hd : descriptor oldfd = .ok i)
    (h0 : k.fds p i ≠ 0) (hne : oldfd ≠ newfd) :
    onTable k (.dup2 p oldfd newfd) =
      match descriptor newfd with
      | .error e => .error (.call e)
      | .ok j =>
        match sysClose k p j with
        | .error e => .error (.call e)
        | .ok (_, k') => .ok (0, shareFile k' p j (k.fds p i)) := by
  simp only [onTable, perform, hd, sysDup2, FileKind.sysDup2, files_fds, h0, if_false,
    descriptor_toNat hd, hne]
  cases descriptor newfd with
  | error e => rfl
  | ok j =>
    dsimp only [sysClose]
    cases files.sysClose k p j <;> rfl

theorem handles_dup2_iff {oldfd newfd : Int} :
    Handles k (Bad k p oldfd ∨ ¬InTable newfd) (returned (onTable k (.dup2 p oldfd newfd))) ↔
      InTable oldfd ∧ (Bad k p oldfd ∨ oldfd = newfd ∨ InTable newfd) := by
  obtain ⟨hout, hd⟩ | ⟨i, hd, h0⟩ | ⟨i, hd, h0⟩ := lookup_cases k p oldfd
  · have hr : onTable k (.dup2 p oldfd newfd) = .error (.call .badDescriptor) := by
      simp only [onTable, perform, hd]
    exact iff_of_false (not_handles hr rfl) (fun h => hout h.1)
  · have hr : onTable k (.dup2 p oldfd newfd) = .ok (-EBADF, k) := by
      simp [onTable, perform, hd, sysDup2, FileKind.sysDup2, files_fds, h0]
    exact iff_of_true (handles_rejected hr (by decide))
      ⟨inTable_of_descriptor hd, .inl ((bad_iff hd).mpr h0)⟩
  · have hin := inTable_of_descriptor hd
    by_cases hne : oldfd = newfd
    · subst hne
      have hr : onTable k (.dup2 p oldfd oldfd) = .ok (oldfd, k) := by
        simp only [onTable, perform, hd, sysDup2, FileKind.sysDup2, files_fds, h0, if_false,
          descriptor_toNat hd, if_true]
      refine iff_of_true (handles_accepted ?_ (fun h hh => ?_)) ⟨hin, .inr (.inl rfl)⟩
      · rw [bad_iff hd]
        exact not_or.mpr ⟨h0, not_not_intro hin⟩
      · rw [hr] at hh
        cases hh
    · have hr := onTable_dup2 hd h0 hne
      by_cases hin' : InTable newfd
      · obtain ⟨j, hn⟩ := descriptor_of_inTable hin'
        rw [hn] at hr
        refine iff_of_true (handles_accepted ?_ (fun h hh => ?_)) ⟨hin, .inr (.inr hin')⟩
        · rw [bad_iff hd]
          exact not_or.mpr ⟨h0, not_not_intro hin'⟩
        · rw [hr] at hh
          dsimp only at hh
          split at hh
          · rename_i hc
            cases hh
            exact sysClose_error hc
          · cases hh
      · rw [show descriptor newfd = .error .badDescriptor from dif_neg hin'] at hr
        refine iff_of_false (not_handles hr rfl) (fun h => ?_)
        rw [bad_iff hd] at h
        exact h.2.elim h0 (fun h => h.elim hne hin')

theorem sysDup2_empty {i j : Fd} (h0 : k.fds p i ≠ 0) (hj : k.fds p j = 0) :
    sysDup2 k p i j.val = .ok ((0, []), shareFile k p j (k.fds p i)) := by
  have hne : (i.val : Int) ≠ j.val := by
    intro he
    rw [Fin.ext (Int.ofNat.inj he)] at h0
    exact h0 hj
  simp only [sysDup2, FileKind.sysDup2, files_fds, h0, hne, if_false, descriptor_val,
    FileKind.sysClose, hj, if_true, shareFile]

theorem handles_dupFd_iff {arg : Int} :
    Handles k (Bad k p fd ∨ ¬InTable arg) (returned (onTable k (.dupFd p fd arg))) ↔
      (InTable fd → 0 ≤ arg) := by
  by_cases hin : InTable fd
  · obtain ⟨i, hd⟩ := descriptor_of_inTable hin
    simp only [hin, forall_const, onTable, perform, hd]
    by_cases harg : arg < 0
    · rw [if_pos harg]
      exact iff_of_false (not_handles rfl rfl) (not_le.mpr harg)
    · rw [if_neg harg]
      refine iff_of_true ?_ (not_lt.mp harg)
      unfold sysDupFd
      cases hfind : (List.finRange 256).find?
          (fun i => decide (arg.toNat ≤ i.val ∧ k.fds p i = 0)) with
      | none => exact handles_rejected (e := -EMFILE) rfl (by decide)
      | some j =>
        have hj : arg.toNat ≤ j.val ∧ k.fds p j = 0 := by simpa using List.find?_some hfind
        by_cases h0 : k.fds p i = 0
        · simp only [sysDup2, FileKind.sysDup2, files_fds, h0, if_true]
          exact handles_rejected (e := -EBADF) rfl (by decide)
        · simp only [sysDup2_empty h0 hj.2]
          refine handles_accepted ?_ (fun h hh => by cases hh)
          rw [bad_iff hd]
          refine not_or.mpr ⟨h0, not_not_intro ⟨not_lt.mp harg, ?_⟩⟩
          unfold FD_MAX
          omega
  · have hr : onTable k (.dupFd p fd arg) = .ok (-EINVAL, k) := by
      simp only [onTable, perform, show descriptor fd = .error .badDescriptor from dif_neg hin]
    exact iff_of_true (handles_rejected hr (by decide)) (fun h => absurd h hin)

theorem handles_fcntl_iff {cmd arg : Int} :
    Handles k (Bad k p fd ∨ cmd = F_DUPFD ∧ ¬InTable arg) (returned (sysFcntl k p fd cmd arg)) ↔
      (cmd = F_DUPFD → InTable fd → 0 ≤ arg) := by
  by_cases hcmd : cmd = F_DUPFD
  · rw [show sysFcntl k p fd cmd arg = onTable k (.dupFd p fd arg) from if_pos hcmd]
    simp only [hcmd, true_and, forall_const]
    exact handles_dupFd_iff
  · have hr : sysFcntl k p fd cmd arg = .ok (-EINVAL, k) := if_neg hcmd
    exact iff_of_true (handles_rejected hr (by decide)) (fun h => absurd h hcmd)

end Table

section Files
variable {ops : FileOps} {k : Kernel} {p : Nat} {fd : Int}

theorem handles_ioctl_iff {req : Int} {argp : Word} :
    Handles k (Bad k p fd) (returned (sysIoctl ops k p fd req argp)) ↔
      (req = TCGETATTR ∨ req = TCSETATTR → InTable fd) := by
  unfold sysIoctl
  by_cases hreq : req = TCGETATTR ∨ req = TCSETATTR
  · rw [if_pos hreq]
    simp only [hreq, forall_const]
    exact handles_lenient_iff (by decide) request_error
  · rw [if_neg hreq]
    exact iff_of_true (handles_rejected rfl (by decide)) (fun h => absurd h hreq)

/-- A refused connection closes the descriptor that was looked up before. -/
theorem handles_connect_iff {addr : Word} :
    Handles k (Bad k p fd) (returned (sysConnect ops k p fd addr)) ↔ InTable fd := by
  by_cases hin : InTable fd
  · refine handles_lenient_iff (by decide) (fun f h hh => ?_)
    split_ifs at hh
    split at hh
    · cases hh
      exact id
    · cases hh
    · cases hh
    · split at hh
      · rename_i hc
        cases hh
        exact onTable_close_error hin hc
      · cases hh
  · have hr : sysConnect ops k p fd addr = .error (.call .badDescriptor) :=
      withFile_outside (dif_neg hin)
    exact iff_of_false (not_handles hr rfl) hin

/-- A poll that returns had no index outside the table or empty slot, except that it skips
negative entries and clears their revents. -/
theorem sysPoll_skips {a : Answer} {k' : Kernel} {e : PollFd}
    (h : sysPoll ops p k fds = .ok (a, k')) (he : e ∈ fds) (hb : Bad k p e.fd) :
    (e, 0) ∈ fds.zip a.revents := by
  induction fds generalizing k a with
  | nil => cases he
  | cons e' es ih =>
    unfold sysPoll at h
    by_cases hneg : e'.fd < 0
    · rw [if_pos hneg] at h
      split at h
      · cases h
      · rename_i a' k'' hrest
        cases h
        cases he with
        | head => exact .head _
        | tail _ he => exact .tail _ (ih hrest he hb)
    · rw [if_neg hneg] at h
      split at h
      · cases h
      · rename_i i hi
        split_ifs at h with h0
        split at h
        · cases h
        · split at h
          · cases h
          · rename_i hrest
            cases h
            cases he with
            | head => exact absurd ((bad_iff hi).mp hb) h0
            | tail _ he => exact .tail _ (ih hrest he hb)

theorem sysPoll_error (hr : sysPoll ops p k fds = .error h) (hopen : ∀ e ∈ fds, ¬Bad k p e.fd) :
    ¬h.Barred := by
  induction fds generalizing k with
  | nil => cases hr
  | cons e es ih =>
    have hfirst := hopen e (.head _)
    obtain ⟨i, hi⟩ := descriptor_of_inTable (inTable_of_not_bad hfirst)
    have hneg : ¬e.fd < 0 := not_lt.mpr (inTable_of_not_bad hfirst).1
    have h0 : k.fds p i ≠ 0 := mt (bad_iff hi).mpr hfirst
    simp only [sysPoll, if_neg hneg, hi, if_neg h0] at hr
    split at hr
    · cases hr
      exact id
    · split at hr
      · rename_i hrest
        cases hr
        exact ih hrest (fun e he => hopen e (.tail _ he))
      · cases hr

end Files

/-- Each call validates its descriptors exactly for the arguments it can cope with. -/
theorem descriptors_validated_iff (ops : FileOps) (k : Kernel) (p : Nat) (c : FdCall) :
    Validated ops k p c ↔ Copes k p c := by
  have hsplit : Validated ops k p c ↔ (∀ h, answer ops k p c = .error h → ¬h.Barred) ∧
      Refuses k p (answer ops k p c) c := ⟨fun h => ⟨h.1, h.2⟩, fun h => ⟨h.1, h.2⟩⟩
  rw [hsplit]
  cases c with
  | read fd dest count => exact handles_strict_iff trivial request_error
  | write fd data count => exact handles_strict_iff trivial request_error
  | close fd => exact handles_close_iff
  | readdir dirfd ret => exact handles_strict_iff trivial request_error
  | fstat fd buf => exact handles_lenient_iff (by decide) request_error
  | dup2 oldfd newfd => exact handles_dup2_iff
  | fcntl fd cmd arg => exact handles_fcntl_iff
  | ioctl fd req argp => exact handles_ioctl_iff
  | poll fds =>
    constructor
    · intro h e he hb
      obtain ⟨a, k', ha, hflag, -⟩ := h.2 ⟨e, he, hb⟩
      exact hflag _ (sysPoll_skips ha he hb) hb (BitVec.zero_and)
    · intro hopen
      refine ⟨fun h hr => sysPoll_error hr hopen, fun hbad => ?_⟩
      obtain ⟨e, he, hb⟩ := hbad
      exact absurd hb (hopen e he)
  | connect sock addr => exact handles_connect_iff

/-- Files that answer every request with 0. -/
def quietOps : FileOps where
  serve := fun _ _ k => some (0, k)
  poll := fun _ _ v => some ((0, 0), v)
  connect := fun _ _ k => some (.connected, k)

/-- A process without open files: a read panics, a poll and a readdir follow NULL, and four
calls look outside the table. -/
theorem descriptors_not_validated :
    answer quietOps bareRoot 0 (.read 0 0 0) = .error .panic ∧
    answer quietOps bareRoot 0 (.write 0 0 0) = .error .panic ∧
    answer quietOps bareRoot 0 (.readdir 0 0) = .error .nullFile ∧
    answer quietOps bareRoot 0 (.poll [⟨0, 1⟩]) = .error .nullFile ∧
    answer quietOps bareRoot 0 (.close 256) = .error (.call .badDescriptor) ∧
    answer quietOps bareRoot 0 (.fstat (-1) 0) = .error (.call .badDescriptor) ∧
    answer quietOps bareRoot 0 (.fcntl 0 F_DUPFD (-1)) = .error (.call .badDescriptor) ∧
    answer quietOps bareRoot 0 (.connect 1000 0) = .error (.call .badDescriptor) ∧
    ∀ c ∈ [FdCall.read 0 0 0, .readdir 0 0, .poll [⟨0, 1⟩], .close 256],
      ¬Validated quietOps bareRoot 0 c := by
  refine ⟨rfl, rfl, rfl, rfl, rfl, rfl, rfl, rfl, ?_⟩
  intro c hc h
  simp only [List.mem_cons, List.not_mem_nil, or_false] at hc
  obtain rfl | rfl | rfl | rfl := hc
  · exact h.allowed .panic rfl trivial
  · exact h.allowed .nullFile rfl trivial
  · exact h.allowed .nullFile rfl trivial
  · exact h.allowed (.call .badDescriptor) rfl rfl

end TapiOS.Task.FdArguments
