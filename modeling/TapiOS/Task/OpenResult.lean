import TapiOS.Task.FileCounts

/-!
# What _open returns

`_open` looks the path up, creates the file if it is asked to, and passes the inode to
vfs_open. A file that vfs_open returns goes to the first free slot, and the number of the
slot is the result. Two results mislead the caller: vfs_open negates the error of the
driver, and a full table leaves the new struct file behind.
-/
namespace TapiOS.Task

open Lib Util Fs Kernel

/-- An inode, or the error of `_open` for a path without one. -/
def foundInode (inode : Word) : Except Int Word := if inode = 0 then .error (-ENOENT) else .ok inode

/-- `_open` up to vfs_open: the inode that it finds or creates, or the error it returns. -/
def openFind (d : Driver) (k : Kernel) (p : Nat) (path : Text) (flags : Word) :
    Except Stop (Except Int Word × Vfs) :=
  match openPlan d k p path flags with
  | .error e => .error e
  | .ok (.fail ret, v) => .ok (.error ret, v)
  | .ok (.node inode, v) => .ok (foundInode inode, v)
  | .ok (.create dir, v) =>
    match vfsNewInode d v dir path 0x8000 with
    | .error e => .error e
    | .ok (inode, v) => .ok (foundInode inode, v)

section Results
variable {d : Driver} {k k' : Kernel} {p : Nat} {path : Text} {flags node : Word} {v : Vfs}
  {r : Int}

/-- The slot of the result holds a struct file that was not there before, and the other slots
are as they were. -/
def Installed (k k' : Kernel) (p : Nat) (r : Int) : Prop :=
  ∃ (i : Fd) (f : Word), (i.val : Int) = r ∧ k.fds p i = 0 ∧ f ≠ 0 ∧ f ∉ k.vfs.fileBlocks ∧
    f ∈ k'.vfs.fileBlocks ∧ k'.fds = (k.setFd p i f).fds

/-- The result is a slot if and only if the file is in that slot; otherwise it is an error,
and neither the slots nor the struct files have changed. -/
def Truthful (k : Kernel) (p : Nat) (r : Int) (k' : Kernel) : Prop :=
  (0 ≤ r ↔ Installed k k' p r) ∧
    (¬ Installed k k' p r → r < 0 ∧ k'.fds = k.fds ∧ k'.vfs.fileBlocks = k.vfs.fileBlocks)

theorem Installed.nonneg (h : Installed k k' p r) : 0 ≤ r := by
  obtain ⟨i, f, hi, -⟩ := h
  omega

theorem Installed.fds_ne (h : Installed k k' p r) : k'.fds ≠ k.fds := by
  obtain ⟨i, f, -, h0, hf, -, -, hfds⟩ := h
  intro he
  have hslot := congrFun (congrFun (hfds.symm.trans he) p) i
  rw [h0] at hslot
  simp only [setFd, and_self, if_true] at hslot
  exact hf hslot

theorem truthful_of_error (hr : r < 0) (hfds : k'.fds = k.fds)
    (hblocks : k'.vfs.fileBlocks = k.vfs.fileBlocks) : Truthful k p r k' :=
  ⟨⟨fun h => by omega, fun h => absurd hfds h.fds_ne⟩, fun _ => ⟨hr, hfds, hblocks⟩⟩

theorem truthful_of_installed (h : Installed k k' p r) : Truthful k p r k' :=
  ⟨⟨fun _ => h, fun _ => h.nonneg⟩, fun hn => absurd h hn⟩

theorem openInstall_cases (hnode : node ≠ 0)
    (h : openInstall d k p node flags = .ok (r, k')) :
    ((k.vfs.inodes node).acts.opens = false ∧ r = -EBADF ∧ k'.fds = k.fds ∧
      k'.vfs.fileBlocks = k.vfs.fileBlocks) ∨
    ((k.vfs.inodes node).acts.opens ∧ (d.opening (k.vfs.inodes node) flags).1 < 0 ∧
      r = -(d.opening (k.vfs.inodes node) flags).1 ∧ k'.fds = k.fds) ∨
    ((k.vfs.inodes node).acts.opens ∧ 0 ≤ (d.opening (k.vfs.inodes node) flags).1 ∧
      (∀ i, k.fds p i ≠ 0) ∧ k'.fds = k.fds ∧
      ∃ f, k'.vfs.fileBlocks = f :: k.vfs.fileBlocks) ∨
    ((k.vfs.inodes node).acts.opens ∧ 0 ≤ (d.opening (k.vfs.inodes node) flags).1 ∧
      (∃ i, k.fds p i = 0) ∧ Installed k k' p r) := by
  unfold openInstall vfsOpen at h
  rw [if_neg hnode] at h
  cases hm : k.vfs.kmalloc with
  | error e =>
    simp only [hm] at h
    cases h
  | ok x =>
    obtain ⟨f, w⟩ := x
    obtain ⟨h0, -, hnew, hw⟩ := kmalloc_ok hm
    have hinodes : w.inodes = k.vfs.inodes := by rw [hw]
    have hblocks : w.fileBlocks = k.vfs.fileBlocks := by rw [hw]
    simp only [hm, Vfs.setFile, hinodes] at h
    cases hopens : (k.vfs.inodes node).acts.opens with
    | false =>
      left
      simp only [hopens, Bool.false_eq_true, if_false, if_true] at h
      cases h
      exact ⟨rfl, rfl, rfl, hblocks⟩
    | true =>
      right
      simp only [hopens, if_true] at h
      by_cases hneg : (d.opening (k.vfs.inodes node) flags).1 < 0
      · left
        simp only [hneg, if_true] at h
        cases h
        exact ⟨rfl, hneg, rfl, rfl⟩
      · right
        simp only [hneg, if_false, h0] at h
        have hge := Int.not_lt.mp hneg
        rcases newfd_eq (k := { k with vfs := _ }) (p := p) (f := f) with ⟨he, hfull⟩ | ⟨i, hi, he⟩
        · left
          rw [he] at h
          cases h
          exact ⟨rfl, hge, hfull, rfl, f, congrArg (f :: ·) hblocks⟩
        · right
          rw [he] at h
          cases h
          exact ⟨rfl, hge, ⟨i, hi⟩, i, f, rfl, hi, h0, hnew, .head _, rfl⟩

theorem openPlan_fails (h : openPlan d k p path flags = .ok (.fail r, v)) : r < 0 := by
  unfold openPlan at h
  split_ifs at h
  · cases h
    decide
  split at h
  · cases h
  · cases h
    decide
  split at h
  · cases h
    decide
  split at h
  · split at h
    · cases h
    · split_ifs at h
      · cases h
        decide
      · cases h
  · cases h

/-- The lookups leave the struct files alone, and their errors are negative. -/
theorem openFind_spec {found : Except Int Word}
    (h : openFind d k p path flags = .ok (found, v)) :
    v.fileBlocks = k.vfs.fileBlocks ∧ (∀ e, found = .error e → e < 0) ∧
      ∀ node, found = .ok node → node ≠ 0 := by
  have hinode : ∀ inode, (∀ e, foundInode inode = .error e → e < 0) ∧
      ∀ node, foundInode inode = .ok node → node ≠ 0 := by
    intro inode
    unfold foundInode
    by_cases h0 : inode = 0
    · rw [if_pos h0]
      exact ⟨fun e he => by cases he; decide, fun node he => nomatch he⟩
    · rw [if_neg h0]
      exact ⟨fun e he => (nomatch he), fun node he => by cases he; exact h0⟩
  have hlooks := (outcome_iff.mp (@openPlan_looks k p d path flags)).1
  unfold openFind at h
  split at h
  · cases h
  next ret v₀ hplan =>
    cases h
    refine ⟨(hlooks _ hplan).fileBlocks, fun e he => ?_, fun node he => nomatch he⟩
    cases he
    exact openPlan_fails hplan
  next inode v₀ hplan =>
    cases h
    exact ⟨(hlooks _ hplan).fileBlocks, hinode inode⟩
  next dir v₀ hplan =>
    split at h
    · cases h
    next inode v₁ hnew =>
      cases h
      exact ⟨(vfsNewInode_quiet hnew).fileBlocks.trans (hlooks _ hplan).fileBlocks, hinode inode⟩

theorem sysOpen_eq : sysOpen d k p path flags =
    match openFind d k p path flags with
    | .error e => .error e
    | .ok (.error e, v) => .ok (e, { k with vfs := v })
    | .ok (.ok node, v) => openInstall d { k with vfs := v } p node flags := by
  have hinstall : ∀ (v : Vfs) (inode : Word), openInstall d { k with vfs := v } p inode flags =
      match foundInode inode with
      | .error e => .ok (e, { k with vfs := v })
      | .ok node => openInstall d { k with vfs := v } p node flags := by
    intro v inode
    unfold foundInode
    by_cases h0 : inode = 0
    · rw [if_pos h0, openInstall, if_pos h0]
    · rw [if_neg h0]
  unfold sysOpen openFind
  cases openPlan d k p path flags with
  | error e => rfl
  | ok x =>
    obtain ⟨r, v⟩ := x
    cases r with
    | fail ret => rfl
    | node inode =>
      dsimp only
      rw [hinstall]
      cases foundInode inode <;> rfl
    | create dir =>
      dsimp only
      cases vfsNewInode d v dir path 0x8000 with
      | error e => rfl
      | ok y =>
        dsimp only
        rw [hinstall]
        cases foundInode y.1 <;> rfl

end Results

/-- The result of a call that returns can be trusted exactly when the inode it reaches, if its
driver opens files, is opened without an error while the table has a free slot. -/
theorem open_truthful_iff (d : Driver) (k : Kernel) (p : Nat) (path : Text) (flags : Word)
    (r : Int) (k' : Kernel) (h : sysOpen d k p path flags = .ok (r, k')) :
    Truthful k p r k' ↔ ∀ node v, openFind d k p path flags = .ok (.ok node, v) →
      (v.inodes node).acts.opens →
        0 ≤ (d.opening (v.inodes node) flags).1 ∧ ∃ i, k.fds p i = 0 := by
  rw [sysOpen_eq] at h
  cases hfind : openFind d k p path flags with
  | error e =>
    rw [hfind] at h
    cases h
  | ok x =>
    obtain ⟨found, v⟩ := x
    obtain ⟨hblocks, herror, hnode⟩ := openFind_spec hfind
    rw [hfind] at h
    cases found with
    | error e =>
      cases h
      refine iff_of_true (truthful_of_error (herror r rfl) rfl hblocks) ?_
      intro node v hfound
      cases hfound
    | ok node =>
      have honly : (∀ node' v', (Except.ok (.ok node, v) : Except Stop (Except Int Word × Vfs)) =
          .ok (.ok node', v') → (v'.inodes node').acts.opens →
          0 ≤ (d.opening (v'.inodes node') flags).1 ∧ ∃ i, k.fds p i = 0) ↔
          ((v.inodes node).acts.opens →
            0 ≤ (d.opening (v.inodes node) flags).1 ∧ ∃ i, k.fds p i = 0) := by
        constructor
        · intro hall
          exact hall node v rfl
        · intro hone node' v' he
          cases he
          exact hone
      rw [honly]
      rcases openInstall_cases (hnode node rfl) h with ⟨ho, hr, hfds, hb⟩ | ⟨ho, hneg, hr, hfds⟩ |
          ⟨ho, hge, hfull, hfds, f, hb⟩ | ⟨ho, hge, hfree, hin⟩
      · -- the driver opens no files
        refine iff_of_true (truthful_of_error (by rw [hr]; decide) hfds (hb.trans hblocks)) ?_
        intro hopens
        change (v.inodes node).acts.opens = false at ho
        rw [ho] at hopens
        cases hopens
      · -- its error comes back as a positive number
        refine iff_of_false (fun ht => ?_) (fun hc => ?_)
        · change (d.opening (v.inodes node) flags).1 < 0 at hneg
          change r = -(d.opening (v.inodes node) flags).1 at hr
          exact (ht.1.mp (by omega)).fds_ne hfds
        · have hge := (hc ho).1
          change (d.opening (v.inodes node) flags).1 < 0 at hneg
          omega
      · -- the struct file is left behind
        refine iff_of_false (fun ht => ?_) (fun hc => ?_)
        · have hlen := (ht.2 fun hin => hin.fds_ne hfds).2.2
          rw [hb] at hlen
          have hcount := congrArg List.length (hlen.trans hblocks.symm)
          simp at hcount
        · obtain ⟨i, hi⟩ := (hc ho).2
          exact hfull i hi
      · refine iff_of_true (truthful_of_installed ?_) fun _ => ⟨hge, hfree⟩
        obtain ⟨i, f, hi, h0, hf, hnew, hmem, hfds⟩ := hin
        exact ⟨i, f, hi, h0, hf, hblocks ▸ hnew, hmem, hfds⟩

/-- A kernel with nothing but the root directory, and one process without files. -/
def rootKernel : Kernel where
  vfs :=
    { inodes := fun _ => ⟨2, [], ⟨true, true, true, true, true⟩, 0, 0, 0⟩
      files := fun _ => ⟨0, 0, 0⟩
      rootFs := 1
      inodeBlocks := [1]
      fileBlocks := []
      supply := [2] }
  procs := 1
  fds := fun _ _ => 0
  cwd := fun _ => [slash]

/-- A driver that answers every open with the given status. -/
def statusDriver (status : Int) : Driver where
  search := fun _ _ => none
  create := fun _ _ _ => none
  opening := fun i _ => (status, i.acts)

theorem open_truthful_root : ∃ k', sysOpen (statusDriver 0) rootKernel 0 [slash] 0 = .ok (0, k') ∧
    Truthful rootKernel 0 0 k' := by
  refine ⟨_, rfl, (open_truthful_iff (statusDriver 0) rootKernel 0 [slash] 0 0 _ rfl).mpr ?_⟩
  intro node v _ _
  exact ⟨Int.le_refl 0, 0, rfl⟩

/-- The driver fails with -5, and `_open` returns 5 without a file. -/
theorem open_error_positive : ¬ ∀ d k p path flags r k',
    sysOpen d k p path flags = .ok (r, k') → Truthful k p r k' := by
  intro h
  have ht := h (statusDriver (-5)) rootKernel 0 [slash] 0 5 _ rfl
  have hin := ht.1.mp (by decide)
  exact hin.fds_ne rfl

end TapiOS.Task
