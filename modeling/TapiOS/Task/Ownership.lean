import TapiOS.Task.FileCounts
import TapiOS.Task.RunQueue

/-!
# Page directories and kernel stacks, fork, `_exec` and `_exit`

What these calls take from kmalloc and give to kfree. kfree knows addresses only: a file
that still points to an inode block which was freed and taken again would free whatever
lies there now, so inodes, page directories, stacks and programs are one heap here.
-/
namespace TapiOS.Task.Scheduler

open Lib Util Fs Tasks

variable {as : List Word} {k : Kernel} {A : Word → Prop}

/-- The heap blocks that belong to a process. -/
structure Space where
  pdir : Word
  esp0 : Word
  program : Word
  deriving DecidableEq, Repr

def Space.blocks (x : Space) : List Word := [x.program, x.pdir, x.esp0]

/-- `heap` are the blocks in use that are neither inodes nor files. -/
structure OsState where
  tasks : Tasks
  kernel : Kernel
  spaces : Word → Space
  heap : List Word
  initialPdir : Word

/-- A call of kfree, with the processes at that moment. -/
structure KfreeCall where
  ptr : Word
  tasks : Tasks
  spaces : Word → Space

namespace OsState

/-- The file system sees all blocks. -/
def joined (s : OsState) : Kernel :=
  { s.kernel with vfs :=
    { s.kernel.vfs with inodeBlocks := s.kernel.vfs.inodeBlocks ++ s.heap } }

/-- The two kinds of blocks again, after a call of the file system. -/
def apart (s : OsState) (k : Kernel) : OsState :=
  { s with
    kernel := { k with vfs :=
      { k.vfs with inodeBlocks := k.vfs.inodeBlocks.filter fun a => decide (a ∉ s.heap) } }
    heap := s.heap.filter fun a => decide (a ∈ k.vfs.inodeBlocks) }

def kmalloc (s : OsState) (a : Word) : Except Halt OsState :=
  if a = 0 ∨ a ∈ s.heap ∨ a ∈ s.kernel.vfs.inodeBlocks ∨ a ∈ s.kernel.vfs.fileBlocks then
    .error .noMemory
  else .ok { s with heap := a :: s.heap }

/-- No block has the address NULL; a block that is not in use is the DOUBLE FREE panic. -/
def kfree (s : OsState) (a : Word) : Except Halt OsState :=
  if a = 0 then .ok s
  else match s.joined.vfs.kfree a with
  | .error _ => .error .panic
  | .ok v => .ok (s.apart { s.joined with vfs := v })

def kfreeAll (s : OsState) : List Word → Except Halt OsState
  | [] => .ok s
  | a :: as =>
    match s.kfree a with
    | .error e => .error e
    | .ok s => kfreeAll s as

def setSpace (s : OsState) (p : Word) (f : Space → Space) : OsState :=
  { s with spaces := fun q => if q = p then f (s.spaces q) else s.spaces q }

/-- The number of the current process in the tables of descriptors. -/
def caller (s : OsState) : Nat := s.tasks.blocks.reverse.idxOf s.tasks.currentProcess

end OsState

def freedBlock : Freed → Word
  | .inode d _ => d.inode
  | .file f _ => f

open OsState

/-- `pdir`, `child`, `esp0` and `node` are the blocks in the order of the allocations. -/
def forkSpace (s : OsState) (pdir child esp0 node : Word) : Except Halt OsState :=
  match s.kmalloc pdir with
  | .error e => .error e
  | .ok s =>
    match s.kmalloc child with
    | .error e => .error e
    | .ok s =>
      match s.kmalloc esp0 with
      | .error e => .error e
      | .ok s =>
        match s.kmalloc node with
        | .error e => .error e
        | .ok s =>
          match fork s.tasks child node with
          | .error e => .error e
          | .ok (_, tasks) =>
            .ok { s.setSpace child fun _ => ⟨pdir, esp0, 0⟩ with
              tasks := tasks
              kernel := Task.fork s.kernel s.caller }

/-- `prog` is the block for the program, NULL for an empty file; `elf` says whether the file
starts with the magic number, and only then is it kept as the program. -/
def execSpace (s : OsState) (d : Driver) (supply : List Word) (path : Text) (pdir prog : Word)
    (elf : Bool) : Except Halt (List KfreeCall × OsState) :=
  match sysOpen d (s.joined.withSupply supply) s.caller path 0 with
  | .error _ => .error .panic
  | .ok (fd, k) =>
    let s := s.apart k
    if fd < 0 then .ok ([], s)
    else
      let cur := s.tasks.currentProcess
      let oldPdir := (s.spaces cur).pdir
      match s.kmalloc pdir with
      | .error e => .error e
      | .ok s =>
        let s := s.setSpace cur fun x => { x with pdir := pdir }
        match (if prog = 0 then .ok s else s.kmalloc prog) with
        | .error e => .error e
        | .ok s =>
          let s := if elf then s.setSpace cur fun x => { x with program := prog } else s
          match s.kfree oldPdir with
          | .error e => .error e
          | .ok s' => .ok ([⟨oldPdir, s.tasks, s.spaces⟩], s')

/-- The files, the three blocks of the process, and reap_finished_processes. -/
def exitSpace (s : OsState) : Except Halt (List KfreeCall × OsState) :=
  let cur := s.tasks.currentProcess
  let t := s.tasks.setState cur .finished
  match sysExit s.joined s.caller with
  | .error _ => .error .panic
  | .ok (freed, k) =>
    let s := s.apart k
    match s.kfreeAll (s.spaces cur).blocks with
    | .error e => .error e
    | .ok s =>
      match reapFinishedProcesses t with
      | .error e => .error e
      | .ok tasks =>
        .ok ((freed.map freedBlock ++ (s.spaces cur).blocks).map fun a => ⟨a, t, s.spaces⟩,
          { s with tasks := tasks })

inductive SpaceCall where
  | fork (pdir child esp0 node : Word)
  | exec (d : Driver) (supply : List Word) (path : Text) (pdir prog : Word) (elf : Bool)
  | exit
  | switch

/-- A step; the output are the calls of kfree. -/
def spaceStep (s : OsState) : SpaceCall → Except Halt (List KfreeCall × OsState)
  | .fork pdir child esp0 node =>
    if !s.tasks.runs then .error .notRunning
    else (forkSpace s pdir child esp0 node).map fun s => ([], s)
  | .exec d supply path pdir prog elf =>
    if !s.tasks.runs then .error .notRunning else execSpace s d supply path pdir prog elf
  | .exit => if !s.tasks.runs then .error .notRunning else exitSpace s
  | .switch => (switchTask s.tasks).map fun t => ([], { s with tasks := t })

/-- setup_initial_process: pid 1 and the idle task have the same page directory. -/
def setupSpaces (init idle root : Word) (first : Space) (idleEsp0 : Word) (k : Kernel) :
    OsState where
  tasks := setupInitialProcess init idle root
  kernel := k
  spaces a := if a = init then first else ⟨first.pdir, idleEsp0, 0⟩
  heap := first.blocks ++ [idleEsp0, init, idle, root]
  initialPdir := first.pdir

/-- Blocks of the heap may have been freed, but none that is not listed. -/
structure Released (s : OsState) (as : List Word) (s' : OsState) : Prop where
  tasks : s'.tasks = s.tasks
  spaces : s'.spaces = s.spaces
  initial : s'.initialPdir = s.initialPdir
  kept : ∀ a ∈ s.heap, a ∉ as → a ∈ s'.heap
  heap : ∀ a ∈ s'.heap, a ∈ s.heap
  apart : (∀ a ∈ s.heap, a ∉ s.kernel.vfs.inodeBlocks) →
    ∀ a ∈ s'.heap, a ∉ s'.kernel.vfs.inodeBlocks

section Frees
variable {s s' s'' : OsState}

theorem Released.refl (s : OsState) (as : List Word) : Released s as s :=
  ⟨rfl, rfl, rfl, fun _ h _ => h, fun _ => id, id⟩

theorem Released.trans {bs : List Word} (h : Released s as s') (h' : Released s' bs s'') :
    Released s (as ++ bs) s'' := by
  refine ⟨h'.tasks.trans h.tasks, h'.spaces.trans h.spaces, h'.initial.trans h.initial,
    fun a ha hn => ?_, fun a ha => h.heap a (h'.heap a ha), fun hd => h'.apart (h.apart hd)⟩
  rw [List.mem_append, not_or] at hn
  exact h'.kept a (h.kept a ha hn.1) hn.2

theorem released_apart (hkept : ∀ a ∈ s.heap, a ∉ as → a ∈ k.vfs.inodeBlocks) :
    Released s as (s.apart k) := by
  refine ⟨rfl, rfl, rfl, fun a ha hn => ?_, fun a ha => (List.mem_filter.mp ha).1,
    fun _ a ha hi => ?_⟩
  · exact List.mem_filter.mpr ⟨ha, decide_eq_true (hkept a ha hn)⟩
  · exact of_decide_eq_true (List.mem_filter.mp hi).2 (List.mem_filter.mp ha).1

theorem kfree_released {a : Word} (h : s.kfree a = .ok s') : Released s [a] s' := by
  unfold OsState.kfree at h
  split_ifs at h with h0
  · cases h
    exact .refl s _
  split at h
  · cases h
  next v hk =>
    cases h
    rcases kfree_ok hk with ⟨-, rfl⟩ | ⟨-, -, rfl⟩
    · refine released_apart fun b hb hn => ?_
      exact (List.mem_erase_of_ne fun he => hn (by simp [he])).mpr (List.mem_append_right _ hb)
    · exact released_apart fun b hb _ => List.mem_append_right _ hb

theorem kfreeAll_released (h : s.kfreeAll as = .ok s') : Released s as s' := by
  induction as generalizing s with
  | nil =>
    cases h
    exact .refl _ _
  | cons a as ih =>
    simp only [kfreeAll] at h
    split at h
    · cases h
    next t hk => exact (kfree_released hk).trans (ih h)

/-- The inodes of the files of a process. -/
def SlotInodes (k : Kernel) (p : Nat) (A : Word → Prop) : Prop :=
  ∀ i, k.fds p i ≠ 0 → (k.vfs.files (k.fds p i)).inode = 0 ∨ A (k.vfs.files (k.fds p i)).inode

theorem SlotInodes.closed {p : Nat} {i : Fd} {v : Vfs} (h : SlotInodes k p A)
    (hc : Closed k.vfs (k.fds p i) v) :
    SlotInodes (Kernel.setFd { k with vfs := v } p i 0) p A := by
  intro j hj
  have hj' : (Kernel.setFd { k with vfs := v } p i 0).fds p j = k.fds p j := by
    by_cases he : j = i
    · exact absurd (by simp [Kernel.setFd, he]) hj
    · simp [Kernel.setFd, he]
  rw [hj'] at hj ⊢
  change (v.files (k.fds p j)).inode = 0 ∨ A (v.files (k.fds p j)).inode
  by_cases hf : k.fds p j = k.fds p i
  · rw [hf]
    rcases hc.inode with he | he
    · rw [he, ← hf]
      exact h j hj
    · exact .inl he
  · rw [hc.others _ hf]
    exact h j hj

theorem exitLoop_frees {k' : Kernel} {p : Nat} {is : List Fd} {freed : List Freed}
    (h : SlotInodes k p A) (hx : exitLoop k p is = .ok (freed, k')) :
    (∀ x ∈ freed, A (freedBlock x)) ∧
      ∀ a ∈ k.vfs.inodeBlocks, ¬A a → a ≠ 0 → a ∈ k'.vfs.inodeBlocks := by
  induction is generalizing k freed with
  | nil =>
    cases hx
    exact ⟨by simp, fun _ ha _ _ => ha⟩
  | cons i is ih =>
    simp only [exitLoop, FileKind.exitLoop] at hx
    split_ifs at hx with h0
    · exact ih h hx
    split at hx
    · cases hx
    next freed₁ k₁ hc =>
      split at hx
      · cases hx
      next rest k₂ hrest =>
        cases hx
        obtain ⟨r, hcl, hk, hf⟩ := closeFile_ok hc
        have hslots : SlotInodes (k₁.setFd p i 0) p A := by
          rw [hk]
          exact h.closed hcl.closed
        obtain ⟨hfreed, hkept⟩ := ih hslots hrest
        refine ⟨fun x hx => ?_, fun a ha hA ha0 => ?_⟩
        · rcases List.mem_append.mp hx with hx | hx
          · rw [hf] at hx
            obtain ⟨d, hd, rfl⟩ := Option.mem_map.mp (Option.mem_toList.mp hx)
            subst hd
            obtain ⟨hdi, hd0⟩ := hcl.detached
            rw [freedBlock, hdi]
            exact (h i h0).resolve_left (hdi ▸ hd0)
          · exact hfreed x hx
        · refine hkept a (hcl.keeps ha fun he => ?_) hA ha0
          exact (h i h0).elim (fun hz => ha0 (he.trans hz)) (fun hA' => hA (he ▸ hA'))

theorem sysOpen_keeps {d : Driver} {k' : Kernel} {p : Nat} {path : Text} {flags : Word} {fd : Int}
    (h : sysOpen d k p path flags = .ok (fd, k')) :
    ∀ a ∈ k.vfs.inodeBlocks, a ∈ k'.vfs.inodeBlocks := by
  have hinstall : ∀ (v : Vfs) (inode : Word), (∀ a ∈ k.vfs.inodeBlocks, a ∈ v.inodeBlocks) →
      Ends (fun _ k' => ∀ a ∈ k.vfs.inodeBlocks, a ∈ k'.vfs.inodeBlocks)
        (openInstall d { k with vfs := v } p inode flags) := by
    intro v inode hv
    refine openInstall_rule (I := fun k' => ∀ a ∈ k.vfs.inodeBlocks, a ∈ k'.vfs.inodeBlocks) hv
      (fun status w ho => ?_) (fun f status w ho _ _ => ?_)
    · obtain ⟨g, hg, -⟩ := vfsOpen_ok ho
      exact hg.inodeBlocks ▸ hv
    · obtain ⟨g, hg, -⟩ := vfsOpen_ok ho
      rcases newfd_cases (k := { k with vfs := w }) (p := p) (f := f) with he | ⟨j, -, he⟩
      · rw [he]
        exact hg.inodeBlocks ▸ hv
      · rw [he]
        exact hg.inodeBlocks ▸ hv
  have hopen : Ends (fun _ k' => ∀ a ∈ k.vfs.inodeBlocks, a ∈ k'.vfs.inodeBlocks)
      (sysOpen d k p path flags) := by
    refine sysOpen_rule (I := fun k' => ∀ a ∈ k.vfs.inodeBlocks, a ∈ k'.vfs.inodeBlocks)
      (openPlan_looks.mono fun r hq => ?_)
    obtain ⟨r, v⟩ := r
    cases r with
    | fail ret => exact hq.kept
    | node inode => exact hinstall v inode hq.kept
    | create dir =>
      refine (vfsNewInode_looks d path 0x8000 v dir).mono fun r hr => ?_
      exact hinstall r.2 r.1 fun a ha => hr.kept a (hq.kept a ha)
  exact (outcome_iff.mp hopen).1 _ h

end Frees

/-- Who owns what: the blocks of the processes of the list are in use, and two processes
share none but the initial page directory. -/
structure Owned (s : OsState) (live : List Word) : Prop where
  zero : 0 ∉ s.heap
  apart : ∀ a ∈ s.heap, a ∉ s.kernel.vfs.inodeBlocks
  initial : s.initialPdir ∈ s.heap
  held : ∀ p ∈ live, (s.spaces p).pdir ∈ s.heap ∧ (s.spaces p).esp0 ∈ s.heap ∧
    ((s.spaces p).program = 0 ∨ (s.spaces p).program ∈ s.heap)
  distinct : ∀ p ∈ live, (s.spaces p).pdir ≠ (s.spaces p).esp0 ∧
    (s.spaces p).program ≠ (s.spaces p).pdir ∧ (s.spaces p).program ≠ (s.spaces p).esp0
  own : ∀ p ∈ live, (s.spaces p).esp0 ≠ s.initialPdir ∧ (s.spaces p).program ≠ s.initialPdir
  shared : ∀ p ∈ live, ∀ q ∈ live, p ≠ q → ∀ a ∈ (s.spaces p).blocks, a ∈ (s.spaces q).blocks →
    a = 0 ∨ a = s.initialPdir

theorem Space.mem_blocks {x : Space} {a : Word} :
    a ∈ x.blocks ↔ a = x.program ∨ a = x.pdir ∨ a = x.esp0 := by
  simp [Space.blocks]

section Owned
variable {s s' : OsState} {live live' : List Word} {p q a : Word}

theorem Owned.ne_zero (h : Owned s live) (ha : a ∈ s.heap) : a ≠ 0 := fun he => h.zero (he ▸ ha)

theorem Owned.used (h : Owned s live) (hp : p ∈ live) (ha : a ∈ (s.spaces p).blocks) :
    a = 0 ∨ a ∈ s.heap := by
  obtain ⟨h1, h2, h3⟩ := h.held p hp
  rcases Space.mem_blocks.mp ha with rfl | rfl | rfl
  · exact h3
  · exact .inr h1
  · exact .inr h2

theorem Owned.unused (h : Owned s live) (hp : p ∈ live) (h0 : a ≠ 0) (ha : a ∉ s.heap) :
    a ∉ (s.spaces p).blocks := fun hm => (h.used hp hm).elim h0 ha

/-- A process with its own page directory shares nothing. -/
theorem Owned.alone (h : Owned s live) (hp : p ∈ live) (hq : q ∈ live) (hne : p ≠ q)
    (hpdir : (s.spaces p).pdir ≠ s.initialPdir) (ha : a ∈ (s.spaces p).blocks)
    (hb : a ∈ (s.spaces q).blocks) : a = 0 := by
  refine (h.shared p hp q hq hne a ha hb).resolve_right fun he => ?_
  obtain ⟨h1, h2⟩ := h.own p hp
  rcases Space.mem_blocks.mp ha with rfl | rfl | rfl
  · exact h2 he
  · exact hpdir he
  · exact h1 he

theorem Owned.mono (h : Owned s live) (hl : ∀ q ∈ live', q ∈ live) : Owned s live' :=
  ⟨h.zero, h.apart, h.initial, fun p hp => h.held p (hl p hp), fun p hp => h.distinct p (hl p hp),
    fun p hp => h.own p (hl p hp), fun p hp q hq => h.shared p (hl p hp) q (hl q hq)⟩

theorem Owned.released (h : Owned s live) (hr : Released s as s') (hi : s.initialPdir ∉ as)
    (has : ∀ p ∈ live, ∀ a ∈ (s.spaces p).blocks, a ∈ as → a = 0) : Owned s' live := by
  have hkeep : ∀ p ∈ live, ∀ a ∈ (s.spaces p).blocks, a ∈ s.heap → a ∈ s'.heap :=
    fun p hp a ha hh => hr.kept a hh fun hm => h.ne_zero hh (has p hp a ha hm)
  refine ⟨fun hz => h.zero (hr.heap 0 hz), hr.apart h.apart, ?_, ?_, ?_, ?_, ?_⟩
  · rw [hr.initial]
    exact hr.kept _ h.initial hi
  · intro p hp
    obtain ⟨h1, h2, h3⟩ := h.held p hp
    rw [hr.spaces]
    exact ⟨hkeep p hp _ (by simp [Space.blocks]) h1, hkeep p hp _ (by simp [Space.blocks]) h2,
      h3.imp_right (hkeep p hp _ (by simp [Space.blocks]))⟩
  · rw [hr.spaces]
    exact h.distinct
  · rw [hr.spaces, hr.initial]
    exact h.own
  · rw [hr.spaces, hr.initial]
    exact h.shared

/-- kmalloc took the block `a`. -/
structure Grabbed (s : OsState) (a : Word) (s' : OsState) : Prop where
  ne_zero : a ≠ 0
  fresh : a ∉ s.heap
  inode : a ∉ s.kernel.vfs.inodeBlocks
  heap : s'.heap = a :: s.heap
  tasks : s'.tasks = s.tasks
  spaces : s'.spaces = s.spaces
  kernel : s'.kernel = s.kernel
  initial : s'.initialPdir = s.initialPdir

theorem kmalloc_grabbed (hm : s.kmalloc a = .ok s') : Grabbed s a s' := by
  unfold OsState.kmalloc at hm
  split_ifs at hm with hbad
  rw [not_or, not_or, not_or] at hbad
  cases hm
  exact ⟨hbad.1, hbad.2.1, hbad.2.2.1, rfl, rfl, rfl, rfl, rfl⟩

theorem Grabbed.mem (h : Grabbed s a s') {b : Word} (hb : b ∈ s.heap) : b ∈ s'.heap := by
  rw [h.heap]
  exact .tail _ hb

theorem Grabbed.self (h : Grabbed s a s') : a ∈ s'.heap := by
  rw [h.heap]
  exact .head _

theorem Owned.grabbed (h : Owned s live) (hm : Grabbed s a s') : Owned s' live := by
  refine ⟨?_, ?_, ?_, fun p hp => ?_, ?_, ?_, ?_⟩
  · rw [hm.heap]
    exact fun hz => (List.mem_cons.mp hz).elim (fun he => hm.ne_zero he.symm) h.zero
  · intro b hb
    rw [hm.kernel]
    rw [hm.heap] at hb
    rcases List.mem_cons.mp hb with rfl | hb
    · exact hm.inode
    · exact h.apart b hb
  · rw [hm.initial]
    exact hm.mem h.initial
  · obtain ⟨h1, h2, h3⟩ := h.held p hp
    rw [hm.spaces]
    exact ⟨hm.mem h1, hm.mem h2, h3.imp_right hm.mem⟩
  · rw [hm.spaces]
    exact h.distinct
  · rw [hm.spaces, hm.initial]
    exact h.own
  · rw [hm.spaces, hm.initial]
    exact h.shared

/-- A process gets new blocks, or a new process its first ones. -/
theorem Owned.put (h : Owned s live) {f : Space → Space} (hl : ∀ q ∈ live', q = p ∨ q ∈ live)
    (hheld : (f (s.spaces p)).pdir ∈ s.heap ∧ (f (s.spaces p)).esp0 ∈ s.heap ∧
      ((f (s.spaces p)).program = 0 ∨ (f (s.spaces p)).program ∈ s.heap))
    (hdist : (f (s.spaces p)).pdir ≠ (f (s.spaces p)).esp0 ∧
      (f (s.spaces p)).program ≠ (f (s.spaces p)).pdir ∧
      (f (s.spaces p)).program ≠ (f (s.spaces p)).esp0)
    (hown : (f (s.spaces p)).esp0 ≠ s.initialPdir ∧ (f (s.spaces p)).program ≠ s.initialPdir)
    (hsh : ∀ q ∈ live, q ≠ p → ∀ a ∈ (f (s.spaces p)).blocks, a ∈ (s.spaces q).blocks →
      a = 0 ∨ a = s.initialPdir) : Owned (s.setSpace p f) live' := by
  have hp : (s.setSpace p f).spaces p = f (s.spaces p) := if_pos rfl
  have hq : ∀ q, q ≠ p → (s.setSpace p f).spaces q = s.spaces q := fun q hne => if_neg hne
  have hlive : ∀ q ∈ live', q ≠ p → q ∈ live := fun q hq hne => (hl q hq).resolve_left hne
  refine ⟨h.zero, h.apart, h.initial, fun q hm => ?_, fun q hm => ?_, fun q hm => ?_, ?_⟩
  · by_cases hqp : q = p
    · rw [hqp, hp]
      exact hheld
    · rw [hq q hqp]
      exact h.held q (hlive q hm hqp)
  · by_cases hqp : q = p
    · rw [hqp, hp]
      exact hdist
    · rw [hq q hqp]
      exact h.distinct q (hlive q hm hqp)
  · by_cases hqp : q = p
    · rw [hqp, hp]
      exact hown
    · rw [hq q hqp]
      exact h.own q (hlive q hm hqp)
  · intro q hqm r hrm hne a ha hb
    by_cases hqp : q = p
    · have hrp : r ≠ p := fun he => hne (hqp.trans he.symm)
      rw [hqp, hp] at ha
      rw [hq r hrp] at hb
      exact hsh r (hlive r hrm hrp) hrp a ha hb
    · rw [hq q hqp] at ha
      by_cases hrp : r = p
      · rw [hrp, hp] at hb
        exact hsh q (hlive q hqm hqp) hqp a hb ha
      · rw [hq r hrp] at hb
        exact h.shared q (hlive q hqm hqp) r (hlive r hrm hrp) hne a ha hb

end Owned

end TapiOS.Task.Scheduler
