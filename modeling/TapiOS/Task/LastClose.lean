import TapiOS.Task.FileCounts

/-!
# The last close of a file or socket, fs/vfs.c and syscall/syscalls.c

vfs_close runs the close function of a file and detaches its inode under a rule of its own
for orphan inodes, for the root and for cached inodes. Here every slot that a call clears
is looked at in the state the call finds it in. `sockets` are the allocated structs that
`_socket` made: the kernel keeps one reference to each of them besides the slots.
-/
namespace TapiOS.Task

open Lib Util Fs Kernel

variable {ret : Int}

/-- `devices` says whether network_devices is there. -/
structure OpenFiles where
  kernel : Kernel
  sockets : Finset Word
  devices : Bool

variable {s t : OpenFiles}

/-- What alloc_netdev_inode stores in its orphan inode: of these tables only f_act->close. -/
def netdevInode : NodeInfo := ⟨0, [], ⟨false, false, false, false, true⟩⟩

/-- The struct socket that `_socket` allocates with its inode. -/
def newSocketFile (v : Vfs) : Except Stop (Word × Vfs) :=
  match newInode v netdevInode with
  | .error e => .error e
  | .ok (inode, v) =>
    match v.kmalloc with
    | .error e => .error e
    | .ok (f, v) =>
      let v := v.setFile f (fun _ => ⟨2, inode, 0⟩)
      .ok (f, { v with fileBlocks := f :: v.fileBlocks })

/-- `_socket` behind the check for a device: the value it returns, the new struct and the
state. -/
def sysSocket (k : Kernel) (p : Nat) : Except Stop ((Int × Word) × Kernel) :=
  match newSocketFile k.vfs with
  | .error e => .error e
  | .ok (f, v) =>
    let r := newfd { k with vfs := v } p f
    .ok ((r.1, f), r.2)

inductive OpenCall where
  | file (c : Call)
  | socket (supply : List Word) (p : Nat)

/-- Structs that were freed are no sockets any more. -/
def OpenFiles.after (s : OpenFiles) (k : Kernel) : OpenFiles :=
  { s with kernel := k, sockets := s.sockets.filter (· ∈ k.vfs.fileBlocks) }

def openStep (s : OpenFiles) : OpenCall → Except Stop (Result × OpenFiles)
  | .file c =>
    match step s.kernel c with
    | .error e => .error e
    | .ok (r, k) => .ok (r, s.after k)
  | .socket supply p =>
    if s.kernel.procs ≤ p then .error .noProcess
    else if !s.devices then .ok (⟨-EINVAL, []⟩, s)
    else match sysSocket (s.kernel.withSupply supply) p with
    | .error e => .error e
    | .ok ((ret, f), k) => .ok (⟨ret, []⟩, { s with kernel := k, sockets := insert f s.sockets })

/-- A slot with a file that is about to be closed and cleared. -/
structure Clear where
  kernel : Kernel
  proc : Nat
  slot : Fd

namespace Clear

def file (x : Clear) : Word := x.kernel.fds x.proc x.slot

def inode (x : Clear) : Word := (x.kernel.vfs.files x.file).inode

/-- No other slot of any process holds the file. -/
def Last (x : Clear) : Prop := x.kernel.holders x.file = {(x.proc, x.slot)}

/-- What vfs_close detaches. -/
def detached (x : Clear) : Option Detached :=
  match vfsClose x.kernel.vfs x.file with
  | .error _ => none
  | .ok (r, _) => r

end Clear

def closeClears (k : Kernel) (p : Nat) (fd : Int) : List Clear :=
  match descriptor fd with
  | .error _ => []
  | .ok i => if k.fds p i = 0 then [] else [⟨k, p, i⟩]

/-- The slots of the loop of `_exit`. -/
def exitClears (k : Kernel) (p : Nat) : List Fd → List Clear
  | [] => []
  | i :: is =>
    if k.fds p i = 0 then exitClears k p is
    else ⟨k, p, i⟩ ::
      match closeFile k (k.fds p i) with
      | .error _ => []
      | .ok (_, k) => exitClears (k.setFd p i 0) p is

/-- The slots a call clears: F_DUPFD finds an empty one. -/
def clears (k : Kernel) : OpenCall → List Clear
  | .file (.close p fd) => closeClears k p fd
  | .file (.dup2 p oldfd newfd) =>
    match descriptor oldfd with
    | .error _ => []
    | .ok i => if k.fds p i = 0 ∨ oldfd = newfd then [] else closeClears k p newfd
  | .file (.exit p) => exitClears k p (List.finRange 256)
  | _ => []

/-- The inode of what a call passed to kfree. -/
def Freed.detached : Freed → Option Detached
  | .inode d _ => some d
  | .file _ _ => none

variable {freed : List Freed}

/-- The inode is detached when the slot is the last one and only then, and f_act->close is
called if the inode has one. -/
structure AtLastClose (x : Clear) : Prop where
  last : x.detached.isSome ↔ x.Last
  action : ∀ d, x.detached = some d →
    d.inode = x.inode ∧ d.closed = (x.kernel.vfs.inodes x.inode).acts.closes

/-- Another child comes before the inode in the list of its parent. -/
def Preceded (v : Vfs) (a : Word) : Prop :=
  ∃ i, i ≠ 0 ∧ v.findChild (v.inodes (v.inodes a).parent).children
    (fun b => decide ((v.inodes b).siblings = a)) = some i

/-- A file without inode and one of the root are not at their last slot, an orphan is at
its last slot, and a file of the cache that is has another child before it. -/
def InTurn (sockets : Finset Word) (x : Clear) : Prop :=
  if x.inode = 0 ∨ x.inode = x.kernel.vfs.rootFs then ¬x.Last
  else if (x.kernel.vfs.inodes x.inode).parent = 0 then x.Last
  else x.Last → x.file ∉ sockets ∧ Preceded x.kernel.vfs x.inode

section Detach
variable {v v' : Vfs} {f : Word} {r : Option Detached}

theorem detach_isSome (h : detach v f = .ok (r, v')) : r.isSome := by
  obtain ⟨d, -, rfl, -⟩ := detach_ok h
  rfl

theorem vfsClose_isSome (h : vfsClose v f = .ok (r, v')) :
    r.isSome ↔ (v.files f).inode ≠ 0 ∧ (v.files f).inode ≠ v.rootFs ∧
      ((v.inodes (v.files f).inode).parent = 0 ∨
        (v.files f).refcount.toNat = 1 ∧ Preceded v (v.files f).inode) := by
  unfold vfsClose at h
  by_cases hi : (v.files f).inode = 0
  · rw [if_pos hi] at h
    cases h
    simp [hi]
  rw [if_neg hi] at h
  by_cases hc : (v.files f).refcount = 0
  · rw [if_pos hc] at h
    cases h
  rw [if_neg hc] at h
  by_cases hr : (v.files f).inode = v.rootFs
  · rw [if_pos hr] at h
    cases h
    simp [hr]
  rw [if_neg hr] at h
  have hone : ((countDown v f).files f).refcount = 0 ↔ (v.files f).refcount.toNat = 1 := by
    rw [← BitVec.toNat_inj, ← countDown_toNat hc]
    exact (Nat.add_eq_right).symm
  simp only [hi, hr, ne_eq, not_false_eq_true, true_and]
  by_cases hp : (v.inodes (v.files f).inode).parent = 0
  · rw [if_pos hp] at h
    exact iff_of_true (detach_isSome h) (.inl hp)
  rw [if_neg hp] at h
  simp only [hp, false_or]
  split_ifs at h with hl
  · simp only [hone.mp hl, true_and]
    split at h
    · cases h
    rename_i i hf
    by_cases hi0 : i = 0
    · rw [if_pos hi0] at h
      cases h
      refine iff_of_false (by simp) ?_
      intro hw
      obtain ⟨j, hj, hfj⟩ := hw
      exact hj ((Option.some.inj (hf.symm.trans hfj)).symm.trans hi0)
    · rw [if_neg hi0] at h
      exact iff_of_true (detach_isSome h) ⟨i, hi0, hf⟩
  · cases h
    exact iff_of_false (by simp) (fun hw => hl (hone.mpr hw.1))

/-- f_act->close is called for the inode that is detached, if it has one. -/
theorem vfsClose_action {d : Detached} (h : vfsClose v f = .ok (some d, v')) :
    d.inode = (v.files f).inode ∧ d.closed = (v.inodes (v.files f).inode).acts.closes := by
  have hd : ∀ w, detach w f = .ok (some d, v') → (w.files f).inode = (v.files f).inode →
      (∀ a, (w.inodes a).acts = (v.inodes a).acts) →
      d.inode = (v.files f).inode ∧ d.closed = (v.inodes (v.files f).inode).acts.closes := by
    intro w hw hino hacts
    unfold detach at hw
    dsimp only at hw
    split at hw
    · cases hw
    · cases hw
      exact ⟨hino, by rw [hacts, hino]⟩
  cases vfsClose_ok h with
  | orphan hc hi hr hp hw =>
    exact hd _ hw (by simp [countDown, Vfs.setFile]) (fun _ => rfl)
  | unlinked i hc hi hr hl hf hi0 hw =>
    refine hd _ hw (by simp [countDown, Vfs.setFile, Vfs.setInode]) (fun a => ?_)
    by_cases ha : a = i <;> simp [countDown, Vfs.setFile, Vfs.setInode, ha]

end Detach

/-- The references to a file besides those of the slots. -/
def kernelRefs (S : Finset Word) (f : Word) : Nat := if f ∈ S then 1 else 0

/-- Counts that cover the slots, and that are exact until the inode is detached. The root
never loses a reference. -/
structure Exact (S : Finset Word) (k : Kernel) : Prop where
  counted : Counted k
  refs : ∀ f, f ≠ 0 → (k.holders f).Nonempty → (k.vfs.files f).inode ≠ 0 →
    (k.vfs.files f).inode ≠ k.vfs.rootFs →
    (k.vfs.files f).refcount.toNat = (k.holders f).card + kernelRefs S f

/-- The sockets are allocated. -/
def Tagged (S : Finset Word) (k : Kernel) : Prop := ∀ f ∈ S, f ∈ k.vfs.fileBlocks

section Moves
variable {S : Finset Word} {k : Kernel} {p : Nat} {i : Fd} {f : Word} {v : Vfs}

theorem Tagged.added (h : Tagged S k) (ha : NewFile k.vfs f v) : Tagged S { k with vfs := v } := by
  intro g hg
  obtain hb | hb := ha.fileBlocks
  · exact hb ▸ h g hg
  · exact hb ▸ List.mem_cons_of_mem _ (h g hg)

variable (h : Exact S k)
include h

theorem Exact.quiet (hq : Quiet k.vfs v) : Exact S { k with vfs := v } := by
  refine ⟨h.counted.quiet hq, fun f hf hh hi hr => ?_⟩
  rw [hq.files] at hi hr
  rw [hq.rootFs] at hr
  rw [hq.files]
  exact h.refs f hf hh hi hr

omit h in
/-- Another value in a slot of a different file does not matter to `g`. -/
theorem holders_setFd_other {g : Word} (hf : f ≠ g) (hs : k.fds p i ≠ g) :
    (k.setFd p i f).holders g = k.holders g := by
  rw [holders_setFd_of_ne hf]
  exact Finset.erase_eq_of_notMem (fun hm => hs (mem_holders.mp hm).2)

theorem Exact.closed {r : Option Detached} (hp : p < k.procs) (h0 : k.fds p i ≠ 0)
    (hn : NotAFile k (k.fds p i)) (hc : Closes k.vfs (k.fds p i) r v) :
    Exact S (Kernel.setFd { k with vfs := v } p i 0) := by
  refine ⟨h.counted.closed hp h0 hn hc.closed, fun g hg hh hi hr => ?_⟩
  change (v.files g).inode ≠ 0 at hi
  change (v.files g).inode ≠ v.rootFs at hr
  change (v.files g).refcount.toNat = _
  rw [hc.rootFs] at hr
  rw [holders_setFd_vfs] at hh ⊢
  by_cases hgf : g = k.fds p i
  · subst hgf
    have hsame := hc.closed.inode.resolve_right hi
    rw [hsame] at hi hr
    have hdown := hc.refcount hi hr
    have hdrop := holders_card_drop hp rfl h0
    have hrefs := h.refs _ h0 (holders_nonempty hp rfl) hi hr
    omega
  · rw [hc.closed.others g hgf] at hi hr ⊢
    rw [holders_setFd_other hg.symm (Ne.symm hgf)] at hh ⊢
    exact h.refs g hg hh hi hr

theorem Exact.kfree (hf : k.holders f = ∅) (hk : k.vfs.kfree f = .ok v) :
    Exact S { k with vfs := v } := by
  refine ⟨h.counted.kfree hf hk, ?_⟩
  obtain ⟨-, rfl⟩ | ⟨-, -, rfl⟩ := kfree_ok hk
  · exact h.refs
  · exact h.refs

theorem Exact.share (hp : p < k.procs) (h0 : f ≠ 0) (hf : (k.holders f).Nonempty)
    (hs : k.fds p i = 0) (hr : Room k f 1) : Exact S (shareFile k p i f) := by
  refine ⟨h.counted.share hp h0 (h.counted.blocks f h0 hf) hr, fun g hg hh hi hrt => ?_⟩
  by_cases hgf : g = f
  · subst hgf
    have hsucc := refcount_succ (hr h0)
    have hnew : (p, i) ∉ k.holders g := fun hm => h0 ((mem_holders.mp hm).2.symm.trans hs)
    have hcard : ((shareFile k p i g).holders g).card = (k.holders g).card + 1 := by
      rw [shareFile_eq, holders_setFd_vfs, holders_setFd_of_eq hp]
      exact Finset.card_insert_of_notMem hnew
    simp only [shareFile_eq, Kernel.setFd, Vfs.setFile, if_true] at hi hrt
    have hrefs := h.refs g h0 hf hi hrt
    rw [hcard]
    simp only [shareFile_eq, Kernel.setFd, Vfs.setFile, if_true, hsucc]
    omega
  · have hsame : (shareFile k p i f).holders g = k.holders g :=
      holders_setFd_other (Ne.symm hgf) (fun he => hg (he.symm.trans hs))
    rw [hsame] at hh ⊢
    simp only [shareFile_eq, Kernel.setFd, Vfs.setFile, if_neg hgf] at hi hrt ⊢
    exact h.refs g hg hh hi hrt

theorem Exact.added (ha : NewFile k.vfs f v) : Exact S { k with vfs := v } := by
  refine ⟨h.counted.added ha, fun g hg hh hi hrt => ?_⟩
  have hne : g ≠ f := fun he => ha.newFile (he ▸ h.counted.blocks g hg hh)
  rw [ha.others g hne] at hi hrt ⊢
  rw [ha.rootFs] at hrt
  exact h.refs g hg hh hi hrt

theorem Exact.install (hp : p < k.procs) (hs : k.fds p i = 0) (ha : NewFile k.vfs f v)
    (hb : v.fileBlocks = f :: k.vfs.fileBlocks)
    (href : (v.files f).refcount.toNat = 1 + kernelRefs S f) :
    Exact S (Kernel.setFd { k with vfs := v } p i f) := by
  refine ⟨h.counted.install hp ha hb (by omega), fun g hg hh hi hr => ?_⟩
  rw [holders_setFd_vfs] at hh ⊢
  by_cases hgf : g = f
  · subst hgf
    rw [holders_setFd_of_eq hp, h.counted.unheld ha]
    exact href
  · rw [holders_setFd_other (Ne.symm hgf) (fun he => hg (he.symm.trans hs))] at hh ⊢
    exact (h.added ha).refs g hg hh hi hr

/-- It does not matter either whether a struct without slot is a socket. -/
theorem Exact.tag (hf : k.holders f = ∅) : Exact (insert f S) k := by
  refine ⟨h.counted, fun g hg hh hi hr => ?_⟩
  have hne : g ≠ f := by
    intro he
    rw [he, hf] at hh
    exact Finset.not_nonempty_empty hh
  rw [h.refs g hg hh hi hr]
  simp [kernelRefs, hne]

theorem Exact.newProcess (cwd : Nat → Text) : Exact S (k.newProcess cwd) := by
  refine ⟨h.counted.newProcess cwd, fun g hg hh => ?_⟩
  rw [holders_newProcess cwd hg] at hh ⊢
  exact h.refs g hg hh

/-- For a file in a slot it does not matter whether freed sockets are remembered. -/
theorem Exact.filter : Exact (S.filter (· ∈ k.vfs.fileBlocks)) k := by
  refine ⟨h.counted, fun f hf hh hi hr => ?_⟩
  rw [h.refs f hf hh hi hr]
  simp [kernelRefs, and_iff_left (h.counted.blocks f hf hh)]

end Moves

section Calls
variable {S : Finset Word} {k : Kernel} {p : Nat} {i : Fd}

theorem drops_exact (h : Exact S k) (hp : p < k.procs) (h0 : k.fds p i ≠ 0)
    (hn : NotAFile k (k.fds p i)) : Drops files (Exact S) (fun _ => True) k p i := by
  refine (drops_counted h.counted hp h0 hn).imp fun r hr _ => ⟨?_, fun _ _ => trivial⟩
  obtain ⟨r', hc, hk, -⟩ := closeFile_ok hr
  rw [hk]
  exact h.closed hp h0 hn hc

theorem sysClose_exact (h : Exact S k) (hp : p < k.procs) (hn : NotAFile k (k.fds p i)) :
    Ends (fun r k' => Good (Exact S) (fun _ => True) r.2 k') (sysClose k p i) := by
  refine sysClose_rule h fun h0 => ?_
  exact closeSlot_rule (drops_exact h hp h0 hn) fun k' hk' hz => files_kfree_rule fun v hfree =>
    ⟨hk'.kfree (hk'.counted.holders_eq_empty h0 hz) hfree, trivial⟩

theorem sysDup2_exact {newfd : Int} (h : Exact S k) (hp : p < k.procs)
    (hr : Room k (k.fds p i) 1)
    (hn : ∀ j, descriptor newfd = .ok j → NotAFile k (k.fds p j)) :
    Ends (fun r k' => Good (Exact S) (fun _ => True) r.2 k') (sysDup2 k p i newfd) := by
  refine sysDup2_rule h hp (fun j hj => sysClose_exact h hp (hn j hj))
    (fun k' j hk' hd hp' hs h0 => ?_)
  exact hk'.share hp' h0 (holders_nonempty hp' hs) hd.cleared (hd.room hr)

theorem fork_exact (h : Exact S k) (hp : p < k.procs)
    (hr : ∀ f, Room k f (copies k p f (List.finRange 256))) : Exact S (fork k p) := by
  refine fork_rule hp hr h.newProcess fun k' i hk' hprocs h0 hs hroom => ?_
  have hp' : p < k'.procs := by omega
  exact hk'.share (by omega) h0 (holders_nonempty hp' rfl) hs hroom

/-- What the loop of `_exit` keeps while it closes the slots of `p`. -/
def Exiting (S : Finset Word) (p : Nat) (k : Kernel) : Prop :=
  Exact S k ∧ p < k.procs ∧ ∀ j, NotAFile k (k.fds p j)

theorem drops_exiting (h : Exiting S p k) (h0 : k.fds p i ≠ 0) :
    Drops files (Exiting S p) (fun _ => True) k p i := by
  obtain ⟨hx, hp, hn⟩ := h
  refine (drops_exact hx hp h0 (hn i)).imp fun r hr hg => ⟨⟨hg.1, ?_⟩, hg.2⟩
  obtain ⟨r', hc, hk, -⟩ := closeFile_ok hr
  rw [hk]
  exact ⟨hp, fun j => (hn j).drop hc.closed⟩

/-- A new file is no socket. -/
theorem sysOpen_exact (d : Driver) (path : Text) (flags : Word) (h : Exact S k) (ht : Tagged S k)
    (hp : p < k.procs) : Ends (fun _ k' => Exact S k') (sysOpen d k p path flags) := by
  refine (sysOpen_moves (I := fun k => Exact S k ∧ (p < k.procs) ∧ Tagged S k) ?_ ?_ ?_ d path flags
    ⟨h, hp, ht⟩).mono fun _ hk => hk.1
  · intro k v hk hq
    refine ⟨hk.1.quiet hq, hk.2.1, fun f hf => ?_⟩
    exact hq.fileBlocks ▸ hk.2.2 f hf
  · intro k v node g hk ho
    refine ⟨hk.1.added ho.newStruct, hk.2.1, hk.2.2.added ho.newStruct⟩
  · intro k v node f i hk ho hb hs
    obtain ⟨hx, hp, ht⟩ := hk
    refine ⟨hx.install hp hs ho.newStruct hb ?_, hp, ht.added ho.newStruct⟩
    rw [ho.file, kernelRefs, if_neg (fun hf => ho.newFile (ht f hf))]
    rfl

theorem step_exact {c : Call} (h : Exact S k) (ht : Tagged S k) (hf : CountsFit k c)
    (hn : NodesApart k c) :
    Ends (fun r k' => Good (Exact S) (fun _ => True) r.freed k') (step k c) := by
  have hsupply : ∀ supply, Exact S (k.withSupply supply) := fun supply =>
    ⟨h.counted.supply supply, h.refs⟩
  apply step_rule h
  · intro d supply path _
    exact (vfsSearch_looks d path _ _).mono fun _ hq => (hsupply supply).quiet hq
  · intro d supply p path flags _ hp
    exact sysOpen_exact d path flags (hsupply supply) ht hp
  · intro p oldfd newfd i hc hp hd
    subst hc
    exact sysDup2_exact h hp (hf _ hd) hn
  · intro p fd arg i j hc hp hd h0
    subst hc
    refine sysDup2_exact h hp (hf _ hd) fun j' hj hj0 => ?_
    rw [descriptor_val j] at hj
    cases hj
    exact absurd h0 hj0
  · intro p hc hp
    subst hc
    exact fork_exact h hp (room_of_slots hf)
  · intro p fd i hc hp hd
    subst hc
    exact sysClose_exact h hp (hn _ hd)
  · intro p hc hp
    subst hc
    exact (exitLoop_rule (fun k i hk h0 => drops_exiting hk h0) _ ⟨h, hp, hn⟩).mono
      fun r hg => ⟨hg.1.1, hg.2⟩

theorem newSocketFile_ok {v v' : Vfs} {f : Word} (h : newSocketFile v = .ok (f, v')) :
    ∃ w, Quiet v w ∧ NewFile w f v' ∧ v'.fileBlocks = f :: w.fileBlocks ∧
      (v'.files f).refcount = 2 := by
  unfold newSocketFile at h
  split at h
  · cases h
  · rename_i inode w hi
    split at h
    · cases h
    · rename_i g w' hm
      obtain ⟨h0, hni, hnf, hw⟩ := kmalloc_ok hm
      cases h
      refine ⟨w, newInode_quiet hi, ?_, ?_, by simp [Vfs.setFile]⟩
      · rw [hw]
        exact ⟨h0, hni, hnf, fun g hg => by simp [Vfs.setFile, hg], .inr rfl, rfl, rfl⟩
      · rw [hw]
        rfl

/-- `_socket` makes a struct with one reference of the kernel and one of its slot. -/
theorem sysSocket_exact {f : Word} {k' : Kernel} (h : Exact S k) (ht : Tagged S k)
    (hp : p < k.procs) (hs : sysSocket k p = .ok ((ret, f), k')) :
    Exact (insert f S) k' ∧ Tagged (insert f S) k' := by
  unfold sysSocket at hs
  split at hs
  · cases hs
  · rename_i g v hnew
    cases hs
    obtain ⟨w, hq, ha, hb, href⟩ := newSocketFile_ok hnew
    have hw := h.quiet hq
    have hx : Exact (insert f S) { k with vfs := w } := hw.tag (hw.counted.unheld ha)
    have htag : ∀ g ∈ insert f S, g ∈ v.fileBlocks := by
      intro g hg
      rw [hb, hq.fileBlocks]
      obtain rfl | hg := Finset.mem_insert.mp hg
      · exact .head _
      · exact .tail _ (ht g hg)
    obtain hn | ⟨i, hs0, hn⟩ := newfd_cases (k := { k with vfs := v }) (p := p) (f := f)
    · rw [hn]
      exact ⟨hx.added ha, htag⟩
    · rw [hn]
      refine ⟨hx.install hp hs0 ha hb ?_, htag⟩
      rw [href, kernelRefs, if_pos (Finset.mem_insert_self f S)]
      rfl

end Calls

/-- A slot that a call closes while the counts are exact. -/
structure Clearing (S : Finset Word) (x : Clear) : Prop where
  state : Exact S x.kernel
  proc : x.proc < x.kernel.procs
  held : x.file ≠ 0
  closes : ∃ r v, vfsClose x.kernel.vfs x.file = .ok (r, v)

section Clears
variable {S : Finset Word} {x : Clear} {k k' : Kernel} {p : Nat} {i : Fd}

theorem Clear.last_iff (hp : x.proc < x.kernel.procs) :
    x.Last ↔ (x.kernel.holders x.file).card = 1 := by
  constructor
  · intro h
    rw [h, Finset.card_singleton]
  · intro h
    obtain ⟨s, hs⟩ := Finset.card_eq_one.mp h
    have hm : (x.proc, x.slot) ∈ x.kernel.holders x.file := mem_holders.mpr ⟨hp, rfl⟩
    rw [hs, Finset.mem_singleton] at hm
    exact hs.trans (congrArg _ hm.symm)

/-- With exact counts the three rules say which slots are closed in turn. -/
theorem Clearing.atLastClose_iff (h : Clearing S x) : AtLastClose x ↔ InTurn S x := by
  obtain ⟨r, v, hv⟩ := h.closes
  have hdet : x.detached = r := by rw [Clear.detached, hv]
  have hsome := vfsClose_isSome hv
  have hact : AtLastClose x ↔ (r.isSome ↔ x.Last) := by
    refine ⟨fun ha => hdet ▸ ha.last, fun hl => ⟨hdet ▸ hl, fun d hd => ?_⟩⟩
    rw [hdet] at hd
    subst hd
    exact vfsClose_action hv
  rw [hact, hsome]
  unfold InTurn
  change (x.inode ≠ 0 ∧ x.inode ≠ x.kernel.vfs.rootFs ∧ _ ↔ _) ↔ _
  by_cases hz : x.inode = 0 ∨ x.inode = x.kernel.vfs.rootFs
  · rw [if_pos hz]
    have hno : ¬(x.inode ≠ 0 ∧ x.inode ≠ x.kernel.vfs.rootFs) := by
      rwa [← not_or, not_not]
    exact iff_false_left (fun hw => hno ⟨hw.1, hw.2.1⟩)
  · obtain ⟨hi, hr⟩ := not_or.mp hz
    simp only [hi, hr, ne_eq, not_false_eq_true, true_and]
    by_cases hpar : (x.kernel.vfs.inodes x.inode).parent = 0
    · rw [if_pos hpar]
      exact iff_true_left (.inl hpar)
    · have hpos := Finset.card_pos.mpr (holders_nonempty (i := x.slot) h.proc rfl)
      have hrefs := h.state.refs x.file h.held (holders_nonempty h.proc rfl) hi hr
      have hone : (x.kernel.vfs.files x.file).refcount.toNat = 1 ↔ x.Last ∧ x.file ∉ S := by
        rw [hrefs, Clear.last_iff h.proc, kernelRefs]
        change 0 < (x.kernel.holders x.file).card at hpos
        by_cases hS : x.file ∈ S
        · simp only [hS, if_true, not_true_eq_false, and_false, iff_false]
          omega
        · simp [hS]
      change (((x.kernel.vfs.inodes x.inode).parent = 0 ∨ _ ∧ Preceded x.kernel.vfs x.inode) ↔ _) ↔ _
      rw [hone, and_assoc]
      simp only [hpar, false_or]
      exact and_iff_left_iff_imp

theorem closeFile_clears (h : closeFile k (k.fds p i) = .ok (freed, k')) :
    freed.filterMap Freed.detached = [(⟨k, p, i⟩ : Clear)].filterMap Clear.detached ∧
      ∃ r v, vfsClose k.vfs (k.fds p i) = .ok (r, v) := by
  unfold closeFile at h
  split at h
  · cases h
  · rename_i r v hv
    cases h
    have hd : Clear.detached ⟨k, p, i⟩ = r := by simp only [Clear.detached, Clear.file, hv]
    refine ⟨?_, r, v, hv⟩
    cases r with
    | none => simp [hd]
    | some d => simp [hd, Freed.detached]

/-- The calls on single slots close those slots in the state they start from. -/
def Started (k : Kernel) (p : Nat) (ys : List Clear) : Prop :=
  ∀ y ∈ ys, y.kernel = k ∧ y.proc = p ∧ y.file ≠ 0 ∧
    ∃ r v, vfsClose y.kernel.vfs y.file = .ok (r, v)

theorem Started.clearing {ys : List Clear} (h : Started k p ys) (hx : Exact S k)
    (hp : p < k.procs) : ∀ y ∈ ys, Clearing S y := by
  intro y hy
  obtain ⟨hk, hproc, hfile, hv⟩ := h y hy
  exact ⟨hk ▸ hx, by rw [hk, hproc]; exact hp, hfile, hv⟩

theorem started_nil : Started k p [] := by
  intro y hy
  cases hy

theorem sysClose_clears {fd : Int} (hd : descriptor fd = .ok i)
    (h : sysClose k p i = .ok ((ret, freed), k')) :
    freed.filterMap Freed.detached = (closeClears k p fd).filterMap Clear.detached ∧
      Started k p (closeClears k p fd) := by
  unfold closeClears
  rw [hd]
  dsimp only
  obtain ⟨h0, rfl, -⟩ | ⟨h0, fr, k₁, hc, hrest⟩ := sysClose_ok h
  · rw [if_pos h0]
    exact ⟨rfl, started_nil⟩
  · rw [if_neg h0]
    obtain ⟨hfreed, hv⟩ := closeFile_clears hc
    refine ⟨?_, fun y hy => ?_⟩
    · rw [← hfreed]
      obtain ⟨rfl, -⟩ | ⟨v, -, rfl, -⟩ := hrest
      · rfl
      · simp [Freed.detached]
    · rw [List.mem_singleton.mp hy]
      exact ⟨rfl, rfl, h0, hv⟩

theorem sysDup2_clears {newfd : Int} (h : sysDup2 k p i newfd = .ok ((ret, freed), k')) :
    freed.filterMap Freed.detached =
      (if k.fds p i = 0 ∨ (i.val : Int) = newfd then [] else closeClears k p newfd).filterMap
        Clear.detached ∧
    Started k p (if k.fds p i = 0 ∨ (i.val : Int) = newfd then [] else closeClears k p newfd) := by
  simp only [sysDup2, FileKind.sysDup2, files_fds] at h
  by_cases h0 : k.fds p i = 0
  · rw [if_pos h0] at h
    cases h
    rw [if_pos (.inl h0)]
    exact ⟨rfl, started_nil⟩
  by_cases he : (i.val : Int) = newfd
  · rw [if_neg h0, if_pos he] at h
    cases h
    rw [if_pos (.inr he)]
    exact ⟨rfl, started_nil⟩
  rw [if_neg h0, if_neg he] at h
  rw [if_neg (not_or.mpr ⟨h0, he⟩)]
  split at h
  · cases h
  · rename_i j hd
    split at h
    · cases h
    · rename_i hc
      cases h
      exact sysClose_clears hd hc

theorem sysDupFd_clears {arg : Nat} (h : sysDupFd k p i arg = .ok ((ret, freed), k')) :
    freed.filterMap Freed.detached = [] := by
  unfold sysDupFd at h
  split at h
  · cases h
    rfl
  · rename_i j hfind
    have h0 : k.fds p j = 0 := by
      have hj := List.find?_some hfind
      exact (of_decide_eq_true hj).2
    split at h
    · cases h
    · rename_i hdup
      cases h
      rw [(sysDup2_clears hdup).1]
      have hnone : closeClears k p j.val = [] := by
        unfold closeClears
        rw [descriptor_val]
        exact if_pos h0
      rw [hnone, ite_self]
      rfl

/-- Along the loop of `_exit` the counts stay exact, and it frees what its slots detach. -/
theorem exitLoop_clears {is : List Fd} (hx : Exiting S p k)
    (h : exitLoop k p is = .ok (freed, k')) :
    freed.filterMap Freed.detached = (exitClears k p is).filterMap Clear.detached ∧
      ∀ y ∈ exitClears k p is, Clearing S y := by
  induction is generalizing k freed with
  | nil =>
    cases h
    exact ⟨rfl, by simp [exitClears]⟩
  | cons i is ih =>
    simp only [exitLoop, FileKind.exitLoop, files_fds, files_close] at h
    unfold exitClears
    by_cases h0 : k.fds p i = 0
    · rw [if_pos h0] at h ⊢
      exact ih hx h
    · rw [if_neg h0] at h ⊢
      cases hc : closeFile k (k.fds p i) with
      | error e =>
        rw [hc] at h
        cases h
      | ok x =>
        obtain ⟨freed', k₁⟩ := x
        rw [hc] at h
        dsimp only at h ⊢
        obtain ⟨hfreed, hv⟩ := closeFile_clears hc
        have hnext : Exiting S p (k₁.setFd p i 0) :=
          ((outcome_iff.mp (drops_exiting hx h0)).1 _ hc).1
        split at h
        · cases h
        · rename_i rest k₂ hrest
          cases h
          obtain ⟨hfrest, hclear⟩ := ih hnext hrest
          refine ⟨?_, fun y hy => ?_⟩
          · rw [List.filterMap_append, hfreed, hfrest]
            exact (List.filterMap_append (l := [(⟨k, p, i⟩ : Clear)])).symm
          · obtain rfl | hy := List.mem_cons.mp hy
            · exact ⟨hx.1, hx.2.1, h0, hv⟩
            · exact hclear y hy

/-- What a call detaches is what the slots it clears detach, and at each of them the counts
are exact. -/
theorem step_clears {c : Call} {r : Result} (hx : Exact S k) (hn : NodesApart k c)
    (h : step k c = .ok (r, k')) :
    r.freed.filterMap Freed.detached = (clears k (.file c)).filterMap Clear.detached ∧
      ∀ y ∈ clears k (.file c), Clearing S y := by
  unfold step at h
  split_ifs at h with hcaller
  cases c with
  | search d supply path =>
    simp only [perform] at h
    split at h <;> cases h
    exact ⟨rfl, by simp [clears]⟩
  | openFile d supply p path flags =>
    simp only [perform] at h
    split at h <;> cases h
    exact ⟨rfl, by simp [clears]⟩
  | dup2 p oldfd newfd =>
    have hp : p < k.procs := by simpa [Call.caller] using hcaller
    cases hd : descriptor oldfd with
    | error e =>
      simp only [perform, hd] at h
      cases h
    | ok i =>
      simp only [perform, clears, hd] at h ⊢
      rw [← descriptor_toNat hd]
      split at h
      · cases h
      · rename_i hdup
        cases h
        obtain ⟨hfreed, hstart⟩ := sysDup2_clears hdup
        exact ⟨hfreed, hstart.clearing hx hp⟩
  | dupFd p fd arg =>
    refine ⟨?_, by simp [clears]⟩
    simp only [perform] at h
    split at h
    · cases h
      rfl
    · split_ifs at h
      split at h
      · cases h
      · rename_i hdup
        cases h
        exact sysDupFd_clears hdup
  | fork p =>
    cases h
    exact ⟨rfl, by simp [clears]⟩
  | close p fd =>
    have hp : p < k.procs := by simpa [Call.caller] using hcaller
    simp only [perform, clears] at h ⊢
    split at h
    · cases h
    · rename_i i hd
      split at h
      · cases h
      · rename_i hclose
        cases h
        obtain ⟨hfreed, hstart⟩ := sysClose_clears hd hclose
        exact ⟨hfreed, hstart.clearing hx hp⟩
  | exit p =>
    have hp : p < k.procs := by simpa [Call.caller] using hcaller
    simp only [perform, clears] at h ⊢
    split at h
    · cases h
    · rename_i hexit
      cases h
      exact exitLoop_clears ⟨hx, hp, hn⟩ hexit

end Clears

/-- The counts have room for the references of the call, and no file it closes points at
the struct of another one. -/
def OpenCall.Fits (s : OpenFiles) : OpenCall → Prop
  | .file c => CountsFit s.kernel c ∧ NodesApart s.kernel c
  | .socket _ _ => True

/-- What holds between two calls. -/
def OpenFiles.Sound (s : OpenFiles) : Prop := Exact s.sockets s.kernel ∧ Tagged s.sockets s.kernel

theorem openStep_sound {c : OpenCall} {r : Result} (hs : s.Sound) (hf : c.Fits s)
    (h : openStep s c = .ok (r, t)) : t.Sound := by
  cases c with
  | file c =>
    simp only [openStep] at h
    split at h
    · cases h
    · rename_i hstep
      cases h
      have hx := ((outcome_iff.mp (step_exact hs.1 hs.2 hf.1 hf.2)).1 _ hstep).1
      exact ⟨hx.filter, fun f hm => (Finset.mem_filter.mp hm).2⟩
  | socket supply p =>
    simp only [openStep] at h
    split_ifs at h with hp
    · cases h
      exact hs
    · split at h
      · cases h
      · rename_i hsock
        cases h
        have hsupply : Exact s.sockets (s.kernel.withSupply supply) :=
          ⟨hs.1.counted.supply supply, hs.1.refs⟩
        exact sysSocket_exact hsupply hs.2 (not_le.mp hp) hsock

theorem openStep_clearing {c : OpenCall} {r : Result} (hs : s.Sound) (hf : c.Fits s)
    (h : openStep s c = .ok (r, t)) :
    r.freed.filterMap Freed.detached = (clears s.kernel c).filterMap Clear.detached ∧
      ∀ y ∈ clears s.kernel c, Clearing s.sockets y := by
  cases c with
  | file c =>
    simp only [openStep] at h
    split at h
    · cases h
    · rename_i hstep
      cases h
      exact step_clears hs.1 hf.2 hstep
  | socket supply p =>
    simp only [openStep] at h
    refine ⟨?_, by simp [clears]⟩
    split_ifs at h
    · cases h
      rfl
    · split at h <;> cases h
      rfl

/-- In every run whose calls fit, starting without open files: what a call detaches is
what the slots it clears detach, and a slot is closed as it should be, with the close
function called and the inode detached at the last slot and only there, exactly when it
is closed in turn. -/
theorem close_at_last_iff {s : OpenFiles} {cs : List OpenCall}
    {tr : List (Transition OpenFiles OpenCall Result)} (hk : NoneOpen s.kernel)
    (hs : s.sockets = ∅) (hr : run openStep s cs = some tr) (hf : ∀ x ∈ tr, x.input.Fits x.pre) :
    ∀ x ∈ tr,
      x.output.freed.filterMap Freed.detached =
        (clears x.pre.kernel x.input).filterMap Clear.detached ∧
      ∀ y ∈ clears x.pre.kernel x.input, AtLastClose y ↔ InTurn x.pre.sockets y := by
  have hstart : s.Sound := by
    refine ⟨⟨hk.counted, fun f hf hh => ?_⟩, by simp [Tagged, hs]⟩
    obtain ⟨t, ht⟩ := hh
    obtain ⟨hp, he⟩ := mem_holders.mp ht
    exact absurd (he.symm.trans (hk.empty t.1 t.2 hp)) hf
  have hinv := run_invariant (I := OpenFiles.Sound) (C := fun s c => c.Fits s)
    (fun s c r t hs hf h => openStep_sound hs hf h) hr hstart hf
  intro x hx
  obtain ⟨hfreed, hclear⟩ := openStep_clearing (hinv x hx).1 (hf x hx) (run_step hr x hx)
  exact ⟨hfreed, fun y hy => (hclear y hy).atLastClose_iff⟩

instance (v : Vfs) (a : Word) : Decidable (Preceded v a) :=
  decidable_of_iff ((v.findChild (v.inodes (v.inodes a).parent).children
      (fun b => decide ((v.inodes b).siblings = a))).any (· ≠ 0) = true) (by
    simp [Preceded, Option.any_eq_true, and_comm])

instance (x : Clear) : Decidable x.Last := inferInstanceAs (Decidable (_ = _))

instance (sockets : Finset Word) (x : Clear) : Decidable (InTurn sockets x) :=
  inferInstanceAs (Decidable (if x.inode = 0 ∨ x.inode = x.kernel.vfs.rootFs then ¬x.Last
    else if (x.kernel.vfs.inodes x.inode).parent = 0 then x.Last
    else x.Last → x.file ∉ sockets ∧ Preceded x.kernel.vfs x.inode))

instance (s : OpenFiles) : DecidablePred (OpenCall.Fits s)
  | .file c => inferInstanceAs (Decidable (CountsFit s.kernel c ∧ NodesApart s.kernel c))
  | .socket _ _ => .isTrue trivial

/-- Only the root directory, with a driver that finds every name and has a close function. -/
def bootFiles : OpenFiles := ⟨bareRoot, ∅, true⟩

def closable : Driver where
  search := fun node name => some ⟨7, name, { node.acts with closes := true }⟩
  create := fun _ _ _ => none
  opening := fun node _ => (0, node.acts)

/-- "/b" is opened behind "/a" and closed in both of its slots, a socket in its only one. -/
def closedInTurn : List OpenCall :=
  [.file (.openFile closable [0x2000, 0x3000] 0 [slash, 0x61] 0),
    .file (.openFile closable [0x4000, 0x5000] 0 [slash, 0x62] 0),
    .socket [0x6000, 0x7000] 0, .file (.dup2 0 1 3),
    .file (.close 0 1), .file (.close 0 3), .file (.close 0 2)]

theorem close_at_last_inTurn :
    ∃ tr, run openStep bootFiles closedInTurn = some tr ∧
      tr.map (fun x => (x.output.freed.filterMap Freed.detached).map (·.inode)) =
        [[], [], [], [], [], [0x4000], [0x6000]] ∧
      ∀ x ∈ tr, ∀ y ∈ clears x.pre.kernel x.input, AtLastClose y := by
  refine run_test (fun tr => (∀ x ∈ tr, x.input.Fits x.pre) ∧
    (∀ x ∈ tr, ∀ y ∈ clears x.pre.kernel x.input, InTurn x.pre.sockets y) ∧
    tr.map (fun x => (x.output.freed.filterMap Freed.detached).map (·.inode)) =
      [[], [], [], [], [], [0x4000], [0x6000]]) (by decide +kernel) ?_
  intro tr hr ht
  obtain ⟨hfits, hturn, hfreed⟩ := ht
  have hiff := close_at_last_iff bareRoot_noneOpen rfl hr hfits
  exact ⟨hfreed, fun x hx y hy => ((hiff x hx).2 y hy).mpr (hturn x hx y hy)⟩

/-- A socket with two slots is closed in one of them, and "/a" in its only one. -/
def closedOutOfTurn : List OpenCall :=
  [.socket [0x2000, 0x3000] 0, .file (.dup2 0 0 1), .file (.close 0 0),
    .file (.openFile closable [0x4000, 0x5000] 0 [slash, 0x61] 0), .file (.close 0 0)]

/-- The close function of the socket runs and its inode is freed while slot 1 still holds
it. The first child of a directory is not detached at its last slot. -/
theorem close_out_of_turn :
    ∃ tr, run openStep bootFiles closedOutOfTurn = some tr ∧
      (∃ x ∈ tr, ∃ y ∈ clears x.pre.kernel x.input,
        y.detached = some ⟨0x2000, true⟩ ∧ x.post.kernel.fds 0 1 = y.file ∧ ¬y.Last) ∧
      ∃ x ∈ tr, ∃ y ∈ clears x.pre.kernel x.input, y.inode = 0x4000 ∧ y.Last ∧ y.detached = none := by
  show ∃ tr ∈ run openStep bootFiles closedOutOfTurn, _
  decide

end TapiOS.Task
