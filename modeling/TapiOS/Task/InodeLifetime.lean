import TapiOS.Fs.NameTree
import TapiOS.Task.FileCounts

/-!
# The lifetime of cached inodes

The count that decides when an inode goes is the count of one struct file, while inodes
are shared through the name cache. An inode is safe if it is pinned, or if a single file
uses it and it has no cached children. Lookups and opens that keep this are admitted.
-/
namespace TapiOS.Task

open Lib Util Fs Kernel

/-- Some slot holds the file. -/
def Held (k : Kernel) (f : Word) : Prop :=
  f ≠ 0 ∧ ∃ p i, p < k.procs ∧ k.fds p i = f

/-- A file in some slot points to the inode. -/
def InUse (k : Kernel) (a : Word) : Prop :=
  ∃ p, p < k.procs ∧ ∃ i, k.fds p i ≠ 0 ∧ (k.vfs.files (k.fds p i)).inode = a

variable {k : Kernel}

theorem inUse_iff {a : Word} :
    InUse k a ↔ ∃ f, Held k f ∧ (k.vfs.files f).inode = a := by
  refine ⟨fun ⟨p, hp, i, h0, ha⟩ => ⟨_, ⟨h0, p, i, hp, rfl⟩, ha⟩, ?_⟩
  intro ⟨f, ⟨h0, p, i, hp, hf⟩, ha⟩
  subst hf
  exact ⟨p, hp, i, h0, ha⟩

/-- Files in slots have allocated inodes, and an inode that vfs_close may free has one
file and no cached children. -/
structure Alive (k : Kernel) : Prop where
  counted : Counted k
  linked : Linked k.vfs
  node : ∀ f, Held k f → (k.vfs.files f).inode ∈ k.vfs.inodeBlocks
  sole : ∀ f, Held k f → Pinned k.vfs (k.vfs.files f).inode ∨
    ((k.vfs.inodes (k.vfs.files f).inode).children = 0 ∧
      ∀ g, Held k g → (k.vfs.files g).inode = (k.vfs.files f).inode → g = f)

/-- A freed inode is used by no file in a slot and is parent of no cached inode. -/
def Freed.Sound : Freed → Prop
  | .inode d after => ¬InUse after d.inode ∧
      ∀ a ∈ after.vfs.inodeBlocks, (after.vfs.inodes a).parent ≠ d.inode
  | .file _ _ => True

section Moves
variable {k k' : Kernel} {p : Nat} {i : Fd} {f : Word} {v : Vfs}

/-- What keeps the files in slots and their inodes keeps the invariant. -/
theorem Alive.frame (h : Alive k) (hc : Counted k') (hl : Linked k'.vfs)
    (hheld : ∀ f, Held k' f → Held k f ∧
      (k'.vfs.files f).inode = (k.vfs.files f).inode ∧
      (k.vfs.files f).inode ∈ k'.vfs.inodeBlocks)
    (hpin : ∀ a ∈ k.vfs.inodeBlocks, Pinned k.vfs a → Pinned k'.vfs a)
    (hchild : ∀ f, Held k f → ¬Pinned k.vfs (k.vfs.files f).inode →
      (k.vfs.inodes (k.vfs.files f).inode).children = 0 →
      (k'.vfs.inodes (k.vfs.files f).inode).children = 0) : Alive k' := by
  refine ⟨hc, hl, fun f hf => ?_, fun f hf => ?_⟩
  · obtain ⟨-, he, hm⟩ := hheld f hf
    exact he ▸ hm
  · obtain ⟨hk, he, -⟩ := hheld f hf
    rw [he]
    by_cases hp : Pinned k.vfs (k.vfs.files f).inode
    · exact .inl (hpin _ (h.node f hk) hp)
    · obtain ⟨h0, hu⟩ := (h.sole f hk).resolve_left hp
      refine .inr ⟨hchild f hk hp h0, fun g hg hge => ?_⟩
      obtain ⟨hgk, hgi, -⟩ := hheld g hg
      exact hu g hgk (hgi ▸ hge)

theorem Alive.same (h : Alive k) (hc : Counted k') (hs : SameTree k.vfs k'.vfs)
    (hheld : ∀ f, Held k' f → Held k f ∧ (k'.vfs.files f).inode = (k.vfs.files f).inode) :
    Alive k' := by
  refine h.frame hc (h.linked.same hs) (fun f hf => ?_) (fun a _ hp => hp.same hs)
    (fun f _ _ h0 => by rw [hs.children, h0])
  obtain ⟨hk, he⟩ := hheld f hf
  exact ⟨hk, he, hs.blocks ▸ h.node f hk⟩

theorem Alive.notAFile (h : Alive k) (hp : p < k.procs) : NotAFile k (k.fds p i) := by
  intro h0 hi
  by_contra hne
  have hm := h.node _ ⟨h0, p, i, hp, rfl⟩
  exact h.counted.apart _ hm (h.counted.blocks _ hi (Finset.nonempty_iff_ne_empty.mpr hne))

theorem held_setFd {g : Word} (h : Held (k.setFd p i f) g) (hne : g ≠ f) : Held k g := by
  obtain ⟨h0, q, j, hq, he⟩ := h
  refine ⟨h0, q, j, hq, ?_⟩
  by_cases hs : q = p ∧ j = i
  · simp only [setFd, if_pos hs] at he
    exact absurd he.symm hne
  · simpa [setFd, hs] using he

theorem Alive.share (h : Alive k) (hp : p < k.procs) (hf : Held k f) (hr : Room k f 1) :
    Alive (shareFile k p i f) := by
  obtain ⟨h0, q, j, hq, hj⟩ := hf
  have hb := h.counted.blocks f h0 (holders_nonempty hq hj)
  refine h.same (h.counted.share hp h0 hb hr)
    ⟨rfl, rfl, fun _ => rfl, fun _ => rfl, fun _ => rfl⟩ fun g hg => ⟨?_, ?_⟩
  · by_cases hgf : g = f
    · exact ⟨hg.1, q, j, hq, hj.trans hgf.symm⟩
    · exact held_setFd (k := { k with vfs := _ }) hg hgf
  · by_cases hgf : g = f <;> simp [shareFile_eq, setFd, Vfs.setFile, hgf]

theorem Alive.kfree (h : Alive k) (hi : f ∉ k.vfs.inodeBlocks) (hk : k.vfs.kfree f = .ok v)
    (hc : Counted { k with vfs := v }) : Alive { k with vfs := v } := by
  rcases kfree_ok hk with ⟨hm, -⟩ | ⟨-, -, rfl⟩
  · exact absurd hm hi
  · exact h.same hc ⟨rfl, rfl, fun _ => rfl, fun _ => rfl, fun _ => rfl⟩ fun g hg => ⟨hg, rfl⟩

/-- vfs_close through a slot, and the slot cleared. A freed inode was not pinned, so the
file was its only user and it had no cached children. -/
theorem Alive.closed {r : Option Detached} (h : Alive k) (hp : p < k.procs)
    (h0 : k.fds p i ≠ 0) (hcl : Closes k.vfs (k.fds p i) r v) :
    Alive (Kernel.setFd { k with vfs := v } p i 0) ∧
      ∀ d, r = some d → Freed.Sound (.inode d { k with vfs := v }) := by
  have hheld : Held k (k.fds p i) := ⟨h0, p, i, hp, rfl⟩
  have hnode := h.node _ hheld
  have hcounted := h.counted.closed hp h0 (h.notAFile hp) hcl.closed
  cases h.linked.closes hnode hcl with
  | kept hr ht hi =>
    refine ⟨h.same hcounted ⟨ht.blocks, ht.rootFs, ht.parent, ht.children, ht.siblings⟩
      fun g hg => ⟨held_setFd (k := { k with vfs := v }) hg hg.1, hi g⟩, fun d hd => ?_⟩
    rw [hr] at hd
    cases hd
  | cut d b hr hd hroot hb hs hc hlast hf0 hi =>
    rw [← hd] at hnode
    have hnp : ¬Pinned k.vfs d.inode := by
      intro hpin
      have hsib := (h.linked.sibling b hb (hs ▸ h.linked.mem_ne_zero hnode)).2
      rw [hs] at hsib
      exact hsib (hpin.resolve_left hroot)
    have hsole := h.sole _ hheld
    rw [← hd] at hsole
    obtain ⟨hch, hu⟩ := hsole.resolve_left hnp
    obtain ⟨hlinked, hparents⟩ := h.linked.cut hc hnode hroot hb hs hch
    -- the other files in slots point elsewhere
    have hother : ∀ g, Held k g → g ≠ k.fds p i → (k.vfs.files g).inode ≠ d.inode :=
      fun g hg hne he => hne (hu g hg he)
    refine ⟨h.frame hcounted hlinked (fun g hg => ?_) (fun a _ hpin => hpin.cut hc)
      (fun g _ _ hg0 => ?_), ?_⟩
    · have hgk : Held k g := held_setFd (k := { k with vfs := v }) hg hg.1
      have hgf : g ≠ k.fds p i := by
        intro he
        obtain ⟨hg0, q, j, hq, hj⟩ := hg
        have hz := hcounted.holders_eq_empty h0 hlast
        exact Finset.notMem_empty (q, j) (hz ▸ mem_holders.mpr ⟨hq, hj.trans he⟩)
      refine ⟨hgk, hi g hgf, ?_⟩
      change (k.vfs.files g).inode ∈ v.inodeBlocks
      rw [hc.blocks, List.mem_erase_of_ne (hother g hgk hgf)]
      exact h.node g hgk
    · change (v.inodes (k.vfs.files g).inode).children = 0
      rw [hc.children, hg0]
    · intro d' hd'
      rw [hr] at hd'
      cases hd'
      refine ⟨fun huse => ?_, hparents⟩
      obtain ⟨g, hg, hgi⟩ := inUse_iff.mp huse
      by_cases hgf : g = k.fds p i
      · rw [hgf, hf0] at hgi
        exact h.linked.mem_ne_zero hnode hgi.symm
      · rw [hi g hgf] at hgi
        exact hother g hg hgf hgi

end Moves

/-- No file in a slot relies on `dir` having no children. -/
def Calm (k : Kernel) (dir : Word) : Prop :=
  Pinned k.vfs dir ∨ ¬InUse k dir

/-- A further file for the inode is no danger. -/
def Openable (k : Kernel) (a : Word) : Prop :=
  Pinned k.vfs a ∨ ((k.vfs.inodes a).children = 0 ∧ ¬InUse k a)

section Growth
variable {k : Kernel} {p : Nat} {i : Fd} {f dir node : Word} {v : Vfs}

theorem Grown.quiet {w w' : Vfs} (hg : Grown w dir node w') : Quiet w w' := by
  refine ⟨hg.files, hg.fileBlocks, hg.rootFs, fun a ha => ?_,
    fun a ha => hg.blocks ▸ List.mem_cons_of_mem _ ha⟩
  rcases List.mem_cons.mp (hg.blocks ▸ ha) with rfl | ha
  · exact .inr hg.newFile
  · exact .inl ha

theorem Alive.grown (h : Alive k) (hd : dir ∈ k.vfs.inodeBlocks) (hc : Calm k dir)
    (hg : Grown k.vfs dir node v) : Alive { k with vfs := v } := by
  refine h.frame (h.counted.quiet (Grown.quiet hg)) (h.linked.grown hd hg) (fun f hf => ?_)
    (fun a ha hp => hp.grown h.linked hg ha) (fun f hf hnp h0 => ?_)
  · refine ⟨hf, ?_, ?_⟩
    · rw [hg.files]
    · rw [hg.blocks]
      exact .tail _ (h.node f hf)
  · have hne : (k.vfs.files f).inode ≠ node := fun he => hg.newInode (he ▸ h.node f hf)
    have hnd : (k.vfs.files f).inode ≠ dir := by
      intro he
      rcases hc with hpin | huse
      · exact hnp (he ▸ hpin)
      · exact huse (inUse_iff.mpr ⟨f, hf, he⟩)
    exact (hg.children_of_ne hne (.inr hnd)).trans h0

/-- The inode that was just created has no user and no children. -/
theorem Alive.grown_openable (h : Alive k) (hg : Grown k.vfs dir node v) :
    Openable { k with vfs := v } node := by
  refine .inr ⟨hg.nodeChildren, fun huse => ?_⟩
  obtain ⟨f, hf, he⟩ := inUse_iff.mp huse
  rw [hg.files] at he
  exact hg.newInode (he ▸ h.node f hf)

theorem Alive.opened {g : Word} (h : Alive k) (ho : Opened k.vfs node g v) :
    Alive { k with vfs := v } ∧ SameTree k.vfs v ∧
      ∀ f, Held k f → (v.files f).inode = (k.vfs.files f).inode := by
  have ht : SameTree k.vfs v := by
    refine ⟨ho.inodeBlocks, ho.rootFs, fun a => ?_, fun a => ?_, fun a => ?_⟩ <;> rw [ho.inodes a]
  have hi : ∀ f, Held k f → (v.files f).inode = (k.vfs.files f).inode := by
    intro f hf
    obtain ⟨h0, q, j, hq, hj⟩ := hf
    have hfg : f ≠ g := fun he =>
      ho.newFile (he ▸ h.counted.blocks f h0 (holders_nonempty hq hj))
    rw [ho.others f hfg]
  exact ⟨h.same (h.counted.added ho.newStruct) ht fun f hf => ⟨hf, hi f hf⟩, ht, hi⟩

theorem Alive.hold (h : Alive k) (hn : node ∈ k.vfs.inodeBlocks) (ho : Openable k node)
    (hf : ¬Held k f) (hi : (k.vfs.files f).inode = node) (hc : Counted (k.setFd p i f)) :
    Alive (k.setFd p i f) := by
  have hcases : ∀ g, Held (k.setFd p i f) g → g = f ∨ Held k g := fun g hg => by
    by_cases hgf : g = f
    · exact .inl hgf
    · exact .inr (held_setFd hg hgf)
  refine ⟨hc, h.linked, fun g hg => ?_, fun g hg => ?_⟩
  · rcases hcases g hg with rfl | hg
    · exact hi ▸ hn
    · exact h.node g hg
  · change Pinned k.vfs (k.vfs.files g).inode ∨ ((k.vfs.inodes (k.vfs.files g).inode).children = 0 ∧ _)
    rcases hcases g hg with rfl | hgk
    · rw [hi]
      refine ho.imp_right fun ⟨h0, huse⟩ => ⟨h0, fun g' hg' he => ?_⟩
      rcases hcases g' hg' with rfl | hg'
      · rfl
      · exact absurd (inUse_iff.mpr ⟨g', hg', he.trans hi⟩) huse
    · by_cases hpin : Pinned k.vfs (k.vfs.files g).inode
      · exact .inl hpin
      · obtain ⟨h0, hu⟩ := (h.sole g hgk).resolve_left hpin
        refine .inr ⟨h0, fun g' hg' he => ?_⟩
        rcases hcases g' hg' with rfl | hg'
        · rcases ho with ho | ⟨-, huse⟩
          · exact absurd (he ▸ hi ▸ ho) hpin
          · exact absurd (inUse_iff.mpr ⟨g, hgk, he.symm.trans hi⟩) huse
        · exact hu g' hg' he

end Growth

/-! The conditions on lookups follow the code: where a name is not in the cache, the
directory that gets the new inode is calm. -/

/-- What is asked of the result, if the lookup does not stop. -/
abbrev IfOk {α : Type} (r : Except Stop (α × Vfs)) (Q : α → Vfs → Prop) : Prop :=
  Outcome (fun _ => True) (fun x => Q x.1 x.2) r

def WalkCalm (d : Driver) : List Text → Kernel → Word → Prop
  | [], _, _ => True
  | name :: rest, k, wnode =>
    (wnode ≠ 0 → k.vfs.findChild (k.vfs.inodes wnode).children
      (fun a => decide ((k.vfs.inodes a).name = name)) = some 0 → Calm k wnode) ∧
    IfOk (searchfunc d k.vfs wnode name) fun node v => WalkCalm d rest { k with vfs := v } node

def SearchCalm (d : Driver) (k : Kernel) (node : Word) (path : Text) : Prop :=
  WalkCalm d (components (tokname d.stack path)) k node

def LookupCalm (d : Driver) (k : Kernel) (p : Nat) (path : Text) : Prop :=
  if path.head? = some slash then SearchCalm d k k.vfs.rootFs path
  else SearchCalm d k k.vfs.rootFs (openDir (k.cwd p) path) ∧
    IfOk (getdirHelper d k p path) fun dir v => SearchCalm d { k with vfs := v } dir path

def CreateCalm (d : Driver) (k : Kernel) (p : Nat) (path : Text) (dir : Word) : Prop :=
  (dir = 0 → SearchCalm d k k.vfs.rootFs (openDir (k.cwd p) path)) ∧
    IfOk (if dir = 0 then getdirHelper d k p path else .ok (dir, k.vfs)) fun dir v =>
      Calm { k with vfs := v } dir

/-- The inode a path names may be opened, or a missing file may be created. -/
def TargetCalm (d : Driver) (p : Nat) (path : Text) (flags : Word) (k : Kernel)
    (target : Option (Word × Word)) : Prop :=
  ∀ t ∈ target, if t.2 = 0 then flags &&& O_CREAT ≠ 0 → CreateCalm d k p path t.1
    else flags &&& (O_CREAT ||| O_EXCL) ≠ (O_CREAT ||| O_EXCL) → Openable k t.2

def OpenCalm (d : Driver) (k : Kernel) (p : Nat) (path : Text) (flags : Word) : Prop :=
  LookupCalm d k p path ∧
    IfOk (openLookup d k p path) fun target v => TargetCalm d p path flags { k with vfs := v } target

section Lookups
variable {k : Kernel} {p : Nat} {d : Driver} {path : Text} {flags : Word}

/-- After a lookup: the invariant, the cached inodes are still there, and the result is
NULL or cached. -/
def Looked (k : Kernel) (node : Word) (v : Vfs) : Prop :=
  Alive { k with vfs := v } ∧ (∀ a ∈ k.vfs.inodeBlocks, a ∈ v.inodeBlocks) ∧
    (node = 0 ∨ node ∈ v.inodeBlocks)

theorem walk_alive {names : List Text} {wnode node : Word} {v : Vfs} (h : Alive k)
    (hw : wnode = 0 ∨ wnode ∈ k.vfs.inodeBlocks) (hc : WalkCalm d names k wnode)
    (hr : walk d k.vfs wnode names = .ok (node, v)) : Looked k node v := by
  induction names generalizing k wnode with
  | nil =>
    cases hr
    exact ⟨h, fun _ => id, hw⟩
  | cons name rest ih =>
    simp only [walk] at hr
    obtain ⟨hmiss, hrest⟩ := hc
    split at hr
    · cases hr
    rename_i n w hs
    rw [hs] at hrest
    -- one step, then the rest of the path from there
    have hstep : Looked k n w := by
      rcases searchfunc_grown h.linked hw hs with ⟨rfl, hn⟩ | ⟨hwm, hf, hg⟩
      · exact ⟨h, fun _ => id, hn⟩
      · have hcalm := hmiss (h.linked.mem_ne_zero hwm) hf
        exact ⟨h.grown hwm hcalm hg, fun a ha => hg.blocks ▸ List.mem_cons_of_mem _ ha,
          .inr (hg.blocks ▸ .head _)⟩
    obtain ⟨hk, hsub, hn⟩ := hstep
    obtain ⟨hk', hsub', hn'⟩ := ih (k := { k with vfs := w }) hk hn hrest hr
    exact ⟨hk', fun a ha => hsub' a (hsub a ha), hn'⟩

theorem vfsSearch_alive {node : Word} (h : Alive k) (hn : node = 0 ∨ node ∈ k.vfs.inodeBlocks)
    (hc : SearchCalm d k node path) : Looks (Looked k) (vfsSearch d k.vfs node path) := by
  refine outcome_iff.mpr ⟨fun r hr => ?_, fun _ => vfsSearch_error⟩
  obtain ⟨n, v⟩ := r
  rcases vfsSearch_ok hr with ⟨rfl, hn'⟩ | hw
  · refine ⟨h, fun _ => id, hn'.imp_right fun he => ?_⟩
    exact he ▸ h.linked.root
  · exact walk_alive h hn hc hw

theorem openLookup_alive (h : Alive k) (hc : LookupCalm d k p path) :
    Looks (fun r v => Alive { k with vfs := v } ∧ ∀ dir inode, r = some (dir, inode) →
      (dir = 0 ∨ dir ∈ v.inodeBlocks) ∧ (inode = 0 ∨ inode ∈ v.inodeBlocks))
      (openLookup d k p path) := by
  have hroot : k.vfs.rootFs = 0 ∨ k.vfs.rootFs ∈ k.vfs.inodeBlocks := .inr h.linked.root
  unfold LookupCalm at hc
  unfold openLookup
  split <;> rename_i habs
  · rw [if_pos habs] at hc
    have hs := vfsSearch_alive h hroot hc
    split <;> rename_i he <;> rw [he] at hs
    · exact hs
    · refine ⟨hs.1, fun dir inode hr => ?_⟩
      cases hr
      exact ⟨.inl rfl, hs.2.2⟩
  · rw [if_neg habs] at hc
    obtain ⟨hdir, hpath⟩ := hc
    have hs : Looks (Looked k) (getdirHelper d k p path) := vfsSearch_alive h hroot hdir
    split <;> rename_i he <;> rw [he] at hs
    · exact hs
    rename_i dir v
    split <;> rename_i hd0
    · exact ⟨hs.1, fun _ _ hr => nomatch hr⟩
    rw [he] at hpath
    have ht := vfsSearch_alive (k := { k with vfs := v }) hs.1 hs.2.2 hpath
    split <;> rename_i he' <;> rw [he'] at ht
    · exact ht
    · refine ⟨ht.1, fun dir' inode hr => ?_⟩
      cases hr
      exact ⟨.inr (ht.2.1 _ (hs.2.2.resolve_left hd0)), ht.2.2⟩

/-- The inode that is found may be opened, and a file may be created in the directory. -/
theorem openPlan_alive (h : Alive k) (hc : OpenCalm d k p path flags) :
    Looks (fun r v => Alive { k with vfs := v } ∧ match r with
      | .fail _ => True
      | .node inode => inode ≠ 0 → inode ∈ v.inodeBlocks ∧ Openable { k with vfs := v } inode
      | .create dir => dir ∈ v.inodeBlocks ∧ Calm { k with vfs := v } dir)
      (openPlan d k p path flags) := by
  obtain ⟨hlook, hopen⟩ := hc
  have hl := openLookup_alive h hlook
  unfold openPlan
  split
  · exact fun hc => nomatch hc
  split
  · exact ⟨h, trivial⟩
  split <;> rename_i he <;> rw [he] at hl hopen
  · exact hl
  · exact ⟨hl.1, trivial⟩
  rename_i dir inode v
  obtain ⟨hk, hr⟩ := hl
  obtain ⟨hd, hi⟩ := hr _ _ rfl
  have ht := hopen _ rfl
  split <;> rename_i hexcl
  · exact ⟨hk, trivial⟩
  split <;> rename_i hcreate
  · rw [if_pos hcreate.1] at ht
    obtain ⟨hsearch, hcalm⟩ := ht hcreate.2
    have hs : Looks (Looked { k with vfs := v })
        (if dir = 0 then getdirHelper d { k with vfs := v } p path else .ok (dir, v)) := by
      split <;> rename_i hd0
      · exact vfsSearch_alive hk (.inr hk.linked.root) (hsearch hd0)
      · exact ⟨hk, fun _ => id, hd⟩
    split <;> rename_i he' <;> rw [he'] at hs hcalm
    · exact hs
    · rename_i dir' v'
      by_cases hd0 : dir' = 0
      · rw [if_pos hd0]
        exact ⟨hs.1, trivial⟩
      · rw [if_neg hd0]
        exact ⟨hs.1, hs.2.2.resolve_left hd0, hcalm⟩
  · refine ⟨hk, fun h0 => ⟨hi.resolve_left h0, ?_⟩⟩
    rw [if_neg h0] at ht
    rw [not_and] at hexcl
    exact ht (hexcl h0)

theorem openInstall_alive {inode : Word} (h : Alive k) (hp : p < k.procs)
    (hn : inode ≠ 0 → inode ∈ k.vfs.inodeBlocks ∧ Openable k inode) :
    Ends (fun _ k' => Alive k') (openInstall d k p inode flags) := by
  refine openInstall_rule h (fun status v ho => ?_) (fun f status v ho h0 hf => ?_)
  · obtain ⟨g, hg, -⟩ := vfsOpen_ok ho
    exact (h.opened hg).1
  · obtain ⟨g, hg, hfg⟩ := vfsOpen_ok ho
    obtain ⟨rfl, hblocks⟩ := hfg.resolve_left hf
    obtain ⟨hk, ht, hi⟩ := h.opened hg
    obtain ⟨hm, hopen⟩ := hn h0
    have hnone : ¬Held { k with vfs := v } f := by
      intro ⟨_, q, j, hq, hj⟩
      exact hg.newFile (h.counted.blocks f hf (holders_nonempty hq hj))
    have hopen' : Openable { k with vfs := v } inode := by
      refine hopen.imp (fun hpin => hpin.same ht) fun ⟨hc0, huse⟩ => ⟨?_, fun hu => huse ?_⟩
      · exact (ht.children inode).trans hc0
      · obtain ⟨f', hf', he⟩ := inUse_iff.mp hu
        exact inUse_iff.mpr ⟨f', hf', (hi f' hf').symm.trans he⟩
    rcases newfd_cases (k := { k with vfs := v }) (p := p) (f := f) with he | ⟨j, -, he⟩
    · rw [he]
      exact hk
    · rw [he]
      refine hk.hold (ht.blocks ▸ hm) hopen' hnone ?_ ?_
      · rw [hg.file]
      · exact h.counted.install hp hg.newStruct hblocks (hg.file ▸ le_rfl)

theorem sysOpen_alive (h : Alive k) (hp : p < k.procs) (hc : OpenCalm d k p path flags) :
    Ends (fun _ k' => Alive k') (sysOpen d k p path flags) := by
  refine sysOpen_rule ((openPlan_alive h hc).mono fun r hq => ?_)
  obtain ⟨r, v⟩ := r
  obtain ⟨hk, hr⟩ := hq
  cases r with
  | fail ret => exact hk
  | node inode => exact openInstall_alive hk hp hr
  | create dir =>
    refine outcome_iff.mpr ⟨fun x hn => ?_, fun e hn => vfsNewInode_error hn⟩
    obtain ⟨inode, v'⟩ := x
    rcases vfsNewInode_grown hk.linked hr.1 hn with ⟨rfl, rfl⟩ | hg
    · exact openInstall_alive hk hp fun h0 => absurd rfl h0
    · exact openInstall_alive (hk.grown hr.1 hr.2 hg) hp
        fun _ => ⟨hg.blocks ▸ .head _, hk.grown_openable hg⟩

end Lookups

section Calls
variable {k : Kernel} {p : Nat} {i : Fd}

theorem drops_alive (h : Alive k) (hp : p < k.procs) (h0 : k.fds p i ≠ 0) :
    Drops files (fun k' => Alive k' ∧ k'.procs = k.procs ∧
      ∀ a ∈ k'.vfs.inodeBlocks, a ∈ k.vfs.inodeBlocks) Freed.Sound k p i := by
  refine (drops_counted h.counted hp h0 (h.notAFile hp)).imp fun r hr _ => ?_
  obtain ⟨r', hc, hk, hfreed⟩ := closeFile_ok hr
  obtain ⟨hal, hsound⟩ := h.closed hp h0 hc
  refine ⟨?_, fun x hx => ?_⟩
  · rw [hk]
    exact ⟨hal, rfl, hc.closed.inodeBlocks⟩
  · rw [hfreed] at hx
    obtain ⟨d, hd, rfl⟩ := Option.mem_map.mp (Option.mem_toList.mp hx)
    rw [hk]
    exact hsound d hd

theorem sysClose_alive (h : Alive k) (hp : p < k.procs) :
    Ends (fun r k' => Good Alive Freed.Sound r.2 k') (sysClose k p i) := by
  refine sysClose_rule h fun h0 => ?_
  have hb := h.counted.blocks _ h0 (holders_nonempty (i := i) hp rfl)
  have hslot := closeSlot_rule (drops_alive h hp h0) fun k' hk' hz =>
    files_kfree_rule fun v hfree => ?_
  · exact hslot.mono fun r hg => ⟨hg.1.1, hg.2⟩
  · obtain ⟨hal, hprocs, hsub⟩ := hk'
    have hnone := hal.counted.holders_eq_empty h0 hz
    have hi : k.fds p i ∉ k'.vfs.inodeBlocks := fun hm => h.counted.apart _ (hsub _ hm) hb
    refine ⟨⟨hal.kfree hi hfree (hal.counted.kfree hnone hfree), hprocs, fun a ha => hsub a ?_⟩,
      trivial⟩
    rcases kfree_ok hfree with ⟨-, rfl⟩ | ⟨-, -, rfl⟩
    · exact List.mem_of_mem_erase ha
    · exact ha

theorem sysDup2_alive (newfd : Int) (h : Alive k) (hp : p < k.procs)
    (hr : Room k (k.fds p i) 1) :
    Ends (fun r k' => Good Alive Freed.Sound r.2 k') (sysDup2 k p i newfd) := by
  refine sysDup2_rule h hp (fun j _ => sysClose_alive h hp) (fun k' j hal hd hp' hs h0 => ?_)
  exact hal.share hp' ⟨h0, p, i, hp', hs⟩ (hd.room hr)

theorem sysExit_alive (h : Alive k) (hp : p < k.procs) :
    Ends (Good Alive Freed.Sound) (sysExit k p) := by
  refine (exitLoop_rule (I := fun k => Alive k ∧ p < k.procs) (G := Freed.Sound) ?_ _
    ⟨h, hp⟩).mono fun r hg => ⟨hg.1.1, hg.2⟩
  intro k i hk h0
  exact (drops_alive hk.1 hk.2 h0).mono fun r hg => ⟨⟨hg.1.1, hg.1.2.1 ▸ hk.2⟩, hg.2⟩

/-- Only slots and counts changed, and no slot has a file that had no slot. -/
structure Copied (k : Kernel) (p : Nat) (k' : Kernel) : Prop where
  tree : SameTree k.vfs k'.vfs
  inode : ∀ f, (k'.vfs.files f).inode = (k.vfs.files f).inode
  slots : ∀ i, k'.fds p i = k.fds p i
  held : ∀ f, Held k' f → Held k f

theorem Copied.share {k' : Kernel} {child : Nat} (h : Copied k p k') (hp : p < k.procs)
    (hpc : p ≠ child) : Copied k p (shareFile k' child i (k'.fds p i)) := by
  refine ⟨⟨h.tree.blocks, h.tree.rootFs, h.tree.parent, h.tree.children, h.tree.siblings⟩,
    fun f => ?_, fun j => ?_, fun f hf => ?_⟩
  · rw [← h.inode f]
    by_cases hfi : f = k'.fds p i <;> simp [shareFile_eq, Kernel.setFd, Vfs.setFile, hfi]
  · simp [shareFile_eq, Kernel.setFd, hpc, h.slots j]
  · by_cases hfi : f = k'.fds p i
    · exact ⟨hf.1, p, i, hp, (h.slots i).symm.trans hfi.symm⟩
    · exact h.held f (held_setFd (k := { k' with vfs := _ }) hf hfi)

theorem Copied.clear {k' : Kernel} {child : Nat} (h : Copied k p k') (hpc : p ≠ child) :
    Copied k p (k'.setFd child i 0) :=
  ⟨h.tree, h.inode, fun j => by simp [Kernel.setFd, hpc, h.slots j],
    fun f hf => h.held f (held_setFd hf hf.1)⟩

theorem Copied.newProcess (hp : p < k.procs) (cwd : Nat → Text) :
    Copied k p (k.newProcess cwd) := by
  refine ⟨⟨rfl, rfl, fun _ => rfl, fun _ => rfl, fun _ => rfl⟩, fun _ => rfl,
    fun i => if_neg (Nat.ne_of_lt hp), fun f hf => ?_⟩
  obtain ⟨h0, q, j, hq, hj⟩ := hf
  by_cases hqc : q = k.procs
  · simp only [Kernel.newProcess, if_pos hqc] at hj
    exact absurd hj.symm h0
  · simp only [Kernel.newProcess, if_neg hqc] at hj
    change q < k.procs + 1 at hq
    exact ⟨h0, q, j, by omega, hj⟩

theorem fork_alive (h : Alive k) (hp : p < k.procs)
    (hr : ∀ f, Room k f (copies k p f (List.finRange 256))) : Alive (fork k p) := by
  have hpc : p ≠ k.procs := Nat.ne_of_lt hp
  have hfork : Copied k p (fork k p) :=
    fork_slots (J := fun _ k' => Copied k p k')
      (fun _ _ _ hk' _ => hk'.share hp hpc) (fun _ _ _ hk' _ => hk'.clear hpc)
      (Copied.newProcess hp _)
  exact h.same (fork_counted h.counted hp hr) hfork.tree fun f hf =>
    ⟨hfork.held f hf, hfork.inode f⟩

end Calls

/-- The lookups of a call keep inodes that files rely on. -/
def LookupsCalm (k : Kernel) : Call → Prop
  | .search d supply path => SearchCalm d (k.withSupply supply) k.vfs.rootFs path
  | .openFile d supply p path flags => OpenCalm d (k.withSupply supply) p path flags
  | _ => True

def Call.Admitted (k : Kernel) (c : Call) : Prop :=
  CountsFit k c ∧ LookupsCalm k c

theorem Alive.supply (h : Alive k) (supply : List Word) :
    Alive (k.withSupply supply) :=
  h.same (h.counted.supply supply) ⟨rfl, rfl, fun _ => rfl, fun _ => rfl, fun _ => rfl⟩
    fun _ hf => ⟨hf, rfl⟩

theorem step_alive {c : Call} (h : Alive k) (hc : c.Admitted k) :
    Ends (fun r k' => Good Alive Freed.Sound r.freed k') (step k c) := by
  obtain ⟨hf, hl⟩ := hc
  apply step_rule h
  · intro d supply path hc
    subst hc
    exact (vfsSearch_alive (h.supply supply) (.inr (h.supply supply).linked.root) hl).mono
      fun _ hg => hg.1
  · intro d supply p path flags hc hp
    subst hc
    exact sysOpen_alive (h.supply supply) hp hl
  · intro p oldfd newfd i hc hp hd
    subst hc
    exact sysDup2_alive newfd h hp (hf _ hd)
  · intro p fd arg i j hc hp hd _
    subst hc
    exact sysDup2_alive _ h hp (hf _ hd)
  · intro p hc hp
    subst hc
    exact fork_alive h hp (room_of_slots hf)
  · intro p fd i _ hp _
    exact sysClose_alive h hp
  · intro p _ hp
    exact sysExit_alive h hp

theorem NoneOpen.alive (h : NoneOpen k) (hl : Linked k.vfs) : Alive k := by
  have hnone : ∀ f, ¬Held k f := fun f ⟨h0, p, i, hp, hf⟩ => h0 (hf ▸ h.empty p i hp)
  exact ⟨h.counted, hl, fun f hf => absurd hf (hnone f), fun f hf => absurd hf (hnone f)⟩

/-- In every run whose calls are admitted, an inode is freed only when no file in a slot
points to it and no cached inode has it as parent, and after every call the files in
slots point to allocated inodes. -/
theorem inode_outlives_users {k : Kernel} {cs : List Call}
    {tr : List (Transition Kernel Call Result)} (hk : NoneOpen k) (hl : Linked k.vfs)
    (hr : run step k cs = some tr) (hc : ∀ x ∈ tr, x.input.Admitted x.pre) :
    ∀ x ∈ tr, (∀ y ∈ x.output.freed, y.Sound) ∧
      ∀ p i, p < x.post.procs → x.post.fds p i ≠ 0 →
        (x.post.vfs.files (x.post.fds p i)).inode ∈ x.post.vfs.inodeBlocks := by
  have hstep : ∀ (s : Kernel) (c : Call), Alive s → c.Admitted s →
      Outcome (fun e => e ≠ .refcountZero)
        (fun r => (∀ y ∈ r.1.freed, y.Sound) ∧ Alive r.2) (step s c) :=
    fun s c hs hc => (step_alive hs hc).mono fun r hg => ⟨hg.2, hg.1⟩
  have hrun := run_outcome (C := fun s c => c.Admitted s)
    (G := fun r : Result => ∀ y ∈ r.freed, y.Sound) hstep hr (hk.alive hl) hc
  intro x hx
  obtain ⟨-, hfreed, hpost⟩ := hrun x hx
  exact ⟨hfreed, fun p i hp h0 => hpost.node _ ⟨h0, p, i, hp, rfl⟩⟩

instance (k : Kernel) (a : Word) : Decidable (InUse k a) :=
  decidable_of_iff (∃ p ∈ List.range k.procs, ∃ i : Fd,
    k.fds p i ≠ 0 ∧ (k.vfs.files (k.fds p i)).inode = a) (by simp only [List.mem_range, InUse])

instance (k : Kernel) (a : Word) : Decidable (Calm k a) :=
  inferInstanceAs (Decidable (_ ∨ ¬_))

instance (k : Kernel) (a : Word) : Decidable (Openable k a) :=
  inferInstanceAs (Decidable (_ ∨ (_ ∧ ¬_)))

instance decidableWalkCalm (d : Driver) :
    (names : List Text) → (k : Kernel) → (w : Word) → Decidable (WalkCalm d names k w)
  | [], _, _ => .isTrue trivial
  | _ :: rest, k, w =>
    have : ∀ (node : Word) (v : Vfs), Decidable (WalkCalm d rest { k with vfs := v } node) :=
      fun node v => decidableWalkCalm d rest { k with vfs := v } node
    inferInstanceAs (Decidable ((w ≠ 0 → _ = some 0 → Calm k w) ∧ IfOk _ _))

instance (d : Driver) (k : Kernel) (node : Word) (path : Text) :
    Decidable (SearchCalm d k node path) :=
  decidableWalkCalm d _ k node

instance (d : Driver) (k : Kernel) (p : Nat) (path : Text) : Decidable (LookupCalm d k p path) := by
  unfold LookupCalm
  infer_instance

instance (d : Driver) (k : Kernel) (p : Nat) (path : Text) (dir : Word) :
    Decidable (CreateCalm d k p path dir) :=
  inferInstanceAs (Decidable ((dir = 0 → _) ∧ IfOk _ _))

instance (d : Driver) (p : Nat) (path : Text) (flags : Word) (k : Kernel) :
    (target : Option (Word × Word)) → Decidable (TargetCalm d p path flags k target)
  | none => .isTrue fun _ ht => nomatch ht
  | some t => decidable_of_iff (if t.2 = 0 then flags &&& O_CREAT ≠ 0 → CreateCalm d k p path t.1
      else flags &&& (O_CREAT ||| O_EXCL) ≠ (O_CREAT ||| O_EXCL) → Openable k t.2)
      ⟨fun h _ ht => Option.some.inj ht ▸ h, fun h => h t rfl⟩

instance (k : Kernel) : DecidablePred (LookupsCalm k)
  | .search d _ path => inferInstanceAs (Decidable (SearchCalm d _ _ path))
  | .openFile d _ p path flags =>
    inferInstanceAs (Decidable (LookupCalm d _ p path ∧ IfOk _ fun _ _ => TargetCalm d p path flags _ _))
  | .dup2 _ _ _ => .isTrue trivial
  | .dupFd _ _ _ => .isTrue trivial
  | .fork _ => .isTrue trivial
  | .close _ _ => .isTrue trivial
  | .exit _ => .isTrue trivial

instance (k : Kernel) (c : Call) : Decidable (c.Admitted k) :=
  inferInstanceAs (Decidable (CountsFit k c ∧ LookupsCalm k c))

/-- A driver that knows every name and opens everything. -/
def anyName : Driver where
  search := fun node name => some ⟨7, name, node.acts⟩
  create := fun _ _ _ => none
  opening := fun node _ => (0, node.acts)

theorem bareRoot_linked : Linked bareRoot.vfs := by
  refine ⟨.head _, ?_, ?_, rfl, fun a ha har => ?_, fun _ _ h0 => absurd rfl h0,
    fun _ _ h0 => absurd rfl h0, fun _ _ _ _ h0 => absurd rfl h0⟩
  · decide
  · exact List.nodup_singleton _
  · exact absurd (List.mem_singleton.mp ha) har

/-- "/a" is opened twice and "/b" once; all are closed again, "/b" after a copy. -/
def twoNames : List Call :=
  [.openFile anyName [0x2000, 0x3000] 0 [slash, 0x61] 0,
    .openFile anyName [0x4000, 0x5000] 0 [slash, 0x62] 0,
    .openFile anyName [0x6000] 0 [slash, 0x61] 0,
    .dup2 0 1 3, .close 0 1, .close 0 3, .close 0 0]

theorem inode_outlives_users_twoNames :
    ∃ tr, run step bareRoot twoNames = some tr ∧
      (tr.map fun x => x.output.freed.length) = [0, 0, 0, 0, 0, 2, 1] ∧
      ∀ x ∈ tr, (∀ y ∈ x.output.freed, y.Sound) ∧
        ∀ p i, p < x.post.procs → x.post.fds p i ≠ 0 →
          (x.post.vfs.files (x.post.fds p i)).inode ∈ x.post.vfs.inodeBlocks := by
  exact run_test (fun tr => (∀ x ∈ tr, x.input.Admitted x.pre) ∧
    (tr.map fun x => x.output.freed.length) = [0, 0, 0, 0, 0, 2, 1]) (by decide +kernel)
    fun tr hr ht => ⟨ht.2, inode_outlives_users bareRoot_noneOpen bareRoot_linked hr ht.1⟩

/-- "/b" is opened twice, behind "/a" in the cache, and one of the two files is closed. -/
def sharedName : List Call :=
  [.openFile anyName [0x2000, 0x3000] 0 [slash, 0x61] 0,
    .openFile anyName [0x4000, 0x5000] 0 [slash, 0x62] 0,
    .openFile anyName [0x6000] 0 [slash, 0x62] 0,
    .close 0 1]

/-- vfs_close frees the inode at 0x4000 while the file in slot 2 still points to it. -/
theorem shared_inode_freed :
    ∃ tr, run step bareRoot sharedName = some tr ∧
      ∃ x ∈ tr, ∃ d after, Freed.inode d after ∈ x.output.freed ∧ d.inode = 0x4000 ∧
        (after.vfs.files (after.fds 0 2)).inode = d.inode ∧ after.fds 0 2 ≠ 0 ∧
        x.post.fds 0 2 = after.fds 0 2 := by
  obtain ⟨tr, hr, x, hx, y, hy, hd⟩ : ∃ tr ∈ run step bareRoot sharedName, ∃ x ∈ tr,
      ∃ y ∈ x.output.freed, (match y with
        | .inode d after => decide (d.inode = 0x4000 ∧
            (after.vfs.files (after.fds 0 2)).inode = d.inode ∧ after.fds 0 2 ≠ 0 ∧
            x.post.fds 0 2 = after.fds 0 2)
        | .file _ _ => false) = true := by decide
  cases y with
  | inode d after => exact ⟨tr, hr, x, hx, d, after, hy, of_decide_eq_true hd⟩
  | file f after => cases hd

end TapiOS.Task
