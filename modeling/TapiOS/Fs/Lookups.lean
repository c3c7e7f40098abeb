import TapiOS.Fs.Vfs

/-!
# What lookups and closes do to files and blocks

Searching and creating inodes leaves every struct file alone and takes new blocks for
inodes only. Closing a file changes that file only, and frees at most its inode.
-/
namespace TapiOS.Fs

open Lib Util Vfs

variable {info : NodeInfo} {name path : Text} {names : List Text} {flags : Word}

/-- The step leaves files alone and frees no inode; new inode blocks are no file blocks. -/
structure Quiet (v v' : Vfs) : Prop where
  files : v'.files = v.files
  fileBlocks : v'.fileBlocks = v.fileBlocks
  rootFs : v'.rootFs = v.rootFs
  inodeBlocks : ∀ a ∈ v'.inodeBlocks, a ∈ v.inodeBlocks ∨ a ∉ v.fileBlocks
  kept : ∀ a ∈ v.inodeBlocks, a ∈ v'.inodeBlocks

section Quiet
variable {v v' v'' : Vfs} {d : Driver} {a wnode node : Word}

theorem Quiet.refl (v : Vfs) : Quiet v v := ⟨rfl, rfl, rfl, fun _ => .inl, fun _ => id⟩

theorem Quiet.trans (h1 : Quiet v v') (h2 : Quiet v' v'') : Quiet v v'' := by
  refine ⟨h2.files.trans h1.files, h2.fileBlocks.trans h1.fileBlocks, h2.rootFs.trans h1.rootFs,
    fun a ha => ?_, fun a ha => h2.kept a (h1.kept a ha)⟩
  rcases h2.inodeBlocks a ha with h | h
  · exact h1.inodeBlocks a h
  · exact .inr (h1.fileBlocks ▸ h)

theorem setInode_quiet (v : Vfs) (a : Word) (f : Inode → Inode) : Quiet v (v.setInode a f) :=
  ⟨rfl, rfl, rfl, fun _ => .inl, fun _ => id⟩

theorem kmalloc_ok (h : v.kmalloc = .ok (a, v')) :
    a ≠ 0 ∧ a ∉ v.inodeBlocks ∧ a ∉ v.fileBlocks ∧ v' = { v with supply := v'.supply } := by
  unfold Vfs.kmalloc at h
  split at h
  · cases h
  · split_ifs at h with hbad
    cases h
    rw [not_or, not_or] at hbad
    exact ⟨hbad.1, hbad.2.1, hbad.2.2, rfl⟩

theorem newInode_ok (h : newInode v info = .ok (a, v')) :
    a ≠ 0 ∧ a ∉ v.inodeBlocks ∧ a ∉ v.fileBlocks ∧ ∃ supply, v' =
      { v.setInode a (fun _ => ⟨info.inodeNo, info.name, info.acts, 0, 0, 0⟩) with
        inodeBlocks := a :: v.inodeBlocks, supply := supply } := by
  unfold newInode at h
  split at h
  · cases h
  · rename_i b w hk
    obtain ⟨h0, hi, hf, hw⟩ := kmalloc_ok hk
    cases h
    refine ⟨h0, hi, hf, w.supply, ?_⟩
    rw [hw]
    rfl

theorem newInode_quiet (h : newInode v info = .ok (a, v')) : Quiet v v' := by
  obtain ⟨-, -, hf, supply, rfl⟩ := newInode_ok h
  refine ⟨rfl, rfl, rfl, fun b hb => ?_, fun b hb => .tail _ hb⟩
  rcases List.mem_cons.mp hb with rfl | hb
  · exact .inr hf
  · exact .inl hb

theorem linkChild_ok (h : linkChild v wnode node = .ok v') :
    ((v.inodes wnode).children = 0 ∧
      v' = v.setInode wnode (fun i => { i with children := node })) ∨
    ∃ last, (v.inodes wnode).children ≠ 0 ∧
      v.findChild (v.inodes wnode).children (fun a => decide ((v.inodes a).siblings = 0)) =
        some last ∧
      v' = v.setInode last (fun i => { i with siblings := node }) := by
  unfold linkChild at h
  split_ifs at h with h0
  · exact .inl ⟨h0, (Except.ok.inj h).symm⟩
  · split at h
    · cases h
    · rename_i last hl
      exact .inr ⟨last, h0, hl, (Except.ok.inj h).symm⟩

theorem linkChild_quiet (h : linkChild v wnode node = .ok v') : Quiet v v' := by
  rcases linkChild_ok h with ⟨-, rfl⟩ | ⟨last, -, -, rfl⟩ <;> exact setInode_quiet _ _ _

/-- The outcomes of searchfunc: nothing, a cached node, or a new one from the driver. -/
theorem searchfunc_ok (h : searchfunc d v wnode name = .ok (node, v')) : (node = 0 ∧ v' = v) ∨
    (node ≠ 0 ∧ wnode ≠ 0 ∧ v' = v ∧ v.findChild (v.inodes wnode).children
      (fun a => decide ((v.inodes a).name = name)) = some node) ∨
    ∃ info v1 v2, wnode ≠ 0 ∧ v.findChild (v.inodes wnode).children
      (fun a => decide ((v.inodes a).name = name)) = some 0 ∧ newInode v info = .ok (node, v1) ∧
      linkChild v1 wnode node = .ok v2 ∧
      v' = v2.setInode node (fun i => { i with parent := wnode }) := by
  unfold searchfunc at h
  by_cases hw : wnode = 0
  · rw [if_pos hw] at h
    cases h
    exact .inl ⟨rfl, rfl⟩
  rw [if_neg hw] at h
  split at h
  · cases h
  rename_i i hi
  by_cases hi0 : i ≠ 0
  · rw [if_pos hi0] at h
    cases h
    exact .inr (.inl ⟨hi0, hw, rfl, hi⟩)
  rw [if_neg hi0] at h
  split at h
  · cases h
    exact .inl ⟨rfl, rfl⟩
  split at h
  · cases h
    exact .inl ⟨rfl, rfl⟩
  rename_i info hinfo
  split at h
  · cases h
  rename_i n v1 hn
  split at h
  · cases h
  rename_i v2 hl
  cases h
  exact .inr (.inr ⟨info, v1, v2, hw, not_not.mp hi0 ▸ hi, hn, hl, rfl⟩)

theorem searchfunc_quiet (h : searchfunc d v wnode name = .ok (node, v')) : Quiet v v' := by
  rcases searchfunc_ok h with ⟨-, rfl⟩ | ⟨-, -, rfl, -⟩ | ⟨info, v1, v2, -, -, hn, hl, rfl⟩
  · exact .refl _
  · exact .refl _
  · exact ((newInode_quiet hn).trans (linkChild_quiet hl)).trans (setInode_quiet _ _ _)

theorem walk_quiet (h : walk d v wnode names = .ok (node, v')) : Quiet v v' := by
  induction names generalizing v wnode with
  | nil =>
    cases h
    exact .refl _
  | cons name rest ih =>
    simp only [walk] at h
    split at h
    · cases h
    · rename_i n w hs
      exact (searchfunc_quiet hs).trans (ih h)

theorem vfsSearch_ok (h : vfsSearch d v wnode path = .ok (node, v')) :
    (v' = v ∧ (node = 0 ∨ node = v.rootFs)) ∨
      walk d v wnode (components (tokname d.stack path)) = .ok (node, v') := by
  unfold vfsSearch at h
  split_ifs at h
  · unfold walkPath at h
    split_ifs at h
    · cases h
      exact .inl ⟨rfl, .inr rfl⟩
    · split at h
      · cases h
        exact .inl ⟨rfl, .inl rfl⟩
      · exact .inr h
  · cases h
    exact .inl ⟨rfl, .inl rfl⟩

theorem vfsSearch_quiet (h : vfsSearch d v wnode path = .ok (node, v')) : Quiet v v' := by
  rcases vfsSearch_ok h with ⟨rfl, -⟩ | h
  · exact .refl _
  · exact walk_quiet h

theorem vfsNewInode_ok (h : vfsNewInode d v wnode path flags = .ok (node, v')) :
    (node = 0 ∧ v' = v) ∨ ∃ info v1, newInode v info = .ok (node, v1) ∧
      linkChild (v1.setInode node (fun i => { i with parent := wnode })) wnode node = .ok v' := by
  unfold vfsNewInode at h
  split_ifs at h
  · split at h
    · cases h
    rename_i info hinfo
    split at h
    · cases h
    rename_i n v1 hn
    dsimp only at h
    split at h
    · cases h
    rename_i v2 hl
    cases h
    exact .inr ⟨info, v1, hn, hl⟩
  · cases h
    exact .inl ⟨rfl, rfl⟩

theorem vfsNewInode_quiet (h : vfsNewInode d v wnode path flags = .ok (node, v')) : Quiet v v' := by
  rcases vfsNewInode_ok h with ⟨-, rfl⟩ | ⟨info, v1, hn, hl⟩
  · exact .refl _
  · exact ((newInode_quiet hn).trans (setInode_quiet _ _ _)).trans (linkChild_quiet hl)

end Quiet
/-- vfs_open took the block `g` for a file of `node`; it is in use afterwards unless the
driver refused. The driver may change the tables of inodes only. -/
structure Opened (v : Vfs) (node g : Word) (v' : Vfs) : Prop where
  ne_zero : g ≠ 0
  newInode : g ∉ v.inodeBlocks
  newFile : g ∉ v.fileBlocks
  file : v'.files g = ⟨1, node, 0⟩
  others : ∀ f, f ≠ g → v'.files f = v.files f
  fileBlocks : v'.fileBlocks = v.fileBlocks ∨ v'.fileBlocks = g :: v.fileBlocks
  inodes : ∀ a, v'.inodes a = { v.inodes a with acts := (v'.inodes a).acts }
  inodeBlocks : v'.inodeBlocks = v.inodeBlocks
  rootFs : v'.rootFs = v.rootFs

/-- A new struct file at `g`; the other files and the blocks of the inodes are as before. -/
structure NewFile (v : Vfs) (g : Word) (v' : Vfs) : Prop where
  ne_zero : g ≠ 0
  newInode : g ∉ v.inodeBlocks
  newFile : g ∉ v.fileBlocks
  others : ∀ f, f ≠ g → v'.files f = v.files f
  fileBlocks : v'.fileBlocks = v.fileBlocks ∨ v'.fileBlocks = g :: v.fileBlocks
  inodeBlocks : v'.inodeBlocks = v.inodeBlocks
  rootFs : v'.rootFs = v.rootFs

theorem Opened.newStruct {v v' : Vfs} {node g : Word} (h : Opened v node g v') : NewFile v g v' :=
  ⟨h.ne_zero, h.newInode, h.newFile, h.others, h.fileBlocks, h.inodeBlocks, h.rootFs⟩

theorem vfsOpen_ok {v v' : Vfs} {d : Driver} {node f : Word} {status : Int}
    (h : vfsOpen d v node flags = .ok ((f, status), v')) :
    ∃ g, Opened v node g v' ∧ (f = 0 ∨ f = g ∧ v'.fileBlocks = g :: v.fileBlocks) := by
  unfold vfsOpen at h
  split at h
  · cases h
  rename_i g w hk
  obtain ⟨h0, hi, hf, hw⟩ := kmalloc_ok hk
  rw [hw] at h
  dsimp only at h
  split_ifs at h
  all_goals
    cases h
    refine ⟨_, ⟨h0, hi, hf, by simp [setFile, setInode],
      fun x hx => by simp [setFile, setInode, hx], ?_, fun a => ?_, rfl, rfl⟩, ?_⟩
  · exact .inl rfl
  · by_cases ha : a = node <;> simp [setInode, setFile, ha]
  · exact .inl rfl
  · exact .inr rfl
  · by_cases ha : a = node <;> simp [setInode, setFile, ha]
  · exact .inr ⟨rfl, rfl⟩
  · exact .inl rfl
  · rfl
  · exact .inl rfl

/-! No lookup reaches the refcount PANIC. -/

section Stops
variable {v : Vfs} {d : Driver} {wnode node : Word} {e : Stop}

theorem kmalloc_error (h : v.kmalloc = .error e) : e = .noMemory := by
  unfold Vfs.kmalloc at h
  split at h
  · exact (Except.error.inj h).symm
  · split_ifs at h
    exact (Except.error.inj h).symm

theorem newInode_error (h : newInode v info = .error e) : e = .noMemory := by
  unfold newInode at h
  split at h
  · rename_i hk
    cases h
    exact kmalloc_error hk
  · cases h

theorem linkChild_error (h : linkChild v wnode node = .error e) : e = .endless := by
  unfold linkChild at h
  split_ifs at h
  split at h
  · exact (Except.error.inj h).symm
  · cases h

theorem searchfunc_error (h : searchfunc d v wnode name = .error e) :
    e = .noMemory ∨ e = .endless := by
  unfold searchfunc at h
  split at h
  · cases h
  split at h
  · exact .inr (Except.error.inj h).symm
  split at h
  · cases h
  split at h
  · cases h
  split at h
  · cases h
  split at h
  · rename_i hn
    cases h
    exact .inl (newInode_error hn)
  split at h
  · rename_i hl
    cases h
    exact .inr (linkChild_error hl)
  · cases h

theorem walk_error (h : walk d v wnode names = .error e) : e = .noMemory ∨ e = .endless := by
  induction names generalizing v wnode with
  | nil => cases h
  | cons name rest ih =>
    simp only [walk] at h
    split at h
    · rename_i hs
      cases h
      exact searchfunc_error hs
    · exact ih h

theorem vfsSearch_error (h : vfsSearch d v wnode path = .error e) : e ≠ .refcountZero := by
  unfold vfsSearch walkPath at h
  split_ifs at h
  · cases h
    exact fun hc => nomatch hc
  · split at h
    · cases h
    · rcases walk_error h with rfl | rfl <;> exact fun hc => nomatch hc

theorem vfsNewInode_error (h : vfsNewInode d v wnode path flags = .error e) :
    e ≠ .refcountZero := by
  unfold vfsNewInode at h
  split at h
  · cases h
    exact fun hc => nomatch hc
  split at h
  · split at h
    · cases h
      exact fun hc => nomatch hc
    split at h
    · rename_i hn
      cases h
      exact newInode_error hn ▸ fun hc => nomatch hc
    dsimp only at h
    split at h
    · rename_i hl
      cases h
      exact linkChild_error hl ▸ fun hc => nomatch hc
    · cases h
  · cases h

end Stops

section Close
variable {v v' : Vfs} {f a : Word} {r : Option Detached}

theorem kfree_ok (h : v.kfree a = .ok v') :
    (a ∈ v.inodeBlocks ∧ v' = { v with inodeBlocks := v.inodeBlocks.erase a }) ∨
    (a ∉ v.inodeBlocks ∧ a ∈ v.fileBlocks ∧
      v' = { v with fileBlocks := v.fileBlocks.erase a }) := by
  unfold Vfs.kfree at h
  split_ifs at h with hi hf
  · cases h
    exact .inl ⟨hi, rfl⟩
  · cases h
    exact .inr ⟨hi, hf, rfl⟩

variable {e : Stop}

theorem kfree_error (h : v.kfree a = .error e) : e = .doubleFree := by
  unfold Vfs.kfree at h
  split_ifs at h
  exact (Except.error.inj h).symm

theorem detach_ok (h : detach v f = .ok (r, v')) :
    ∃ d v1, r = some d ∧ d.inode = (v.files f).inode ∧ v.kfree d.inode = .ok v1 ∧
      v' = v1.setFile f (fun x => { x with inode := 0 }) := by
  unfold detach at h
  dsimp only at h
  split at h
  · cases h
  · rename_i v1 hk
    cases h
    exact ⟨_, v1, rfl, rfl, hk, rfl⟩

theorem detach_error (h : detach v f = .error e) : e = .doubleFree := by
  unfold detach at h
  dsimp only at h
  split at h
  · rename_i e' hk
    exact (Except.error.inj h) ▸ kfree_error hk
  · cases h

/-- `--f->refcount` -/
def countDown (v : Vfs) (f : Word) : Vfs :=
  v.setFile f (fun x => { x with refcount := x.refcount - 1 })

/-- The ways through vfs_close. -/
inductive Closes (v : Vfs) (f : Word) : Option Detached → Vfs → Prop where
  | missing (hi : (v.files f).inode = 0) : Closes v f none v
  | root (hc : (v.files f).refcount ≠ 0) (hr : (v.files f).inode = v.rootFs) :
      Closes v f none v
  | kept (hc : (v.files f).refcount ≠ 0) : Closes v f none (countDown v f)
  | orphan {r : Option Detached} {v' : Vfs} (hc : (v.files f).refcount ≠ 0)
      (hi : (v.files f).inode ≠ 0) (hr : (v.files f).inode ≠ v.rootFs)
      (hp : (v.inodes (v.files f).inode).parent = 0)
      (hd : detach (countDown v f) f = .ok (r, v')) : Closes v f r v'
  | unlinked {r : Option Detached} {v' : Vfs} (i : Word) (hc : (v.files f).refcount ≠ 0)
      (hi : (v.files f).inode ≠ 0) (hr : (v.files f).inode ≠ v.rootFs)
      (hl : (v.files f).refcount - 1 = 0)
      (hf : v.findChild (v.inodes (v.inodes (v.files f).inode).parent).children
        (fun a => decide ((v.inodes a).siblings = (v.files f).inode)) = some i) (hi0 : i ≠ 0)
      (hd : detach ((countDown v f).setInode i
        (fun x => { x with siblings := (v.inodes (v.files f).inode).siblings })) f =
          .ok (r, v')) : Closes v f r v'

theorem vfsClose_ok (h : vfsClose v f = .ok (r, v')) : Closes v f r v' := by
  unfold vfsClose at h
  by_cases hi : (v.files f).inode = 0
  · rw [if_pos hi] at h
    cases h
    exact .missing hi
  rw [if_neg hi] at h
  by_cases hc : (v.files f).refcount = 0
  · rw [if_pos hc] at h
    cases h
  rw [if_neg hc] at h
  by_cases hr : (v.files f).inode = v.rootFs
  · rw [if_pos hr] at h
    cases h
    exact .root hc hr
  rw [if_neg hr] at h
  by_cases hp : (v.inodes (v.files f).inode).parent = 0
  · rw [if_pos hp] at h
    exact .orphan hc hi hr hp h
  rw [if_neg hp] at h
  split_ifs at h with hl
  · split at h
    · cases h
    rename_i i hf
    split_ifs at h with hi0
    · cases h
      exact .kept hc
    · refine .unlinked i hc hi hr ?_ hf hi0 h
      simpa [setFile] using hl
  · cases h
    exact .kept hc

theorem vfsClose_error (h : vfsClose v f = .error e) :
    e = .refcountZero ∧ (v.files f).refcount = 0 ∨ e = .endless ∨ e = .doubleFree := by
  unfold vfsClose at h
  by_cases hi : (v.files f).inode = 0
  · rw [if_pos hi] at h
    cases h
  rw [if_neg hi] at h
  by_cases hc : (v.files f).refcount = 0
  · rw [if_pos hc] at h
    cases h
    exact .inl ⟨rfl, hc⟩
  rw [if_neg hc] at h
  by_cases hr : (v.files f).inode = v.rootFs
  · rw [if_pos hr] at h
    cases h
  rw [if_neg hr] at h
  by_cases hp : (v.inodes (v.files f).inode).parent = 0
  · rw [if_pos hp] at h
    exact .inr (.inr (detach_error h))
  rw [if_neg hp] at h
  split_ifs at h with hl
  split at h
  · cases h
    exact .inr (.inl rfl)
  · split_ifs at h
    exact .inr (.inr (detach_error h))

theorem vfsClose_refcountZero (h : vfsClose v f = .error .refcountZero) :
    (v.files f).refcount = 0 := by
  obtain ⟨-, hc⟩ | hn | hn := vfsClose_error h
  · exact hc
  · cases hn
  · cases hn

/-- What vfs_close may do to files and blocks. -/
structure Closed (v : Vfs) (f : Word) (v' : Vfs) : Prop where
  others : ∀ g, g ≠ f → v'.files g = v.files g
  le : (v'.files f).refcount.toNat ≤ (v.files f).refcount.toNat
  down : (v.files f).refcount.toNat ≤ (v'.files f).refcount.toNat + 1
  inode : (v'.files f).inode = (v.files f).inode ∨ (v'.files f).inode = 0
  fileBlocks : v'.fileBlocks = v.fileBlocks ∨
    ((v.files f).inode ≠ 0 ∧ v'.fileBlocks = v.fileBlocks.erase (v.files f).inode)
  inodeBlocks : ∀ a ∈ v'.inodeBlocks, a ∈ v.inodeBlocks

theorem Closed.counts_le (h : Closed v f v') (g : Word) :
    (v'.files g).refcount.toNat ≤ (v.files g).refcount.toNat := by
  by_cases hg : g = f
  · exact hg ▸ h.le
  · rw [h.others g hg]

theorem Closed.refl (v : Vfs) (f : Word) : Closed v f v :=
  ⟨fun _ _ => rfl, le_refl _, Nat.le_succ _, .inl rfl, .inl rfl, fun _ => id⟩

theorem countDown_toNat (hc : (v.files f).refcount ≠ 0) :
    ((countDown v f).files f).refcount.toNat + 1 = (v.files f).refcount.toNat := by
  have hne : (v.files f).refcount.toNat ≠ 0 := fun h => hc (BitVec.eq_of_toNat_eq h)
  simp only [countDown, setFile, if_true, BitVec.toNat_sub]
  change (2 ^ 32 - 1 + _) % 2 ^ 32 + 1 = _
  omega

theorem Closed.countDown (hc : (v.files f).refcount ≠ 0) : Closed v f (countDown v f) := by
  have h := countDown_toNat hc
  refine ⟨fun g hg => by simp [Fs.countDown, setFile, hg], by omega, by omega, .inl ?_, .inl rfl,
    fun _ => id⟩
  simp [Fs.countDown, setFile]

/-- Relinking inodes and detaching keeps what the count did. -/
theorem Closed.detach {w : Vfs} {r : Option Detached} (h : Closed v f w)
    (hf : w.fileBlocks = v.fileBlocks) (hi : (w.files f).inode = (v.files f).inode)
    (h0 : (v.files f).inode ≠ 0) (hd : detach w f = .ok (r, v')) : Closed v f v' := by
  obtain ⟨d, w1, -, hdi, hk, rfl⟩ := detach_ok hd
  have hfiles : w1.files = w.files := by
    rcases kfree_ok hk with ⟨-, rfl⟩ | ⟨-, -, rfl⟩ <;> rfl
  refine ⟨fun g hg => ?_, ?_, ?_, .inr ?_, ?_, ?_⟩
  · simp only [setFile, if_neg hg, hfiles, h.others g hg]
  · simpa [setFile, hfiles] using h.le
  · simpa [setFile, hfiles] using h.down
  · simp [setFile]
  · rcases kfree_ok hk with ⟨-, rfl⟩ | ⟨-, -, rfl⟩
    · exact .inl hf
    · exact .inr ⟨h0, by simp only [setFile, hf, hdi, hi]⟩
  · intro a ha
    rcases kfree_ok hk with ⟨-, rfl⟩ | ⟨-, -, rfl⟩
    · exact h.inodeBlocks a (List.mem_of_mem_erase ha)
    · exact h.inodeBlocks a ha

theorem Closes.closed {r : Option Detached} (h : Closes v f r v') : Closed v f v' := by
  cases h with
  | missing hi => exact .refl v f
  | root hc hr => exact .refl v f
  | kept hc => exact .countDown hc
  | orphan hc hi hr hp hd =>
    exact (Closed.countDown hc).detach rfl (by simp [countDown, setFile]) hi hd
  | unlinked i hc hi hr hl hf hi0 hd =>
    have hw : Closed v f ((countDown v f).setInode i
        (fun x => { x with siblings := (v.inodes (v.files f).inode).siblings })) := by
      obtain ⟨h1, h2, h3, h4, h5, h6⟩ := Closed.countDown hc
      exact ⟨h1, h2, h3, h4, h5, h6⟩
    exact hw.detach rfl (by simp [countDown, setFile, setInode]) hi hd

theorem detach_files {r : Option Detached} (hd : detach v f = .ok (r, v')) :
    (v'.files f).refcount = (v.files f).refcount ∧ v'.rootFs = v.rootFs := by
  obtain ⟨d, w, -, -, hk, rfl⟩ := detach_ok hd
  obtain ⟨-, rfl⟩ | ⟨-, -, rfl⟩ := kfree_ok hk
  · exact ⟨by simp [setFile], rfl⟩
  · exact ⟨by simp [setFile], rfl⟩

theorem Closes.rootFs {r : Option Detached} (h : Closes v f r v') : v'.rootFs = v.rootFs := by
  cases h with
  | missing hi => rfl
  | root hc hr => rfl
  | kept hc => rfl
  | orphan hc hi hr hp hd => exact (detach_files hd).2
  | unlinked i hc hi hr hl hf hi0 hd => exact (detach_files hd).2

theorem Closes.refcount {r : Option Detached} (h : Closes v f r v') (hi : (v.files f).inode ≠ 0)
    (hr : (v.files f).inode ≠ v.rootFs) :
    (v'.files f).refcount.toNat + 1 = (v.files f).refcount.toNat := by
  cases h with
  | missing hi' => exact absurd hi' hi
  | root hc hr' => exact absurd hr' hr
  | kept hc => exact countDown_toNat hc
  | orphan hc hi hr hp hd => rw [(detach_files hd).1, countDown_toNat hc]
  | unlinked i hc hi hr hl hf hi0 hd =>
    rw [(detach_files hd).1]
    exact countDown_toNat hc

theorem Closes.keeps (h : Closes v f r v') (ha : a ∈ v.inodeBlocks)
    (hne : a ≠ (v.files f).inode) : a ∈ v'.inodeBlocks := by
  have hdetach : ∀ w : Vfs, detach w f = .ok (r, v') → w.inodeBlocks = v.inodeBlocks →
      (w.files f).inode = (v.files f).inode → a ∈ v'.inodeBlocks := by
    intro w hd hb hi
    obtain ⟨d, w1, -, hdi, hk, rfl⟩ := detach_ok hd
    rcases kfree_ok hk with ⟨-, rfl⟩ | ⟨-, -, rfl⟩
    · rw [hdi, hi, hb]
      exact (List.mem_erase_of_ne hne).mpr ha
    · rw [hb]
      exact ha
  cases h with
  | missing hi => exact ha
  | root hc hr => exact ha
  | kept hc => exact ha
  | orphan hc hi hr hp hd => exact hdetach _ hd rfl (by simp [countDown, setFile])
  | unlinked i hc hi hr hl hf hi0 hd =>
    exact hdetach _ hd rfl (by simp [countDown, setFile, setInode])

theorem Closes.detached {d : Detached} (h : Closes v f (some d) v') :
    d.inode = (v.files f).inode ∧ d.inode ≠ 0 := by
  cases h with
  | orphan hc hi hr hp hd =>
    obtain ⟨d', w1, hr', hdi, -, -⟩ := detach_ok hd
    cases hr'
    have he : d.inode = (v.files f).inode := by rw [hdi]; simp [countDown, setFile]
    exact ⟨he, he ▸ hi⟩
  | unlinked i hc hi hr hl hf hi0 hd =>
    obtain ⟨d', w1, hr', hdi, -, -⟩ := detach_ok hd
    cases hr'
    have he : d.inode = (v.files f).inode := by rw [hdi]; simp [countDown, setFile, setInode]
    exact ⟨he, he ▸ hi⟩

end Close
end TapiOS.Fs
