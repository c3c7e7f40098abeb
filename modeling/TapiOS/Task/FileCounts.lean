import TapiOS.Task.Slots

/-!
# Reference counts of struct file

The count of a file is at least the number of slots that hold it, as long as no count
wraps and no freed inode block comes back as a file. Between two calls the memory of the
inodes may take any contents.
-/
namespace TapiOS.Task

open Lib Util Fs Kernel

/-- Slots hold allocated files, each at most as often as its count says. -/
structure Counted (k : Kernel) : Prop where
  counts : ∀ f, f ≠ 0 → (k.holders f).card ≤ (k.vfs.files f).refcount.toNat
  blocks : ∀ f, f ≠ 0 → (k.holders f).Nonempty → f ∈ k.vfs.fileBlocks
  nodup : k.vfs.fileBlocks.Nodup
  apart : ∀ a ∈ k.vfs.inodeBlocks, a ∉ k.vfs.fileBlocks

/-- No slot holds the block that was freed. -/
def Freed.Unheld : Freed → Prop
  | .inode d after => after.holders d.inode = ∅
  | .file f after => after.holders f = ∅

/-- The inode pointer of the file is not the address of a file in some slot. -/
def NotAFile (k : Kernel) (f : Word) : Prop :=
  f ≠ 0 → (k.vfs.files f).inode ≠ 0 → k.holders (k.vfs.files f).inode = ∅

/-- `n` more references fit the count. -/
def Room (k : Kernel) (f : Word) (n : Nat) : Prop :=
  f ≠ 0 → (k.vfs.files f).refcount.toNat + n < 2 ^ 32

section Moves
variable {k k' : Kernel} {p : Nat} {i : Fd} {f : Word} {v : Vfs}

variable (h : Counted k)
include h

theorem Counted.quiet (hq : Quiet k.vfs v) : Counted { k with vfs := v } := by
  refine ⟨fun f hf => ?_, fun f hf hh => ?_, ?_, fun a ha => ?_⟩
  · exact hq.files ▸ h.counts f hf
  · exact hq.fileBlocks ▸ h.blocks f hf hh
  · exact hq.fileBlocks ▸ h.nodup
  · rw [hq.fileBlocks]
    rcases hq.inodeBlocks a ha with hi | hi
    · exact h.apart a hi
    · exact hi

omit h in
theorem closeFile_ok {freed : List Freed} (h : closeFile k f = .ok (freed, k')) :
    ∃ r, Closes k.vfs f r k'.vfs ∧ k' = { k with vfs := k'.vfs } ∧
      freed = (r.map (fun x => Freed.inode x k')).toList := by
  unfold closeFile at h
  split at h
  · cases h
  · rename_i r v hv
    cases h
    exact ⟨r, vfsClose_ok hv, rfl, rfl⟩

omit h in
theorem closeFile_error {e : Stop} (h : closeFile k f = .error e) :
    vfsClose k.vfs f = .error e := by
  unfold closeFile at h
  split at h
  · rename_i e' he
    cases h
    exact he
  · cases h

/-- A slot that holds a file has a count that is not zero. -/
theorem Counted.refcount_ne (hp : p < k.procs) (h0 : k.fds p i ≠ 0) :
    (k.vfs.files (k.fds p i)).refcount ≠ 0 := by
  intro hz
  have hle := h.counts _ h0
  have hpos := Finset.card_pos.mpr (holders_nonempty (i := i) hp rfl)
  rw [hz] at hle
  simp at hle
  rw [hle] at hpos
  simp at hpos

theorem Counted.closed (hp : p < k.procs) (h0 : k.fds p i ≠ 0) (hn : NotAFile k (k.fds p i))
    (hc : Closed k.vfs (k.fds p i) v) : Counted (Kernel.setFd { k with vfs := v } p i 0) := by
  have hsub : ∀ g, g ≠ 0 → (Kernel.setFd { k with vfs := v } p i 0).holders g ⊆ k.holders g :=
    fun g hg => holders_setFd_subset (k := { k with vfs := v }) hg.symm
  refine ⟨fun g hg => ?_, fun g hg hh => ?_, ?_, fun a ha => ?_⟩
  · by_cases hgf : g = k.fds p i
    · have hcard := holders_card_drop hp (rfl : k.fds p i = _) h0
      have hle := h.counts _ h0
      have hdown := hc.down
      rw [hgf, holders_setFd_vfs]
      change _ ≤ (v.files (k.fds p i)).refcount.toNat
      omega
    · change _ ≤ (v.files g).refcount.toNat
      rw [hc.others g hgf]
      exact (Finset.card_le_card (hsub g hg)).trans (h.counts g hg)
  · have hheld : (k.holders g).Nonempty := hh.mono (hsub g hg)
    have hmem := h.blocks g hg hheld
    change g ∈ v.fileBlocks
    rcases hc.fileBlocks with he | ⟨hi0, he⟩
    · rwa [he]
    · rw [he, List.mem_erase_of_ne]
      · exact hmem
      · intro hgi
        rw [hgi, hn h0 hi0] at hheld
        exact Finset.not_nonempty_empty hheld
  · rcases hc.fileBlocks with he | ⟨-, he⟩
    · exact he ▸ h.nodup
    · exact he ▸ h.nodup.erase _
  · change a ∉ v.fileBlocks
    have ha' := h.apart a (hc.inodeBlocks a ha)
    rcases hc.fileBlocks with he | ⟨-, he⟩
    · rwa [he]
    · rw [he]
      exact fun hm => ha' (List.mem_of_mem_erase hm)

theorem Counted.kfree (hf : k.holders f = ∅) (hk : k.vfs.kfree f = .ok v) :
    Counted { k with vfs := v } := by
  rcases kfree_ok hk with ⟨-, rfl⟩ | ⟨-, -, rfl⟩
  · exact ⟨h.counts, h.blocks, h.nodup, fun a ha => h.apart a (List.mem_of_mem_erase ha)⟩
  · refine ⟨h.counts, fun g hg hh => ?_, h.nodup.erase _, fun a ha hm =>
      h.apart a ha (List.mem_of_mem_erase hm)⟩
    rw [List.mem_erase_of_ne]
    · exact h.blocks g hg hh
    · intro hgf
      change (k.holders g).Nonempty at hh
      rw [hgf, hf] at hh
      exact Finset.not_nonempty_empty hh

theorem Counted.holders_eq_empty (hf : f ≠ 0) (hc : (k.vfs.files f).refcount = 0) :
    k.holders f = ∅ := by
  have hle := h.counts f hf
  rw [hc] at hle
  exact Finset.card_eq_zero.mp (Nat.le_zero.mp hle)

theorem Counted.hold (hp : p < k.procs) (hf : f ∈ k.vfs.fileBlocks)
    (hc : (k.holders f).card + 1 ≤ (k.vfs.files f).refcount.toNat) : Counted (k.setFd p i f) := by
  refine ⟨fun g hg => ?_, fun g hg hh => ?_, h.nodup, h.apart⟩
  · by_cases hfg : f = g
    · subst hfg
      rw [holders_setFd_of_eq hp]
      exact (Finset.card_insert_le _ _).trans hc
    · exact (Finset.card_le_card (holders_setFd_subset hfg)).trans (h.counts g hg)
  · by_cases hfg : f = g
    · exact hfg ▸ hf
    · exact h.blocks g hg (hh.mono (holders_setFd_subset hfg))

theorem Counted.share (hp : p < k.procs) (h0 : f ≠ 0) (hf : f ∈ k.vfs.fileBlocks)
    (hr : Room k f 1) : Counted (shareFile k p i f) := by
  have hsucc := refcount_succ (hr h0)
  have hbump : ∀ g, (k.vfs.files g).refcount.toNat ≤
      ((k.vfs.setFile f (fun x => { x with refcount := x.refcount + 1 })).files g).refcount.toNat := by
    intro g
    by_cases hg : g = f
    · simp only [Vfs.setFile, hg, if_true, hsucc]
      omega
    · simp [Vfs.setFile, hg]
  rw [shareFile_eq]
  refine Counted.hold ⟨fun g hg => (h.counts g hg).trans (hbump g), h.blocks, h.nodup, h.apart⟩
    hp hf ?_
  simp only [Vfs.setFile, if_true, hsucc]
  exact Nat.add_le_add_right (h.counts f h0) 1

theorem Counted.unheld {g : Word} (ha : NewFile k.vfs g v) : k.holders g = ∅ := by
  by_contra hne
  exact ha.newFile (h.blocks g ha.ne_zero (Finset.nonempty_iff_ne_empty.mpr hne))

theorem Counted.added {g : Word} (ha : NewFile k.vfs g v) : Counted { k with vfs := v } := by
  refine ⟨fun f hf => ?_, fun f hf hh => ?_, ?_, fun a hm => ?_⟩
  · by_cases hfg : f = g
    · change (k.holders f).card ≤ _
      simp [hfg, h.unheld ha]
    · rw [ha.others f hfg]
      exact h.counts f hf
  · have hm := h.blocks f hf hh
    rcases ha.fileBlocks with he | he
    · exact he ▸ hm
    · exact he ▸ List.mem_cons_of_mem _ hm
  · rcases ha.fileBlocks with he | he
    · exact he ▸ h.nodup
    · exact he ▸ List.nodup_cons.mpr ⟨ha.newFile, h.nodup⟩
  · rw [ha.inodeBlocks] at hm
    rcases ha.fileBlocks with he | he
    · exact he ▸ h.apart a hm
    · rw [he, List.mem_cons, not_or]
      exact ⟨fun hag => ha.newInode (hag ▸ hm), h.apart a hm⟩

end Moves

section Calls
variable {k : Kernel} {p : Nat} {i : Fd} {d : Driver} {path : Text} {flags : Word}

variable (d path) in
theorem vfsSearch_looks (v : Vfs) (node : Word) :
    Looks (fun _ v' => Quiet v v') (vfsSearch d v node path) :=
  outcome_iff.mpr ⟨fun _ h => vfsSearch_quiet h, fun _ h => vfsSearch_error h⟩

theorem openLookup_looks : Looks (fun _ v' => Quiet k.vfs v') (openLookup d k p path) := by
  unfold openLookup
  split
  · have hs := vfsSearch_looks d path k.vfs k.vfs.rootFs
    split <;> rename_i he <;> rw [he] at hs <;> exact hs
  · have hs : Looks (fun _ v' => Quiet k.vfs v') (getdirHelper d k p path) := vfsSearch_looks d _ _ _
    split <;> rename_i he <;> rw [he] at hs
    · exact hs
    rename_i dir v
    split
    · exact hs
    have ht := vfsSearch_looks d path v dir
    split <;> rename_i he' <;> rw [he'] at ht
    · exact ht
    · exact Quiet.trans hs ht

theorem openPlan_looks :
    Looks (fun _ v' => Quiet k.vfs v') (openPlan d k p path flags) := by
  unfold openPlan
  split
  · exact fun hc => nomatch hc
  split
  · exact Quiet.refl _
  have hl := @openLookup_looks k p d path
  split <;> rename_i he <;> rw [he] at hl
  · exact hl
  · exact hl
  rename_i dir inode v
  split
  · exact hl
  split
  · have hs : Looks (fun _ v' => Quiet k.vfs v')
        (if dir = 0 then getdirHelper d { k with vfs := v } p path else .ok (dir, v)) := by
      split
      · exact (vfsSearch_looks d _ v _).mono fun _ hq => Quiet.trans hl hq
      · exact hl
    split <;> rename_i he' <;> rw [he'] at hs <;> exact hs
  · exact hl

variable (d path flags) in
theorem vfsNewInode_looks (v : Vfs) (dir : Word) :
    Looks (fun _ v' => Quiet v v') (vfsNewInode d v dir path flags) :=
  outcome_iff.mpr ⟨fun _ h => vfsNewInode_quiet h, fun _ h => vfsNewInode_error h⟩

theorem Counted.install {v : Vfs} {f : Word} (h : Counted k) (hp : p < k.procs)
    (ha : NewFile k.vfs f v) (hb : v.fileBlocks = f :: k.vfs.fileBlocks)
    (hc : 1 ≤ (v.files f).refcount.toNat) : Counted (Kernel.setFd { k with vfs := v } p i f) := by
  refine (h.added ha).hold hp (hb ▸ .head _) ?_
  change (k.holders f).card + 1 ≤ (v.files f).refcount.toNat
  rw [h.unheld ha]
  exact hc

section OpenRule
variable {I : Kernel → Prop}
  (hquiet : ∀ k v, I k → Quiet k.vfs v → I { k with vfs := v })
  (hopened : ∀ k v node g, I k → Opened k.vfs node g v → I { k with vfs := v })
  (hinstall : ∀ k v node f i, I k → Opened k.vfs node f v → v.fileBlocks = f :: k.vfs.fileBlocks →
    k.fds p i = 0 → I (Kernel.setFd { k with vfs := v } p i f))
include hopened hinstall

theorem openInstall_moves (h : I k) (inode : Word) :
    Ends (fun _ k' => I k') (openInstall d k p inode flags) := by
  refine openInstall_rule h (fun status v ho => ?_) (fun f status v ho _ hf => ?_)
  · obtain ⟨g, hg, -⟩ := vfsOpen_ok ho
    exact hopened k v _ g h hg
  · obtain ⟨g, hg, hfg⟩ := vfsOpen_ok ho
    obtain ⟨rfl, hblocks⟩ := hfg.resolve_left hf
    rcases newfd_cases (k := { k with vfs := v }) (p := p) (f := f) with hn | ⟨i, h0, hn⟩
    · rw [hn]
      exact hopened k v _ f h hg
    · rw [hn]
      exact hinstall k v _ f i h hg hblocks h0

include hquiet

/-- `_open` is made of lookups, a new file and a slot for it. -/
theorem sysOpen_moves (d : Driver) (path : Text) (flags : Word) (h : I k) :
    Ends (fun _ k' => I k') (sysOpen d k p path flags) := by
  refine sysOpen_rule (openPlan_looks.mono fun r hq => ?_)
  have hk := hquiet _ _ h hq
  obtain ⟨r, v⟩ := r
  cases r with
  | fail ret => exact hk
  | node inode => exact openInstall_moves hopened hinstall hk inode
  | create dir =>
    refine (vfsNewInode_looks d path 0x8000 v dir).mono fun r hq => ?_
    exact openInstall_moves hopened hinstall (hquiet _ _ hk hq) r.1

end OpenRule

variable (d path flags) in
theorem sysOpen_counted (h : Counted k) (hp : p < k.procs) :
    Ends (fun _ k' => Counted k') (sysOpen d k p path flags) := by
  refine (sysOpen_moves (I := fun k => Counted k ∧ p < k.procs) ?_ ?_ ?_ d path flags
    ⟨h, hp⟩).mono fun _ hk => hk.1
  · intro k v hk hq
    exact ⟨hk.1.quiet hq, hk.2⟩
  · intro k v node g hk ho
    exact ⟨hk.1.added ho.newStruct, hk.2⟩
  · intro k v node f i hk ho hb _
    exact ⟨hk.1.install hk.2 ho.newStruct hb (ho.file ▸ le_rfl), hk.2⟩

theorem drops_counted (h : Counted k) (hp : p < k.procs) (h0 : k.fds p i ≠ 0)
    (hn : NotAFile k (k.fds p i)) : Drops files Counted Freed.Unheld k p i := by
  refine outcome_iff.mpr ⟨fun r hr => ?_, fun e he => ?_⟩
  · obtain ⟨freed, k'⟩ := r
    obtain ⟨r, hc, hk, rfl⟩ := closeFile_ok hr
    refine ⟨?_, fun x hx => ?_⟩
    · rw [hk]
      exact h.closed hp h0 hn hc.closed
    · obtain ⟨x', hx', rfl⟩ := Option.mem_map.mp (Option.mem_toList.mp hx)
      subst hx'
      obtain ⟨hd, hd0⟩ := hc.detached
      change Kernel.holders k' x'.inode = ∅
      rw [hk, hd]
      exact hn h0 (hd ▸ hd0)
  · intro hz
    subst hz
    exact h.refcount_ne hp h0 (vfsClose_refcountZero (closeFile_error he))

/-- One slot is cleared and no count is raised. -/
structure Dropped (k : Kernel) (p : Nat) (i : Fd) (k' : Kernel) : Prop where
  procs : k'.procs = k.procs
  cleared : k'.fds p i = 0
  slots : ∀ q j, (q, j) ≠ (p, i) → k'.fds q j = k.fds q j
  counts : ∀ g, (k'.vfs.files g).refcount.toNat ≤ (k.vfs.files g).refcount.toNat

theorem Dropped.setFd {v : Vfs}
    (hc : ∀ g, (v.files g).refcount.toNat ≤ (k.vfs.files g).refcount.toNat) :
    Dropped k p i (Kernel.setFd { k with vfs := v } p i 0) := by
  refine ⟨rfl, if_pos ⟨rfl, rfl⟩, fun q j hq => ?_, hc⟩
  have hne : ¬(q = p ∧ j = i) := fun h => hq (Prod.ext h.1 h.2)
  exact if_neg hne

variable {k' : Kernel}

theorem Dropped.room {f : Word} {n : Nat} (h : Dropped k p i k') (hr : Room k f n) :
    Room k' f n := by
  intro h0
  have hle := h.counts f
  have hlt := hr h0
  omega

/-- The ways through `_close`: an empty slot, or vfs_close and, without references, kfree. -/
theorem sysClose_ok {ret : Int} {freed : List Freed}
    (h : sysClose k p i = .ok ((ret, freed), k')) :
    (k.fds p i = 0 ∧ freed = [] ∧ k' = k) ∨
    k.fds p i ≠ 0 ∧ ∃ fr k₁, closeFile k (k.fds p i) = .ok (fr, k₁) ∧
      (freed = fr ∧ k' = k₁.setFd p i 0 ∨
        ∃ v, k₁.vfs.kfree (k.fds p i) = .ok v ∧ freed = fr ++ [.file (k.fds p i) k'] ∧
          k' = Kernel.setFd { k₁ with vfs := v } p i 0) := by
  simp only [sysClose, FileKind.sysClose, FileKind.closeSlot, files_fds, files_close, files_kfree]
    at h
  split_ifs at h with h0
  · cases h
    exact .inl ⟨h0, rfl, rfl⟩
  refine .inr ⟨h0, ?_⟩
  cases hcf : closeFile k (k.fds p i) with
  | error e =>
    rw [hcf] at h
    cases h
  | ok x =>
    obtain ⟨fr, k₁⟩ := x
    rw [hcf] at h
    dsimp only at h
    refine ⟨fr, k₁, rfl, ?_⟩
    split_ifs at h
    · cases hfree : k₁.vfs.kfree (k.fds p i) with
      | error e =>
        rw [hfree] at h
        cases h
      | ok v =>
        rw [hfree] at h
        cases h
        exact .inr ⟨v, rfl, rfl, rfl⟩
    · cases h
      exact .inl ⟨rfl, rfl⟩

theorem sysClose_dropped {r : Int × List Freed}
    (h : sysClose k p i = .ok (r, k')) : Dropped k p i k' := by
  obtain ⟨h0, -, rfl⟩ | ⟨-, fr, k₁, hcf, hrest⟩ := sysClose_ok h
  · exact ⟨rfl, h0, fun _ _ _ => rfl, fun _ => le_rfl⟩
  obtain ⟨r', hc, hk, -⟩ := closeFile_ok hcf
  have hle := hc.closed.counts_le
  obtain ⟨-, rfl⟩ | ⟨v, hfree, -, rfl⟩ := hrest
  · rw [hk]
    exact .setFd hle
  · have hfiles : v.files = k₁.vfs.files := by
      rcases kfree_ok hfree with ⟨-, rfl⟩ | ⟨-, -, rfl⟩ <;> rfl
    rw [hk]
    exact .setFd fun g => hfiles ▸ hle g

variable {I : Kernel → Prop}

/-- dup2 empties the slot it shares to and finds the file in its own slot still. -/
theorem sysDup2_rule {G : Freed → Prop} {newfd : Int} (hk : I k)
    (hp : p < k.procs)
    (hclose : ∀ j, descriptor newfd = .ok j → Ends (fun r k' => Good I G r.2 k') (sysClose k p j))
    (hshare : ∀ k' j, I k' → Dropped k p j k' → p < k'.procs → k'.fds p i = k.fds p i →
      k.fds p i ≠ 0 → I (shareFile k' p j (k.fds p i))) :
    Ends (fun r k' => Good I G r.2 k') (sysDup2 k p i newfd) := by
  have hdropped : ∀ j, descriptor newfd = .ok j → Ends (fun r k' =>
      Good (fun k' => I k' ∧ Dropped k p j k') G r.2 k') (sysClose k p j) := fun j hd =>
    (hclose j hd).imp fun r hr hg => ⟨⟨hg.1, sysClose_dropped hr⟩, hg.2⟩
  refine sysDup2_slots hk hdropped fun j k' hj hij h0 => ?_
  exact hshare k' j hj.1 hj.2 (hj.2.procs ▸ hp)
    (hj.2.slots p i fun he => hij (Prod.mk.inj he).2) h0

theorem sysClose_counted (h : Counted k) (hp : p < k.procs) (hn : NotAFile k (k.fds p i)) :
    Ends (fun r k' => Good Counted Freed.Unheld r.2 k') (sysClose k p i) := by
  refine sysClose_rule h fun h0 => ?_
  refine closeSlot_rule (drops_counted h hp h0 hn)
    (fun k' hk' hz => files_kfree_rule fun v hfree => ?_)
  have hnone := hk'.holders_eq_empty h0 hz
  exact ⟨hk'.kfree hnone hfree, hnone⟩

theorem sysDup2_counted {newfd : Int} (h : Counted k) (hp : p < k.procs)
    (hr : Room k (k.fds p i) 1)
    (hn : ∀ j, descriptor newfd = .ok j → NotAFile k (k.fds p j)) :
    Ends (fun r k' => Good Counted Freed.Unheld r.2 k') (sysDup2 k p i newfd) := by
  refine sysDup2_rule h hp (fun j hj => sysClose_counted h hp (hn j hj))
    (fun k' j hc hd hp' hs h0 => ?_)
  exact hc.share hp' h0 (hc.blocks _ h0 (holders_nonempty hp' hs)) (hd.room hr)

/-- The close of one slot leaves the other files of the process apart from the inodes. -/
theorem NotAFile.drop {v : Vfs} {j : Fd} (hc : Closed k.vfs (k.fds p i) v)
    (hn : NotAFile k (k.fds p j)) :
    NotAFile (Kernel.setFd { k with vfs := v } p i 0)
      ((Kernel.setFd { k with vfs := v } p i 0).fds p j) := by
  intro h0 hi
  by_cases hj : j = i
  · exact absurd (by simp [Kernel.setFd, hj]) h0
  have hs : (Kernel.setFd { k with vfs := v } p i 0).fds p j = k.fds p j := by
    simp [Kernel.setFd, hj]
  rw [hs] at h0 hi ⊢
  change (v.files (k.fds p j)).inode ≠ 0 at hi
  change Kernel.holders _ (v.files (k.fds p j)).inode = ∅
  have hino : (v.files (k.fds p j)).inode = (k.vfs.files (k.fds p j)).inode := by
    by_cases hf : k.fds p j = k.fds p i
    · rw [hf] at hi ⊢
      exact hc.inode.resolve_right hi
    · rw [hc.others _ hf]
  rw [hino] at hi ⊢
  rw [holders_setFd_vfs, holders_setFd_of_ne hi.symm, hn h0 hi, Finset.erase_empty]

theorem sysExit_counted (h : Counted k) (hp : p < k.procs)
    (hn : ∀ j, NotAFile k (k.fds p j)) : Ends (Good Counted Freed.Unheld) (sysExit k p) := by
  let I := fun k : Kernel => Counted k ∧ p < k.procs ∧ ∀ j, NotAFile k (k.fds p j)
  refine (exitLoop_rule (I := I) (G := Freed.Unheld) ?_ _ ⟨h, hp, hn⟩).mono
    fun r hg => ⟨hg.1.1, hg.2⟩
  intro k i hk h0
  refine (drops_counted hk.1 hk.2.1 h0 (hk.2.2 i)).imp fun r hr hg => ?_
  obtain ⟨r', hc, hk', -⟩ := closeFile_ok hr
  refine ⟨⟨hg.1, ?_, fun j => ?_⟩, hg.2⟩
  · rw [hk']
    exact hk.2.1
  · rw [hk']
    exact (hk.2.2 j).drop hc.closed

theorem Counted.newProcess (h : Counted k) (cwd : Nat → Text) : Counted (k.newProcess cwd) := by
  refine ⟨fun g hg => ?_, fun g hg hn => ?_, h.nodup, h.apart⟩
  · rw [holders_newProcess cwd hg]
    exact h.counts g hg
  · rw [holders_newProcess cwd hg] at hn
    exact h.blocks g hg hn

/-- The references fork adds to a file. -/
def copies (k : Kernel) (p : Nat) (f : Word) (is : List Fd) : Nat :=
  is.countP (fun i => decide (k.fds p i = f))

theorem room_of_slots
    (hr : ∀ i, Room k (k.fds p i) (copies k p (k.fds p i) (List.finRange 256))) (f : Word) :
    Room k f (copies k p f (List.finRange 256)) := by
  by_cases hf : ∃ i, k.fds p i = f
  · obtain ⟨i, rfl⟩ := hf
    exact hr i
  · have hz : copies k p f (List.finRange 256) = 0 := by
      refine List.countP_eq_zero.mpr fun i _ hi => hf ⟨i, of_decide_eq_true hi⟩
    intro _
    rw [hz]
    exact (k.vfs.files f).refcount.isLt

/-- fork, slot by slot: a slot of the child is empty until it takes its file. -/
theorem fork_rule (hp : p < k.procs)
    (hr : ∀ f, Room k f (copies k p f (List.finRange 256)))
    (hnew : ∀ cwd, I (k.newProcess cwd))
    (hshare : ∀ k' i, I k' → k'.procs = k.procs + 1 → k'.fds p i ≠ 0 → k'.fds k.procs i = 0 →
      Room k' (k'.fds p i) 1 → I (shareFile k' k.procs i (k'.fds p i))) : I (fork k p) := by
  let J := fun (is : List Fd) (k' : Kernel) => I k' ∧ k'.procs = k.procs + 1 ∧
    (∀ i, k'.fds p i = k.fds p i) ∧ (∀ f, Room k' f (copies k p f is)) ∧ is.Nodup ∧
    ∀ i ∈ is, k'.fds k.procs i = 0
  have hpc : p ≠ k.procs := Nat.ne_of_lt hp
  refine (fork_slots (J := J) ?_ ?_ ?_).1
  · intro i is k' hj h0
    obtain ⟨hi, hprocs, hfds, hroom, hnodup, hempty⟩ := hj
    have hcopies : copies k p (k'.fds p i) (i :: is) = copies k p (k'.fds p i) is + 1 := by
      rw [hfds i]
      simp [copies]
    refine ⟨hshare k' i hi hprocs h0 (hempty i (.head _)) ?_, hprocs,
      fun j => ?_, fun f hf => ?_, hnodup.of_cons, fun j hj => ?_⟩
    · intro hne
      have hr' := hroom _ hne
      omega
    · simp [shareFile_eq, Kernel.setFd, hpc, hfds j]
    · by_cases hfi : f = k'.fds p i
      · have hr' := hroom f hf
        rw [hfi] at hr' ⊢
        have hs := refcount_succ (c := (k'.vfs.files (k'.fds p i)).refcount) (by omega)
        simp only [shareFile_eq, Kernel.setFd, Vfs.setFile, if_true, hs]
        omega
      · have hr' := hroom f hf
        have hle : copies k p f is ≤ copies k p f (i :: is) := (List.sublist_cons_self i is).countP_le
        simp only [shareFile_eq, Kernel.setFd, Vfs.setFile, if_neg hfi]
        omega
    · have hne : j ≠ i := fun h => (List.nodup_cons.mp hnodup).1 (h ▸ hj)
      simp [shareFile_eq, Kernel.setFd, hne, hempty j (List.mem_cons_of_mem _ hj)]
  · intro i is k' hj h0
    obtain ⟨hi, hprocs, hfds, hroom, hnodup, hempty⟩ := hj
    rw [setFd_same (hempty i List.mem_cons_self)]
    refine ⟨hi, hprocs, hfds, fun f hf => ?_, hnodup.of_cons,
      fun j hj => hempty j (.tail _ hj)⟩
    have hle : copies k p f is ≤ copies k p f (i :: is) := (List.sublist_cons_self i is).countP_le
    have hr' := hroom f hf
    omega
  · exact ⟨hnew _, rfl, fun i => if_neg hpc, hr, List.nodup_finRange 256, fun i _ => if_pos rfl⟩

theorem fork_counted (h : Counted k) (hp : p < k.procs)
    (hr : ∀ f, Room k f (copies k p f (List.finRange 256))) : Counted (fork k p) := by
  refine fork_rule hp hr h.newProcess fun k' i hc hprocs h0 _ hroom => ?_
  have hp' : p < k'.procs := by omega
  exact hc.share (by omega) h0 (hc.blocks _ h0 (holders_nonempty hp' rfl)) hroom

end Calls

/-- A system call, or anything else that writes to the memory of inodes. -/
inductive Event where
  | call (c : Call)
  | inodes (m : Word → Inode)

def eventStep (k : Kernel) : Event → Except Stop (Result × Kernel)
  | .call c => step k c
  | .inodes m => .ok (⟨0, []⟩, { k with vfs := { k.vfs with inodes := m } })

/-- The references a call adds fit the counts. -/
def CountsFit (k : Kernel) : Call → Prop
  | .dup2 p oldfd _ => ∀ i, descriptor oldfd = .ok i → Room k (k.fds p i) 1
  | .dupFd p fd _ => ∀ i, descriptor fd = .ok i → Room k (k.fds p i) 1
  | .fork p => ∀ i, Room k (k.fds p i) (copies k p (k.fds p i) (List.finRange 256))
  | _ => True

/-- No file that a call closes points at a file. -/
def NodesApart (k : Kernel) : Call → Prop
  | .dup2 p _ newfd => ∀ j, descriptor newfd = .ok j → NotAFile k (k.fds p j)
  | .close p fd => ∀ j, descriptor fd = .ok j → NotAFile k (k.fds p j)
  | .exit p => ∀ j, NotAFile k (k.fds p j)
  | _ => True

def Event.Fits (k : Kernel) : Event → Prop
  | .call c => CountsFit k c ∧ NodesApart k c
  | .inodes _ => True

variable {k : Kernel}

theorem Counted.supply (h : Counted k) (supply : List Word) :
    Counted (k.withSupply supply) :=
  ⟨h.counts, h.blocks, h.nodup, h.apart⟩

theorem step_counted {c : Call} (h : Counted k) (hf : CountsFit k c)
    (hn : NodesApart k c) :
    Ends (fun r k' => Good Counted Freed.Unheld r.freed k') (step k c) := by
  apply step_rule h
  · intro d supply path _
    exact (vfsSearch_looks d path _ _).mono fun _ hq => (h.supply supply).quiet hq
  · intro d supply p path flags _ hp
    exact sysOpen_counted d path flags (h.supply supply) hp
  · intro p oldfd newfd i hc hp hd
    subst hc
    exact sysDup2_counted h hp (hf _ hd) hn
  · intro p fd arg i j hc hp hd h0
    subst hc
    refine sysDup2_counted h hp (hf _ hd) fun j' hj hj0 => ?_
    rw [descriptor_val j] at hj
    cases hj
    exact absurd h0 hj0
  · intro p hc hp
    subst hc
    exact fork_counted h hp (room_of_slots hf)
  · intro p fd i hc hp hd
    subst hc
    exact sysClose_counted h hp (hn _ hd)
  · intro p hc hp
    subst hc
    exact sysExit_counted h hp hn

theorem eventStep_counted {e : Event} (h : Counted k) (hf : e.Fits k) :
    Ends (fun r k' => Good Counted Freed.Unheld r.freed k') (eventStep k e) := by
  cases e with
  | call c => exact step_counted h hf.1 hf.2
  | inodes m => exact ⟨⟨h.counts, h.blocks, h.nodup, h.apart⟩, by simp⟩

/-- The kernel before the first _open: the tables are empty. -/
structure NoneOpen (k : Kernel) : Prop where
  empty : ∀ p i, p < k.procs → k.fds p i = 0
  nodup : k.vfs.fileBlocks.Nodup
  apart : ∀ a ∈ k.vfs.inodeBlocks, a ∉ k.vfs.fileBlocks

theorem NoneOpen.counted (h : NoneOpen k) : Counted k := by
  have hnone : ∀ f, f ≠ 0 → k.holders f = ∅ := by
    intro f hf
    refine Finset.eq_empty_of_forall_notMem fun s hs => ?_
    obtain ⟨hp, he⟩ := mem_holders.mp hs
    exact hf (he ▸ h.empty s.1 s.2 hp)
  refine ⟨fun f hf => by simp [hnone f hf], fun f hf hh => ?_, h.nodup, h.apart⟩
  rw [hnone f hf] at hh
  exact absurd hh Finset.not_nonempty_empty

/-- In every run whose events fit: every count covers the slots that hold its file, no
block is freed that a slot holds, and no further call that fits can reach the refcount
PANIC. -/
theorem refcount_covers_slots {k : Kernel} {es : List Event}
    {tr : List (Transition Kernel Event Result)} (hk : NoneOpen k)
    (hr : run eventStep k es = some tr) (hf : ∀ x ∈ tr, x.input.Fits x.pre) :
    (∀ x ∈ tr, (∀ f, f ≠ 0 → (x.post.holders f).card ≤ (x.post.vfs.files f).refcount.toNat) ∧
      ∀ y ∈ x.output.freed, y.Unheld) ∧
    ∀ e : Event, e.Fits (lastState k tr) → eventStep (lastState k tr) e ≠ .error .refcountZero := by
  have hstep : ∀ (s : Kernel) (e : Event), Counted s → e.Fits s →
      Outcome (fun e => e ≠ .refcountZero)
        (fun r => (∀ y ∈ r.1.freed, y.Unheld) ∧ Counted r.2) (eventStep s e) :=
    fun s e hs he => (eventStep_counted hs he).mono fun r hg => ⟨hg.2, hg.1⟩
  have hrun := run_outcome (C := fun s e => e.Fits s)
    (G := fun r : Result => ∀ y ∈ r.freed, y.Unheld) hstep hr hk.counted hf
  refine ⟨fun x hx => ?_, fun e he hz => ?_⟩
  · obtain ⟨-, hfreed, hpost⟩ := hrun x hx
    exact ⟨hpost.counts, hfreed⟩
  · have hlast : Counted (lastState k tr) :=
      run_invariant_last (C := fun x => x.input.Fits x.pre)
        (fun x hi hc h => ((outcome_iff.mp (hstep x.pre x.input hi hc)).1 _ h).2) hr hk.counted hf
    exact (outcome_iff.mp (hstep _ e hlast he)).2 _ hz rfl

/-- A root directory at 0x1000 whose driver opens everything and finds nothing. -/
def bareRoot : Kernel where
  vfs :=
    { inodes := fun _ => ⟨2, [], ⟨true, true, false, true, false⟩, 0, 0, 0⟩
      files := fun _ => ⟨0, 0, 0⟩
      rootFs := 0x1000
      inodeBlocks := [0x1000]
      fileBlocks := []
      supply := [] }
  procs := 1
  fds := fun _ _ => 0
  cwd := fun _ => [slash]

def openOnly : Driver where
  search := fun _ _ => none
  create := fun _ _ _ => none
  opening := fun node _ => (0, node.acts)

theorem bareRoot_noneOpen : NoneOpen bareRoot :=
  ⟨fun _ _ _ => rfl, List.nodup_nil, fun _ _ => List.not_mem_nil⟩

/-- _open of "/" with the file at 0x2000. -/
def openRoot : Event := .call (.openFile openOnly [0x2000] 0 [slash] 0)

instance (k : Kernel) (f : Word) (n : Nat) : Decidable (Room k f n) :=
  inferInstanceAs (Decidable (f ≠ 0 → _))

instance (k : Kernel) (f : Word) : Decidable (NotAFile k f) :=
  inferInstanceAs (Decidable (f ≠ 0 → _ ≠ 0 → _))

instance (k : Kernel) : DecidablePred (CountsFit k)
  | .search _ _ _ => .isTrue trivial
  | .openFile _ _ _ _ _ => .isTrue trivial
  | .dup2 _ oldfd _ => inferInstanceAs (Decidable (∀ i, descriptor oldfd = .ok i → _))
  | .dupFd _ fd _ => inferInstanceAs (Decidable (∀ i, descriptor fd = .ok i → _))
  | .fork p => inferInstanceAs
    (Decidable (∀ i, Room k (k.fds p i) (copies k p (k.fds p i) (List.finRange 256))))
  | .close _ _ => .isTrue trivial
  | .exit _ => .isTrue trivial

instance (k : Kernel) : DecidablePred (NodesApart k)
  | .search _ _ _ => .isTrue trivial
  | .openFile _ _ _ _ _ => .isTrue trivial
  | .dup2 _ _ newfd => inferInstanceAs (Decidable (∀ j, descriptor newfd = .ok j → _))
  | .dupFd _ _ _ => .isTrue trivial
  | .fork _ => .isTrue trivial
  | .close _ fd => inferInstanceAs (Decidable (∀ j, descriptor fd = .ok j → _))
  | .exit p => inferInstanceAs (Decidable (∀ j, NotAFile k (k.fds p j)))

instance (k : Kernel) : DecidablePred (Event.Fits k)
  | .call c => inferInstanceAs (Decidable (CountsFit k c ∧ NodesApart k c))
  | .inodes _ => .isTrue trivial

/-- "/" is opened, copied within the process, closed in one slot and copied by fork. -/
def sharedRoot : List Event :=
  [openRoot, .call (.dup2 0 0 5), .call (.close 0 0), .call (.dupFd 0 5 3), .call (.fork 0)]

theorem refcount_covers_slots_sharedRoot :
    ∃ tr, run eventStep bareRoot sharedRoot = some tr ∧
      (∀ x ∈ tr, (∀ f, f ≠ 0 →
        (x.post.holders f).card ≤ (x.post.vfs.files f).refcount.toNat) ∧
        ∀ y ∈ x.output.freed, y.Unheld) ∧
      ∀ e : Event, e.Fits (lastState bareRoot tr) →
        eventStep (lastState bareRoot tr) e ≠ .error .refcountZero := by
  exact run_test (fun tr => ∀ x ∈ tr, x.input.Fits x.pre) (by decide +kernel)
    fun tr hr hf => refcount_covers_slots bareRoot_noneOpen hr hf

/-- Slots 0 and 1 hold the file at 0x2000, an open root directory. -/
structure Doubled (k : Kernel) (count : Word) : Prop where
  procs : k.procs = 1
  rootFs : k.vfs.rootFs = 0x1000
  slot : k.fds 0 0 = 0x2000
  target : k.fds 0 1 = 0x2000
  file : k.vfs.files 0x2000 = ⟨count, 0x1000, 0⟩

def dupOver : Event := .call (.dup2 0 0 1)

/-- dup2 over a copy of the same file: vfs_close leaves the count of an open root
directory alone, so the count grows although the slots stay the same. -/
theorem dupOver_doubled {c : Word} (h : Doubled k c) (hc : c ≠ 0) :
    ∃ r k', eventStep k dupOver = .ok (r, k') ∧ Doubled k' (c + 1) := by
  obtain ⟨hprocs, hroot, hslot, htarget, hfile⟩ := h
  have h0 : ¬(0x2000 : Word) = 0 := by decide
  have hclose : files.sysClose k 0 1 = .ok ((0, []), k.setFd 0 1 0) := by
    have hv : vfsClose k.vfs 0x2000 = .ok (none, k.vfs) := by
      simp only [vfsClose, hfile, hroot]
      rw [if_neg (by decide), if_neg hc, if_pos trivial]
    simp only [FileKind.sysClose, FileKind.closeSlot, files_fds, files_close, files_refcount,
      closeFile, htarget, if_neg h0, hv, hfile, if_neg hc]
    rfl
  have hcaller : ¬(Call.dup2 0 0 1).caller.any (fun p => decide (k.procs ≤ p)) := by
    simp [Call.caller, hprocs]
  have hdup : sysDup2 k 0 0 1 = .ok ((0, []), shareFile (k.setFd 0 1 0) 0 1 0x2000) := by
    have hd1 : descriptor 1 = .ok 1 := rfl
    simp only [sysDup2, FileKind.sysDup2, files_fds, hslot, if_neg h0, hd1, hclose]
    rfl
  refine ⟨⟨0, []⟩, shareFile (k.setFd 0 1 0) 0 1 0x2000, ?_, hprocs, hroot, hslot, rfl, ?_⟩
  · have hd0 : descriptor 0 = .ok 0 := rfl
    simp only [eventStep, dupOver, step, if_neg hcaller, perform, hd0, hdup]
  · simp only [shareFile_eq, Kernel.setFd, Vfs.setFile, if_true, hfile]

theorem dupOver_run (n : Nat) {c : Word} (h : Doubled k c) (hc : 0 < c.toNat)
    (hn : c.toNat + n ≤ 2 ^ 32) :
    ∃ tr, run eventStep k (List.replicate n dupOver) = some tr ∧
      Doubled (lastState k tr) (c + BitVec.ofNat 32 n) := by
  induction n generalizing k c with
  | zero => exact ⟨[], rfl, by simpa using h⟩
  | succ n ih =>
    have hne : c ≠ 0 := by
      intro hz
      simp [hz] at hc
    obtain ⟨r, k', hs, hk'⟩ := dupOver_doubled h hne
    by_cases hn0 : n = 0
    · subst hn0
      exact ⟨[⟨k, dupOver, r, k'⟩], by simp [run, hs], hk'⟩
    · have hsucc := refcount_succ (c := c) (by omega)
      obtain ⟨tr, hr, hlast⟩ := ih hk' (by omega) (by omega)
      refine ⟨⟨k, dupOver, r, k'⟩ :: tr, by simp [List.replicate_succ, run, hs, hr], ?_⟩
      rw [lastState_cons]
      have he : c + 1 + BitVec.ofNat 32 n = c + BitVec.ofNat 32 (n + 1) := by
        rw [BitVec.ofNat_add, add_assoc, add_comm (BitVec.ofNat 32 n)]
        rfl
      exact he ▸ hlast

theorem openRoot_doubled : ∃ tr, run eventStep bareRoot [openRoot, dupOver] = some tr ∧
    Doubled (lastState bareRoot tr) 2 := by
  refine run_test (fun tr =>
    let k := lastState bareRoot tr
    k.procs = 1 ∧ k.vfs.rootFs = 0x1000 ∧ k.fds 0 0 = 0x2000 ∧ k.fds 0 1 = 0x2000 ∧
      k.vfs.files 0x2000 = ⟨2, 0x1000, 0⟩) (by decide) fun tr hr hk => ?_
  obtain ⟨h1, h2, h3, h4, h5⟩ := hk
  exact ⟨h1, h2, h3, h4, h5⟩

/-- 2^32-1 copies over the same slot take the count of the open root directory through
2^32 to zero with two slots holding it; the next _close runs into the PANIC. -/
theorem refcount_wraps :
    ∃ tr, run eventStep bareRoot ([openRoot, dupOver] ++ List.replicate (2 ^ 32 - 2) dupOver) =
        some tr ∧
      ((lastState bareRoot tr).vfs.files 0x2000).refcount = 0 ∧
      2 ≤ ((lastState bareRoot tr).holders 0x2000).card ∧
      eventStep (lastState bareRoot tr) (.call (.close 0 0)) = .error .refcountZero := by
  obtain ⟨tr, hr, hk⟩ := openRoot_doubled
  obtain ⟨tr', hr', hk'⟩ := dupOver_run (2 ^ 32 - 2) hk (by decide) (by decide)
  have hz : (2 : Word) + BitVec.ofNat 32 (2 ^ 32 - 2) = 0 := by decide
  rw [hz] at hk'
  refine ⟨tr ++ tr', run_append hr hr', ?_⟩
  rw [lastState_append]
  generalize lastState (lastState bareRoot tr) tr' = k at hk'
  obtain ⟨hprocs, hroot, hslot, htarget, hfile⟩ := hk'
  refine ⟨by rw [hfile], ?_, ?_⟩
  · have hsub : {((0 : Nat), (0 : Fd)), (0, 1)} ⊆ k.holders 0x2000 := by
      intro s hs
      rcases Finset.mem_insert.mp hs with rfl | hs
      · exact mem_holders.mpr ⟨by omega, hslot⟩
      · rw [Finset.mem_singleton.mp hs]
        exact mem_holders.mpr ⟨by omega, htarget⟩
    exact Finset.card_le_card hsub
  · have hv : vfsClose k.vfs 0x2000 = .error .refcountZero := by
      simp only [vfsClose, hfile]
      rw [if_neg (by decide), if_pos trivial]
    have hcaller : ¬(Call.close 0 0).caller.any (fun p => decide (k.procs ≤ p)) := by
      simp [Call.caller, hprocs]
    have hd0 : descriptor 0 = .ok 0 := rfl
    have h0 : ¬(0x2000 : Word) = 0 := by decide
    simp only [eventStep, step, if_neg hcaller, perform, hd0, sysClose, FileKind.sysClose,
      FileKind.closeSlot, files_fds, files_close, closeFile,
      hslot, if_neg h0, hv]

end TapiOS.Task
