import TapiOS.Fs.PathTree

/-!
# Closing a file and the children lists

vfs_close may take the inode of a file out of the list of its directory. The other lists
stay as they are, and so does everything that the cached inodes say about the tree.
-/
namespace TapiOS.Fs

open Lib Util Vfs

/-- Inodes were taken out of lists and freed, and nothing else happened to the cache. -/
structure Trimmed (v v' : Vfs) : Prop where
  rootFs : v'.rootFs = v.rootFs
  root : v.rootFs ∈ v.inodeBlocks → v.rootFs ∈ v'.inodeBlocks
  blocks : v'.inodeBlocks.Sublist v.inodeBlocks
  record : ∀ a, v'.inodes a = { v.inodes a with siblings := (v'.inodes a).siblings }
  kids : ∀ a ∈ v'.inodeBlocks, ∀ ss, Listing v a ss →
    ∃ ts, Kids v' a ts ∧ ts.Sublist ss ∧ ∀ c ∈ ts, c ∈ v'.inodeBlocks

section Trim
variable {v v' : Vfs} {f : Word} {r : Option Detached}

theorem Trimmed.of_inodes (hi : v'.inodes = v.inodes) (hb : v'.inodeBlocks = v.inodeBlocks)
    (hr : v'.rootFs = v.rootFs) : Trimmed v v' := by
  refine ⟨hr, fun h => hb ▸ h, by rw [hb], fun a => by rw [hi], fun a ha ss hl => ?_⟩
  refine ⟨ss, ?_, List.Sublist.refl _, fun c hc => ?_⟩
  · unfold Kids
    rw [hi]
    exact hl.kids
  · rw [hb]
    exact (hl.mem c hc).1

theorem Trimmed.names (h : Trimmed v v') (ss : List Word) : namesOf v' ss = namesOf v ss :=
  List.map_congr_left fun c _ => by rw [h.record c]

theorem Trimmed.cached (h : Trimmed v v') (hc : Cached v) : Cached v' := by
  refine ⟨?_, fun h0 => hc.zero (h.blocks.subset h0), hc.distinct.sublist h.blocks, ?_, ?_,
    fun a ha => ?_⟩
  · rw [h.rootFs]
    exact h.root hc.root
  · rw [h.rootFs, h.record]
    exact hc.rootParent
  · rw [h.rootFs, h.record]
    exact hc.rootActs
  · obtain ⟨ss, hl⟩ := hc.lists a (h.blocks.subset ha)
    obtain ⟨ts, hk, hsub, hmem⟩ := h.kids a ha ss hl
    have hnames : (namesOf v' ts).Sublist (namesOf v ss) := by
      rw [h.names]
      exact hsub.map _
    refine ⟨ts, hk, fun c hcm => ⟨hmem c hcm, ?_⟩, hl.nodup.sublist hnames,
      fun h0 => hl.nonempty (hnames.subset h0)⟩
    rw [h.record]
    exact (hl.mem c (hsub.subset hcm)).2

theorem Trimmed.mirrors {T : Tree} {P : Part} (h : Trimmed v v') (hc : Cached v)
    (hm : Mirrors T v P) : Mirrors T v' P := by
  refine ⟨?_, hm.top, hm.below, fun a ha => ?_, fun a ha => ?_, fun a ha hao ts ht c hcm => ?_⟩
  · rw [h.rootFs, h.record]
    exact hm.root
  · rw [h.record]
    exact hm.nodes a (h.blocks.subset ha)
  · rw [h.record]
    exact hm.acts a (h.blocks.subset ha)
  · obtain ⟨ss, hl⟩ := hc.lists a (h.blocks.subset ha)
    obtain ⟨us, hu, hsub, -⟩ := h.kids a ha ss hl
    rw [Chain.unique ht hu] at hcm
    rw [h.record a] at hao ⊢
    rw [h.record c]
    exact hm.child a (h.blocks.subset ha) hao ss hl.kids c (hsub.subset hcm)

theorem Listing.cut {dir q c : Word} {xs ys : List Word} (hc : Cached v)
    (hl : Listing v dir (xs ++ q :: c :: ys)) (hroot : c ≠ v.rootFs)
    (hb : v'.inodeBlocks = v.inodeBlocks.erase c) (hr : v'.rootFs = v.rootFs)
    (hq : v'.inodes q = { v.inodes q with siblings := (v.inodes c).siblings })
    (ho : ∀ a, a ≠ q → v'.inodes a = v.inodes a) : Trimmed v v' := by
  have hmem : ∀ a, a ∈ v'.inodeBlocks ↔ a ≠ c ∧ a ∈ v.inodeBlocks := by
    intro a
    rw [hb]
    exact hc.distinct.mem_erase_iff
  have hrec : ∀ a, v'.inodes a = { v.inodes a with siblings := (v'.inodes a).siblings } := by
    intro a
    by_cases haq : a = q
    · rw [haq, hq]
    · rw [ho a haq]
  have hparent : (v.inodes q).parent = dir ∧ (v.inodes c).parent = dir :=
    ⟨(hl.mem q (by simp)).2, (hl.mem c (by simp)).2⟩
  refine ⟨hr, fun h => (hmem _).mpr ⟨hroot.symm, h⟩, by rw [hb]; exact List.erase_sublist, hrec,
    fun a ha ss hs => ?_⟩
  have hch : (v'.inodes a).children = (v.inodes a).children := by rw [hrec a]
  by_cases had : a = dir
  · subst had
    obtain rfl := Chain.unique hs.kids hl.kids
    have hnd := hs.nodup_kids
    have hsub : (xs ++ q :: ys).Sublist (xs ++ q :: c :: ys) :=
      (List.Sublist.refl xs).append ((List.sublist_cons_self c ys).cons_cons q)
    refine ⟨xs ++ q :: ys, ?_, hsub, fun x hx => (hmem x).mpr ⟨?_, (hs.mem x (hsub.subset hx)).1⟩⟩
    · unfold Kids
      rw [hch]
      refine Chain.skip hs.kids hnd (by rw [hq]) fun x hx => ?_
      have hxq : x ≠ q := by
        intro he
        subst he
        rw [List.nodup_append, List.nodup_cons] at hnd
        rcases List.mem_append.mp hx with hx | hx
        · exact hnd.2.2 x hx x (.head _) rfl
        · exact hnd.2.1.1 (.tail _ hx)
      rw [ho x hxq]
    · intro he
      subst he
      rw [List.nodup_append, List.nodup_cons, List.nodup_cons] at hnd
      rcases List.mem_append.mp hx with hx | hx
      · exact hnd.2.2 x hx x (by simp) rfl
      · rcases List.mem_cons.mp hx with he | hx
        · exact hnd.2.1.1 (by simp [he])
        · exact hnd.2.1.2.1 hx
  · -- neither of the two is in the list of another directory
    have hne : ∀ x ∈ ss, x ≠ q ∧ x ≠ c := by
      intro x hx
      have hpx := (hs.mem x hx).2
      refine ⟨fun he => had ?_, fun he => had ?_⟩
      · rw [← hpx, he, hparent.1]
      · rw [← hpx, he, hparent.2]
    refine ⟨ss, ?_, List.Sublist.refl _, fun x hx => (hmem x).mpr ⟨(hne x hx).2, (hs.mem x hx).1⟩⟩
    unfold Kids
    rw [hch]
    exact hs.kids.congr fun x hx => by rw [ho x (hne x hx).1]

/-- vfs_close of a file whose inode has its place in the cache. -/
theorem Closes.trimmed (h : Closes v f r v') (hc : Cached v)
    (hn : (v.files f).inode ∈ v.inodeBlocks) (hpl : Placed v (v.files f).inode) : Trimmed v v' := by
  cases h with
  | missing hi => exact .of_inodes rfl rfl rfl
  | root _ hr => exact .of_inodes rfl rfl rfl
  | kept _ => exact .of_inodes rfl rfl rfl
  | orphan _ hi hr hp0 hd =>
    have hpar := hpl.resolve_left hr
    rw [hp0] at hpar
    exact absurd hpar hc.zero
  | unlinked b _ hi hr _ hf hb0 hd =>
    obtain ⟨ss, hl⟩ := hc.lists _ (hpl.resolve_left hr)
    rw [hl.find] at hf
    have hfind : ss.find? (fun a => decide ((v.inodes a).siblings = (v.files f).inode)) = some b := by
      cases hs : ss.find? (fun a => decide ((v.inodes a).siblings = (v.files f).inode)) with
      | none =>
        rw [hs] at hf
        exact absurd (Option.some.inj hf).symm hb0
      | some x =>
        rw [hs] at hf
        exact congrArg some (Option.some.inj hf)
    have hnext : (v.inodes b).siblings = (v.files f).inode := by simpa using List.find?_some hfind
    obtain ⟨xs, ys, rfl⟩ := Chain.behind hl.kids (List.mem_of_find?_eq_some hfind)
      (by rw [hnext]; exact hi)
    rw [hnext] at hl
    obtain ⟨d, w, -, hdi, hk, rfl⟩ := detach_ok hd
    have hdc : d.inode = (v.files f).inode := by
      rw [hdi]
      simp [countDown, setFile, setInode]
    obtain ⟨-, rfl⟩ | ⟨hnm, -⟩ := kfree_ok hk
    · refine hl.cut hc hr ?_ rfl ?_ fun a ha => ?_
      · rw [← hdc]
        rfl
      · simp [countDown, setFile, setInode]
      · simp [countDown, setFile, setInode, ha]
    · exact absurd (hdc ▸ hn) hnm

end Trim
end TapiOS.Fs
