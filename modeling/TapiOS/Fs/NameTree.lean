import TapiOS.Fs.Lookups

/-!
# The pointers of the name cache

The cached inodes form a tree: every inode but the root has a cached directory as parent,
first children and siblings point to cached inodes, and no inode is behind two others. A
lookup adds one inode below a directory; vfs_close may take out an inode that is not the
first child of its parent.
-/
namespace TapiOS.Fs

open Lib Util Vfs

variable {a : Word}

structure Linked (v : Vfs) : Prop where
  root : v.rootFs ∈ v.inodeBlocks
  zero : 0 ∉ v.inodeBlocks
  nodup : v.inodeBlocks.Nodup
  rootParent : (v.inodes v.rootFs).parent = 0
  parent : ∀ a ∈ v.inodeBlocks, a ≠ v.rootFs → (v.inodes a).parent ∈ v.inodeBlocks ∧
    (v.inodes (v.inodes a).parent).children ≠ 0
  child : ∀ a ∈ v.inodeBlocks, (v.inodes a).children ≠ 0 →
    (v.inodes a).children ∈ v.inodeBlocks ∧ (v.inodes (v.inodes a).children).parent = a
  sibling : ∀ a ∈ v.inodeBlocks, (v.inodes a).siblings ≠ 0 →
    (v.inodes a).siblings ∈ v.inodeBlocks ∧
      (v.inodes (v.inodes (v.inodes a).siblings).parent).children ≠ (v.inodes a).siblings
  once : ∀ a ∈ v.inodeBlocks, ∀ b ∈ v.inodeBlocks, (v.inodes a).siblings ≠ 0 →
    (v.inodes a).siblings = (v.inodes b).siblings → a = b

/-- The root, or the first child of its parent: vfs_close never frees these. -/
def Pinned (v : Vfs) (a : Word) : Prop :=
  a = v.rootFs ∨ (v.inodes (v.inodes a).parent).children = a

instance (v : Vfs) (a : Word) : Decidable (Pinned v a) :=
  inferInstanceAs (Decidable (_ ∨ _))

/-- The new inode `node` became the last child of `dir`. -/
structure Grown (v : Vfs) (dir node : Word) (v' : Vfs) : Prop where
  ne_zero : node ≠ 0
  newInode : node ∉ v.inodeBlocks
  newFile : node ∉ v.fileBlocks
  blocks : v'.inodeBlocks = node :: v.inodeBlocks
  rootFs : v'.rootFs = v.rootFs
  files : v'.files = v.files
  fileBlocks : v'.fileBlocks = v.fileBlocks
  parent : ∀ a, a ≠ node → (v'.inodes a).parent = (v.inodes a).parent
  nodeParent : (v'.inodes node).parent = dir
  nodeChildren : (v'.inodes node).children = 0
  nodeSiblings : (v'.inodes node).siblings = 0
  link : ((v.inodes dir).children = 0 ∧ (v'.inodes dir).children = node ∧
      (∀ a, a ≠ node → a ≠ dir → (v'.inodes a).children = (v.inodes a).children) ∧
      ∀ a, a ≠ node → (v'.inodes a).siblings = (v.inodes a).siblings) ∨
    ((v.inodes dir).children ≠ 0 ∧
      (∀ a, a ≠ node → (v'.inodes a).children = (v.inodes a).children) ∧
      ∃ last ∈ v.inodeBlocks, (v.inodes last).siblings = 0 ∧ (v'.inodes last).siblings = node ∧
        ∀ a, a ≠ node → a ≠ last → (v'.inodes a).siblings = (v.inodes a).siblings)

section Grown
variable {v v' : Vfs} {dir node : Word}

theorem Linked.mem_ne_zero (h : Linked v) (ha : a ∈ v.inodeBlocks) : a ≠ 0 :=
  fun h0 => h.zero (h0 ▸ ha)

/-- A walk along the children of a cached directory stays in the cache. -/
theorem Linked.findChild_mem (h : Linked v) (hd : dir ∈ v.inodeBlocks) {test : Word → Bool}
    (hf : v.findChild (v.inodes dir).children test = some a) (ha : a ≠ 0) :
    a ∈ v.inodeBlocks ∧ test a :=
  findAlong_some (S := fun a => a ∈ v.inodeBlocks) (fun b hb h0 => (h.sibling b hb h0).1)
    (fun h0 => (h.child dir hd h0).1) hf ha

section Links
variable (hg : Grown v dir node v') (ha : a ≠ node)
include hg ha

theorem Grown.children_of_ne (h : (v.inodes a).children ≠ 0 ∨ a ≠ dir) :
    (v'.inodes a).children = (v.inodes a).children := by
  rcases hg.link with ⟨h0, -, hc, -⟩ | ⟨-, hc, -⟩
  · refine hc a ha ?_
    rcases h with h | h
    · intro hd
      exact h (hd ▸ h0)
    · exact h
  · exact hc a ha

/-- A directory keeps a first child it has; `dir` has one afterwards. -/
theorem Grown.children_ne_zero (h : (v.inodes a).children ≠ 0 ∨ a = dir) :
    (v'.inodes a).children ≠ 0 := by
  by_cases hc : (v.inodes a).children = 0
  · have had : a = dir := h.resolve_left (not_not.mpr hc)
    rcases hg.link with ⟨-, hn, -⟩ | ⟨h0, -⟩
    · rw [had, hn]
      exact hg.ne_zero
    · exact absurd (had ▸ hc) h0
  · rw [hg.children_of_ne ha (.inl hc)]
    exact hc

theorem Grown.children_cases (h : (v'.inodes a).children ≠ 0) :
    ((v.inodes a).children ≠ 0 ∧ (v'.inodes a).children = (v.inodes a).children) ∨
      (a = dir ∧ (v.inodes a).children = 0 ∧ (v'.inodes a).children = node) := by
  by_cases hc : (v.inodes a).children = 0
  · by_cases had : a = dir
    · rcases hg.link with ⟨-, hn, -⟩ | ⟨h0, -⟩
      · exact .inr ⟨had, hc, had ▸ hn⟩
      · exact absurd (had ▸ hc) h0
    · rw [hg.children_of_ne ha (.inr had)] at h
      exact absurd hc h
  · exact .inl ⟨hc, hg.children_of_ne ha (.inl hc)⟩

theorem Grown.siblings_cases :
    (v'.inodes a).siblings = (v.inodes a).siblings ∨
      ((v'.inodes a).siblings = node ∧ (v.inodes dir).children ≠ 0 ∧ (v.inodes a).siblings = 0) := by
  rcases hg.link with ⟨-, -, -, hs⟩ | ⟨h0, -, last, -, hl0, hln, hs⟩
  · exact .inl (hs a ha)
  · by_cases hal : a = last
    · exact .inr ⟨hal ▸ hln, h0, hal ▸ hl0⟩
    · exact .inl (hs a ha hal)

omit ha in
theorem Grown.siblings_node (h : Linked v) {b : Word} (ha : a ∈ v.inodeBlocks)
    (hb : b ∈ v.inodeBlocks) (hna : (v'.inodes a).siblings = node)
    (hnb : (v'.inodes b).siblings = node) : a = b := by
  have hold : ∀ c ∈ v.inodeBlocks, (v.inodes c).siblings ≠ node := by
    intro c hc he
    exact hg.newInode (he ▸ (h.sibling c hc (he ▸ hg.ne_zero)).1)
  have hne : ∀ c ∈ v.inodeBlocks, c ≠ node := fun c hc he => hg.newInode (he ▸ hc)
  rcases hg.link with ⟨-, -, -, hs⟩ | ⟨-, -, last, -, -, -, hs⟩
  · exact absurd ((hs a (hne a ha)).symm.trans hna) (hold a ha)
  · have hlast : ∀ c ∈ v.inodeBlocks, (v'.inodes c).siblings = node → c = last := by
      intro c hc hn
      by_contra hcl
      exact hold c hc ((hs c (hne c hc) hcl).symm.trans hn)
    rw [hlast a ha hna, hlast b hb hnb]

end Links

theorem Linked.grown (h : Linked v) (hd : dir ∈ v.inodeBlocks) (hg : Grown v dir node v') :
    Linked v' := by
  have hne : ∀ a ∈ v.inodeBlocks, a ≠ node := fun a ha he => hg.newInode (he ▸ ha)
  have hmem : ∀ a, a ∈ v.inodeBlocks → a ∈ v'.inodeBlocks := fun a ha =>
    hg.blocks ▸ List.mem_cons_of_mem _ ha
  have hnode : node ∈ v'.inodeBlocks := hg.blocks ▸ .head _
  have hcases : ∀ a ∈ v'.inodeBlocks, a = node ∨ a ∈ v.inodeBlocks := fun a ha =>
    List.mem_cons.mp (hg.blocks ▸ ha)
  refine ⟨?_, ?_, ?_, ?_, ?_, ?_, ?_, ?_⟩
  · rw [hg.rootFs]
    exact hmem _ h.root
  · intro h0
    rcases hcases 0 h0 with h0 | h0
    · exact hg.ne_zero h0.symm
    · exact h.zero h0
  · rw [hg.blocks]
    exact List.nodup_cons.mpr ⟨hg.newInode, h.nodup⟩
  · rw [hg.rootFs, hg.parent _ (hne _ h.root)]
    exact h.rootParent
  · intro a ha har
    rcases hcases a ha with rfl | ha
    · rw [hg.nodeParent]
      exact ⟨hmem _ hd, hg.children_ne_zero (hne _ hd) (.inr rfl)⟩
    · rw [hg.rootFs] at har
      rw [hg.parent a (hne a ha)]
      obtain ⟨hp, hc⟩ := h.parent a ha har
      exact ⟨hmem _ hp, hg.children_ne_zero (hne _ hp) (.inl hc)⟩
  · intro a ha hc
    rcases hcases a ha with rfl | ha
    · exact absurd hg.nodeChildren hc
    · rcases hg.children_cases (hne a ha) hc with ⟨h0, he⟩ | ⟨had, -, he⟩
      · obtain ⟨hm, hp⟩ := h.child a ha h0
        rw [he, hg.parent _ (hne _ hm)]
        exact ⟨hmem _ hm, hp⟩
      · rw [he, hg.nodeParent]
        exact ⟨hnode, had.symm⟩
  · intro a ha hs
    rcases hcases a ha with rfl | ha
    · exact absurd hg.nodeSiblings hs
    rcases hg.siblings_cases (hne a ha) with he | ⟨he, hd0, -⟩
    · rw [he] at hs ⊢
      obtain ⟨hm, hf⟩ := h.sibling a ha hs
      refine ⟨hmem _ hm, ?_⟩
      rw [hg.parent _ (hne _ hm)]
      -- the directory of the sibling may have got its first child just now
      by_cases hp : (v.inodes (v.inodes a).siblings).parent = node
      · rw [hp, hg.nodeChildren]
        exact hs.symm
      · by_cases hz : (v'.inodes (v.inodes (v.inodes a).siblings).parent).children = 0
        · rw [hz]
          exact hs.symm
        · rcases hg.children_cases hp hz with ⟨-, hc⟩ | ⟨-, -, hc⟩
          · rw [hc]
            exact hf
          · rw [hc]
            exact (hne _ hm).symm
    · rw [he, hg.nodeParent, hg.children_of_ne (hne _ hd) (.inl hd0)]
      exact ⟨hnode, hne _ (h.child dir hd hd0).1⟩
  · intro a ha b hb hs he
    rcases hcases a ha with rfl | ha
    · exact absurd hg.nodeSiblings hs
    rcases hcases b hb with rfl | hb
    · exact absurd (he.trans hg.nodeSiblings) hs
    rcases hg.siblings_cases (hne a ha) with hsa | ⟨hsa, -⟩
    · rcases hg.siblings_cases (hne b hb) with hsb | ⟨hsb, -⟩
      · exact h.once a ha b hb (hsa ▸ hs) (hsa.symm.trans (he.trans hsb))
      · exact hg.siblings_node h ha hb (he.trans hsb) hsb
    · exact hg.siblings_node h ha hb hsa (he.symm.trans hsa)

theorem Pinned.grown (h : Linked v) (hg : Grown v dir node v') (ha : a ∈ v.inodeBlocks)
    (hp : Pinned v a) : Pinned v' a := by
  have hne : ∀ a ∈ v.inodeBlocks, a ≠ node := fun a ha he => hg.newInode (he ▸ ha)
  by_cases har : a = v.rootFs
  · exact .inl (har.trans hg.rootFs.symm)
  · have hc := hp.resolve_left har
    refine .inr ?_
    rw [hg.parent a (hne a ha), hg.children_of_ne (hne _ (h.parent a ha har).1)]
    · exact hc
    · exact .inl fun h0 => h.mem_ne_zero ha (hc.symm.trans h0)

end Grown

section Cut
variable {v v' : Vfs} {c i : Word}

/-- The pointers, the root and the allocated inodes are the same. -/
structure SameTree (v v' : Vfs) : Prop where
  blocks : v'.inodeBlocks = v.inodeBlocks
  rootFs : v'.rootFs = v.rootFs
  parent : ∀ a, (v'.inodes a).parent = (v.inodes a).parent
  children : ∀ a, (v'.inodes a).children = (v.inodes a).children
  siblings : ∀ a, (v'.inodes a).siblings = (v.inodes a).siblings

theorem Linked.same (h : Linked v) (hs : SameTree v v') : Linked v' := by
  obtain ⟨hb, hr, hp, hc, hsib⟩ := hs
  obtain ⟨h1, h2, h3, h4, h5, h6, h7, h8⟩ := h
  refine ⟨?_, ?_, ?_, ?_, ?_, ?_, ?_, ?_⟩ <;> simp only [hb, hr, hp, hc, hsib] <;> assumption

theorem Pinned.same (hs : SameTree v v') (hp : Pinned v a) : Pinned v' a := by
  unfold Pinned
  rw [hs.rootFs, hs.parent, hs.children]
  exact hp

/-- The inode `c` was taken out from behind `i`. -/
structure Cut (v : Vfs) (c i : Word) (v' : Vfs) : Prop where
  blocks : v'.inodeBlocks = v.inodeBlocks.erase c
  rootFs : v'.rootFs = v.rootFs
  parent : ∀ a, (v'.inodes a).parent = (v.inodes a).parent
  children : ∀ a, (v'.inodes a).children = (v.inodes a).children
  link : (v'.inodes i).siblings = (v.inodes c).siblings
  siblings : ∀ a, a ≠ i → (v'.inodes a).siblings = (v.inodes a).siblings

theorem Pinned.cut (hs : Cut v c i v') (hp : Pinned v a) : Pinned v' a := by
  unfold Pinned
  rw [hs.rootFs, hs.parent, hs.children]
  exact hp

/-- An inode without children that is behind another one can be taken out. -/
theorem Linked.cut (h : Linked v) (hc : Cut v c i v') (hcm : c ∈ v.inodeBlocks)
    (hcr : c ≠ v.rootFs) (hi : i ∈ v.inodeBlocks) (hic : (v.inodes i).siblings = c)
    (h0 : (v.inodes c).children = 0) :
    Linked v' ∧ ∀ a ∈ v'.inodeBlocks, (v'.inodes a).parent ≠ c := by
  have hc0 := h.mem_ne_zero hcm
  have hmem : ∀ a, a ∈ v'.inodeBlocks ↔ a ≠ c ∧ a ∈ v.inodeBlocks := by
    intro a
    rw [hc.blocks]
    exact h.nodup.mem_erase_iff
  have hfirst : ∀ a, (v.inodes a).children ≠ c ∨ (v.inodes c).parent ≠ a := by
    intro a
    by_contra hn
    rw [not_or, not_not, not_not] at hn
    have hs := (h.sibling i hi (hic ▸ hc0)).2
    rw [hic, hn.2] at hs
    exact hs hn.1
  have hparent : ∀ a ∈ v.inodeBlocks, (v.inodes a).parent ≠ c := by
    intro a ha he
    by_cases har : a = v.rootFs
    · exact hc0 (he.symm.trans (har ▸ h.rootParent))
    · exact (h.parent a ha har).2 (he ▸ h0)
  have hbehind : ∀ a ∈ v.inodeBlocks, (v.inodes a).siblings = c → a = i := fun a ha he =>
    h.once a ha i hi (he ▸ hc0) (he.trans hic.symm)
  refine ⟨⟨?_, ?_, ?_, ?_, ?_, ?_, ?_, ?_⟩, fun a ha => ?_⟩
  · rw [hmem, hc.rootFs]
    exact ⟨hcr.symm, h.root⟩
  · rw [hmem]
    exact fun h0 => h.zero h0.2
  · rw [hc.blocks]
    exact h.nodup.erase c
  · rw [hc.rootFs, hc.parent]
    exact h.rootParent
  · intro a ha har
    rw [hc.rootFs] at har
    obtain ⟨-, ha⟩ := (hmem a).mp ha
    obtain ⟨hp, hch⟩ := h.parent a ha har
    rw [hc.parent, hmem, hc.children]
    exact ⟨⟨hparent a ha, hp⟩, hch⟩
  · intro a ha hch
    obtain ⟨-, ha⟩ := (hmem a).mp ha
    rw [hc.children] at hch ⊢
    obtain ⟨hm, hp⟩ := h.child a ha hch
    rw [hmem, hc.parent]
    refine ⟨⟨fun he => ?_, hm⟩, hp⟩
    rcases hfirst a with hf | hf
    · exact hf he
    · exact hf (he ▸ hp)
  · intro a ha hs
    obtain ⟨hac, ha⟩ := (hmem a).mp ha
    rw [hmem, hc.parent, hc.children]
    by_cases hai : a = i
    · rw [hai, hc.link] at hs ⊢
      obtain ⟨hm, hf⟩ := h.sibling c hcm hs
      exact ⟨⟨fun he => hac (hai.trans (hbehind c hcm he).symm), hm⟩, hf⟩
    · rw [hc.siblings a hai] at hs ⊢
      obtain ⟨hm, hf⟩ := h.sibling a ha hs
      exact ⟨⟨fun he => hai (hbehind a ha he), hm⟩, hf⟩
  · intro a ha b hb hs he
    obtain ⟨hac, ha⟩ := (hmem a).mp ha
    obtain ⟨hbc, hb⟩ := (hmem b).mp hb
    by_cases hai : a = i
    · by_cases hbi : b = i
      · exact hai.trans hbi.symm
      · rw [hai, hc.link] at hs
        rw [hai, hc.link, hc.siblings b hbi] at he
        exact absurd (h.once c hcm b hb hs he).symm hbc
    · rw [hc.siblings a hai] at hs he
      by_cases hbi : b = i
      · rw [hbi, hc.link] at he
        exact absurd (h.once a ha c hcm hs he) hac
      · rw [hc.siblings b hbi] at he
        exact h.once a ha b hb hs he
  · rw [hc.parent]
    exact hparent a ((hmem a).mp ha).2

end Cut

section Lookup
variable {v w w' v' : Vfs} {d : Driver} {dir node : Word}

/-- A new inode without links; the rest is as before. -/
structure Fresh (v : Vfs) (node : Word) (w : Vfs) : Prop where
  ne_zero : node ≠ 0
  newInode : node ∉ v.inodeBlocks
  newFile : node ∉ v.fileBlocks
  blocks : w.inodeBlocks = node :: v.inodeBlocks
  rootFs : w.rootFs = v.rootFs
  files : w.files = v.files
  fileBlocks : w.fileBlocks = v.fileBlocks
  others : ∀ a, a ≠ node → w.inodes a = v.inodes a
  children : (w.inodes node).children = 0
  siblings : (w.inodes node).siblings = 0

theorem newInode_fresh {info : NodeInfo} (h : newInode v info = .ok (node, w)) :
    Fresh v node w := by
  obtain ⟨h0, hi, hf, supply, rfl⟩ := newInode_ok h
  exact ⟨h0, hi, hf, rfl, rfl, rfl, rfl, fun a ha => if_neg ha, by simp [setInode],
    by simp [setInode]⟩

theorem Fresh.setParent (h : Fresh v node w) (p : Word) :
    Fresh v node (w.setInode node (fun i => { i with parent := p })) := by
  refine ⟨h.ne_zero, h.newInode, h.newFile, h.blocks, h.rootFs, h.files, h.fileBlocks,
    fun a ha => ?_, ?_, ?_⟩
  · simp only [setInode, if_neg ha, h.others a ha]
  · simpa [setInode] using h.children
  · simpa [setInode] using h.siblings

variable (h : Linked v) (hd : dir ∈ v.inodeBlocks) (hw : Fresh v node w)
  (hl : linkChild w dir node = .ok w')
include h hd hw hl

/-- The link that linkChild writes is in the directory or in its last child. -/
theorem linkChild_fresh :
    ((v.inodes dir).children = 0 ∧ w' = w.setInode dir (fun i => { i with children := node })) ∨
    ∃ last ∈ v.inodeBlocks, (v.inodes dir).children ≠ 0 ∧ (v.inodes last).siblings = 0 ∧
      w' = w.setInode last (fun i => { i with siblings := node }) := by
  have hne : ∀ a ∈ v.inodeBlocks, w.inodes a = v.inodes a := fun a ha =>
    hw.others a fun he => hw.newInode (he ▸ ha)
  rcases linkChild_ok hl with ⟨hc, he⟩ | ⟨last, hc, hf, he⟩
  · rw [hne dir hd] at hc
    exact .inl ⟨hc, he⟩
  · have hlast0 := findAlong_last_ne hc hf
    rw [hne dir hd] at hc hf
    obtain ⟨hm, hs⟩ := findAlong_some (S := fun a => a ∈ v.inodeBlocks)
      (fun b hb h0 => by
        rw [hne b hb] at h0 ⊢
        exact (h.sibling b hb h0).1)
      (fun h0 => (h.child dir hd h0).1) hf hlast0
    have hs' := of_decide_eq_true hs
    rw [hne last hm] at hs'
    exact .inr ⟨last, hm, hc, hs', he⟩

theorem Fresh.grown (hfiles : v'.files = w'.files) (hfb : v'.fileBlocks = w'.fileBlocks)
    (hib : v'.inodeBlocks = w'.inodeBlocks) (hr : v'.rootFs = w'.rootFs)
    (hsame : ∀ a, a ≠ node → v'.inodes a = w'.inodes a)
    (hnode : v'.inodes node = { w'.inodes node with parent := dir }) : Grown v dir node v' := by
  have hq := linkChild_quiet hl
  have hblocks : w'.inodeBlocks = w.inodeBlocks := by
    rcases linkChild_ok hl with ⟨-, rfl⟩ | ⟨last, -, -, rfl⟩ <;> rfl
  have hdn : node ≠ dir := fun he => hw.newInode (he ▸ hd)
  have hlink := linkChild_fresh h hd hw hl
  -- neither link is in the new inode itself
  have hw' : w'.inodes node = w.inodes node := by
    rcases hlink with ⟨-, rfl⟩ | ⟨last, hm, -, -, rfl⟩
    · exact if_neg hdn
    · exact if_neg fun he : node = last => hw.newInode (he ▸ hm)
  refine ⟨hw.ne_zero, hw.newInode, hw.newFile, hib.trans (hblocks.trans hw.blocks),
    hr.trans (hq.rootFs.trans hw.rootFs), hfiles.trans (hq.files.trans hw.files),
    hfb.trans (hq.fileBlocks.trans hw.fileBlocks), fun a ha => ?_, by rw [hnode],
    by rw [hnode, hw']; exact hw.children, by rw [hnode, hw']; exact hw.siblings, ?_⟩
  · rw [hsame a ha, ← hw.others a ha]
    rcases hlink with ⟨-, rfl⟩ | ⟨last, -, -, -, rfl⟩
    · by_cases had : a = dir <;> simp [setInode, had]
    · by_cases hal : a = last <;> simp [setInode, hal]
  · rcases hlink with ⟨h0, rfl⟩ | ⟨last, hm, h0, hs, rfl⟩
    · refine .inl ⟨h0, ?_, fun a ha had => ?_, fun a ha => ?_⟩
      · rw [hsame dir hdn.symm]
        simp [setInode]
      · rw [hsame a ha, ← hw.others a ha]
        simp [setInode, had]
      · rw [hsame a ha, ← hw.others a ha]
        by_cases had : a = dir <;> simp [setInode, had]
    · have hln : last ≠ node := fun he => hw.newInode (he ▸ hm)
      refine .inr ⟨h0, fun a ha => ?_, last, hm, hs, ?_, fun a ha hal => ?_⟩
      · rw [hsame a ha, ← hw.others a ha]
        by_cases hal : a = last <;> simp [setInode, hal]
      · rw [hsame last hln]
        simp [setInode]
      · rw [hsame a ha, ← hw.others a ha]
        simp [setInode, hal]

omit hd hw hl in
/-- searchfunc in a cached directory: no change and a cached node or NULL, or a miss and
one new inode. -/
theorem searchfunc_grown {name : Text} (hd : dir = 0 ∨ dir ∈ v.inodeBlocks)
    (hs : searchfunc d v dir name = .ok (node, v')) :
    (v' = v ∧ (node = 0 ∨ node ∈ v.inodeBlocks)) ∨
    (dir ∈ v.inodeBlocks ∧ v.findChild (v.inodes dir).children
      (fun a => decide ((v.inodes a).name = name)) = some 0 ∧ Grown v dir node v') := by
  rcases searchfunc_ok hs with ⟨hn, hv⟩ | ⟨hn0, hw0, hv, hf⟩ | ⟨info, v1, v2, hw0, hf, hn, hl, rfl⟩
  · exact .inl ⟨hv, .inl hn⟩
  · exact .inl ⟨hv, .inr (h.findChild_mem (hd.resolve_left hw0) hf hn0).1⟩
  · have hdm := hd.resolve_left hw0
    refine .inr ⟨hdm, hf, (newInode_fresh hn).grown h hdm hl rfl rfl rfl rfl (fun a ha => ?_) ?_⟩
    · exact if_neg ha
    · exact if_pos rfl

omit hw hl in
theorem vfsNewInode_grown {path : Text} {flags : Word}
    (hs : vfsNewInode d v dir path flags = .ok (node, v')) :
    (v' = v ∧ node = 0) ∨ Grown v dir node v' := by
  rcases vfsNewInode_ok hs with ⟨hn, hv⟩ | ⟨info, v1, hn, hl⟩
  · exact .inl ⟨hv, hn⟩
  · have hw := (newInode_fresh hn).setParent dir
    refine .inr (hw.grown h hd hl rfl rfl rfl rfl (fun _ _ => rfl) ?_)
    have hp : (v'.inodes node).parent = dir := by
      rcases linkChild_fresh h hd hw hl with ⟨-, rfl⟩ | ⟨last, -, -, -, rfl⟩
      · by_cases hnd : node = dir <;> simp [setInode, hnd]
      · by_cases hnl : node = last <;> simp [setInode, hnl]
    rw [← hp]

end Lookup

section Unlink
variable {v v' : Vfs} {f : Word} {r : Option Detached}

/-- The ways through vfs_close for a file with a cached inode: nothing but the count
changes, or the inode is taken out from behind another one. -/
inductive ClosesCached (v : Vfs) (f : Word) (r : Option Detached) (v' : Vfs) : Prop where
  | kept (hr : r = none) (ht : SameTree v v')
      (hi : ∀ g, (v'.files g).inode = (v.files g).inode)
  | cut (d : Detached) (b : Word) (hr : r = some d) (hd : d.inode = (v.files f).inode)
      (hroot : d.inode ≠ v.rootFs) (hb : b ∈ v.inodeBlocks) (hs : (v.inodes b).siblings = d.inode)
      (hc : Cut v d.inode b v') (hlast : (v'.files f).refcount = 0) (h0 : (v'.files f).inode = 0)
      (hi : ∀ g, g ≠ f → (v'.files g).inode = (v.files g).inode)

theorem Linked.closes (h : Linked v) (hn : (v.files f).inode ∈ v.inodeBlocks)
    (hc : Closes v f r v') : ClosesCached v f r v' := by
  cases hc with
  | missing hi => exact absurd hi (h.mem_ne_zero hn)
  | root hc hr => exact .kept rfl ⟨rfl, rfl, fun _ => rfl, fun _ => rfl, fun _ => rfl⟩ fun _ => rfl
  | kept hc =>
    refine .kept rfl ⟨rfl, rfl, fun _ => rfl, fun _ => rfl, fun _ => rfl⟩ fun g => ?_
    by_cases hg : g = f <;> simp [countDown, setFile, hg]
  | orphan hc hi hr hp hd => exact absurd hp (h.mem_ne_zero (h.parent _ hn hr).1)
  | unlinked b hc hi hr hl hf hb0 hd =>
    obtain ⟨hbm, hbs⟩ := h.findChild_mem (h.parent _ hn hr).1 hf hb0
    obtain ⟨d, w, rfl, hdi, hk, rfl⟩ := detach_ok hd
    have hdc : d.inode = (v.files f).inode := by
      rw [hdi]
      simp [countDown, setFile, setInode]
    obtain ⟨-, rfl⟩ | ⟨hnm, -⟩ := kfree_ok hk
    · refine .cut d b rfl hdc (hdc ▸ hr) hbm (hdc ▸ of_decide_eq_true hbs)
        ⟨rfl, rfl, fun a => ?_, fun a => ?_, ?_, fun a ha => ?_⟩ ?_ ?_ fun g hg => ?_
      · by_cases hab : a = b <;> simp [countDown, setFile, setInode, hab]
      · by_cases hab : a = b <;> simp [countDown, setFile, setInode, hab]
      · simp [countDown, setFile, setInode, hdc]
      · simp [countDown, setFile, setInode, ha]
      · simpa [countDown, setFile, setInode] using hl
      · simp [setFile]
      · simp [countDown, setFile, setInode, hg]
    · exact absurd (hdc ▸ hn) hnm

end Unlink
end TapiOS.Fs
