import TapiOS.Fs.PathTree

/-!
# Mounting, vfs_mount of fs/vfs.c

The root of a file system takes the place of a node in its parent's children list.
-/
namespace TapiOS.Fs

open Lib Util Vfs

/-- vfs_mount; `none` is its PANIC and a loop that runs past the end of the list. -/
def vfsMount (v : Vfs) (mount target : Word) : Option Vfs :=
  let t := v.inodes target
  if t.children ≠ 0 ∨ t.parent = 0 then none
  else
    let v := v.setInode mount fun i =>
      { i with siblings := t.siblings, parent := t.parent, name := t.name }
    let i := (v.inodes t.parent).children
    if i = target then some (v.setInode t.parent fun p => { p with children := mount })
    else
      match v.findChild i fun a => decide ((v.inodes a).siblings = target) with
      | none => none
      | some q => if q = 0 then none else some (v.setInode q fun i => { i with siblings := mount })

/-- `mount` stands in the list of `parent` where `target` was, and nothing else has changed. -/
structure Mounts (v v' : Vfs) (parent mount target : Word) (ss : List Word) : Prop where
  kids : Kids v' parent (ss.map fun a => if a = target then mount else a)
  replaced : ∀ d, searchfunc d v' parent (v.inodes target).name = .ok (mount, v')
  others : ∀ d, ∀ c ∈ ss, c ≠ target → searchfunc d v parent (v.inodes c).name = .ok (c, v) ∧
    searchfunc d v' parent (v.inodes c).name = .ok (c, v')
  below : ∀ ts, Listing v mount ts → mount ∉ ts →
    Listing v' mount ts ∧ namesOf v' ts = namesOf v ts
  search : (v'.inodes mount).inodeNo = (v.inodes mount).inodeNo ∧
    (v'.inodes mount).acts = (v.inodes mount).acts

section Mount
variable {v v' : Vfs} {parent mount target : Word} {ss xs ys : List Word}

theorem Listing.search {d : Driver} {a c : Word} (h : Listing v a ss) (ha : a ≠ 0)
    (h0 : 0 ∉ v.inodeBlocks) (hc : c ∈ ss) : searchfunc d v a (v.inodes c).name = .ok (c, v) := by
  have hc0 : c ≠ 0 := fun he => h0 (he ▸ (h.mem c hc).1)
  unfold searchfunc
  rw [if_neg ha, h.find, h.find_name hc]
  exact if_pos hc0

/-- What vfs_mount makes of the inodes: it writes the record of `mount`, and the link of the
last of the nodes `xs` before `target` or the head of the list. -/
def mountInodes (v : Vfs) (parent mount target : Word) (xs : List Word) : Word → Inode := fun a =>
  if a = mount then { v.inodes mount with
    siblings := (v.inodes target).siblings, parent := parent, name := (v.inodes target).name }
  else { v.inodes a with
    children := if a = parent ∧ xs = [] then mount else (v.inodes a).children
    siblings := if xs.getLast? = some a then mount else (v.inodes a).siblings }

theorem mountInodes_other {a : Word} (ha : a ≠ mount) :
    mountInodes v parent mount target xs a = { v.inodes a with
      children := if a = parent ∧ xs = [] then mount else (v.inodes a).children
      siblings := if xs.getLast? = some a then mount else (v.inodes a).siblings } := if_neg ha

theorem mountInodes_mount : mountInodes v parent mount target xs mount = { v.inodes mount with
    siblings := (v.inodes target).siblings, parent := parent, name := (v.inodes target).name } :=
  if_pos rfl

theorem vfsMount_inodes (hl : Listing v parent (xs ++ target :: ys)) (hp : parent ≠ 0)
    (hch : (v.inodes target).children = 0) (hout : mount ∉ xs ++ target :: ys)
    (hmp : mount ≠ parent) :
    ∃ v', vfsMount v mount target = some v' ∧ v'.inodeBlocks = v.inodeBlocks ∧
      v'.rootFs = v.rootFs ∧ v'.inodes = mountInodes v parent mount target xs := by
  have hpar : (v.inodes target).parent = parent := (hl.mem target (by simp)).2
  have hnd := hl.nodup_kids
  generalize hv1 : v.setInode mount (fun i => { i with
    siblings := (v.inodes target).siblings, parent := parent, name := (v.inodes target).name }) = v1
  have hold : ∀ a, a ≠ mount → v1.inodes a = v.inodes a := fun a ha => by
    rw [← hv1]
    exact if_neg ha
  have hkids : Kids v1 parent (xs ++ target :: ys) := by
    unfold Kids
    rw [hold parent hmp.symm]
    exact hl.kids.congr fun a ha => by rw [hold a (fun he => hout (he ▸ ha))]
  have hnew : v1.inodes mount = { v.inodes mount with
      siblings := (v.inodes target).siblings, parent := parent, name := (v.inodes target).name } := by
    rw [← hv1]
    exact if_pos rfl
  unfold vfsMount
  simp only [hch, hpar, hp, hv1, ne_eq, not_true_eq_false, or_self, if_false]
  rcases List.eq_nil_or_concat' xs with rfl | ⟨zs, q, rfl⟩
  · have hstart : (v1.inodes parent).children = target := hkids.1
    rw [if_pos hstart]
    refine ⟨_, rfl, by rw [← hv1]; rfl, by rw [← hv1]; rfl, funext fun a => ?_⟩
    by_cases ha : a = mount
    · subst ha
      rw [mountInodes_mount]
      simp only [Vfs.setInode, if_neg hmp, hnew]
    · by_cases hap : a = parent
      · simp [mountInodes_other, Vfs.setInode, hap, hold parent hmp.symm, hmp.symm]
      · simp [mountInodes_other ha, Vfs.setInode, hap, hold a ha]
  · have hne : (v1.inodes parent).children ≠ target := by
      intro he
      cases zs with
      | nil => simp [← he, hkids.1] at hnd
      | cons b zs => simp [← he, hkids.1] at hnd
    have hshape : zs ++ [q] ++ target :: ys = zs ++ q :: target :: ys := by simp
    rw [hshape] at hkids hnd hout
    have hfind := Chain.find hkids (fun a => decide ((v1.inodes a).siblings = target))
      (nodup_length_le hnd)
    rw [Chain.find_link hkids hnd] at hfind
    have hq0 : q ≠ 0 := Chain.ne_null hkids q (by simp)
    have hqm : mount ≠ q := fun he => hout (by simp [he])
    rw [if_neg hne, Vfs.findChild, Vfs.loopBound, hfind]
    refine ⟨_, if_neg hq0, by rw [← hv1]; rfl, by rw [← hv1]; rfl, funext fun a => ?_⟩
    by_cases ha : a = mount
    · subst ha
      rw [mountInodes_mount]
      simp only [Vfs.setInode, Option.getD_some, if_neg hqm, hnew]
    · by_cases haq : a = q
      · simp [mountInodes_other, Vfs.setInode, haq, hold q hqm.symm, hqm.symm]
      · simp [mountInodes_other ha, Vfs.setInode, haq, hold a ha, Ne.symm haq]

/-- The node that is mounted stands where the other one was. -/
theorem listing_mounted (hl : Listing v parent (xs ++ target :: ys)) (hm0 : mount ≠ 0)
    (hm : mount ∈ v.inodeBlocks) (hout : mount ∉ xs ++ target :: ys) (hmp : mount ≠ parent)
    (hb : v'.inodeBlocks = v.inodeBlocks)
    (hi : v'.inodes = mountInodes v parent mount target xs) :
    Listing v' parent (xs ++ mount :: ys) := by
  have hnd := hl.nodup_kids
  have hne : ∀ a ∈ xs ++ ys, a ≠ mount := fun a ha he => hout (by
    subst he
    rcases List.mem_append.mp ha with ha | ha <;> simp [ha])
  -- no other node than the last one before `target` is linked anew
  have hlast : ∀ a ∈ xs.dropLast ++ ys, xs.getLast? ≠ some a := by
    rcases List.eq_nil_or_concat' xs with rfl | ⟨zs, q, rfl⟩
    · simp
    · intro a ha he
      simp only [List.dropLast_concat, List.getLast?_concat, Option.some.injEq] at ha he
      subst he
      rw [List.append_assoc, List.nodup_append] at hnd
      rcases List.mem_append.mp ha with ha | ha
      · exact hnd.2.2 q ha q (by simp) rfl
      · simp [ha] at hnd
  have hsib : ∀ a ∈ xs.dropLast ++ ys, (v'.inodes a).siblings = (v.inodes a).siblings := by
    intro a ha
    have hax : a ∈ xs ++ ys := by
      rcases List.mem_append.mp ha with h | h
      · exact List.mem_append_left _ (List.mem_of_mem_dropLast h)
      · exact List.mem_append_right _ h
    rw [hi, mountInodes_other (hne a hax)]
    exact if_neg (hlast a ha)
  have hnames : namesOf v' (xs ++ mount :: ys) = namesOf v (xs ++ target :: ys) := by
    have hmap (zs : List Word) (hz : ∀ a ∈ zs, a ≠ mount) : namesOf v' zs = namesOf v zs :=
      List.map_congr_left fun a ha => by rw [hi, mountInodes_other (hz a ha)]
    have hx := hmap xs fun a ha => hne a (by simp [ha])
    have hy := hmap ys fun a ha => hne a (by simp [ha])
    unfold namesOf at *
    rw [List.map_append, List.map_append, List.map_cons, List.map_cons, hx, hy, hi,
      mountInodes_mount]
  refine ⟨?_, fun c hc => ?_, hnames ▸ hl.nodup, hnames ▸ hl.nonempty⟩
  · have hstart : (v'.inodes parent).children =
        if xs = [] then mount else (v.inodes parent).children := by
      rw [hi, mountInodes_other hmp.symm]
      simp
    unfold Kids
    rw [hstart]
    refine Chain.replace hl.kids hm0 ?_ (fun q hq => ?_) (fun a ha => hsib a (by simp [ha]))
      fun a ha => hsib a (by simp [ha])
    · rw [hi, mountInodes_mount]
    · rw [hi, mountInodes_other (hne q (by simp [List.mem_of_getLast? hq]))]
      exact if_pos hq
  · rw [hb, hi]
    by_cases hcm : c = mount
    · subst hcm
      rw [mountInodes_mount]
      exact ⟨hm, rfl⟩
    · rw [mountInodes_other hcm]
      refine hl.mem c ?_
      rw [List.mem_append, List.mem_cons] at hc ⊢
      exact hc.imp_right fun h => .inr (h.resolve_left hcm)

/-- The children of another directory are as they were. -/
theorem mountInodes_child {a c : Word} {ts : List Word} (hl : Listing v parent (xs ++ target :: ys))
    (hi : v'.inodes = mountInodes v parent mount target xs) (hap : a ≠ parent)
    (hts : Listing v a ts) (hno : mount ∉ ts) (hc : c ∈ ts) :
    (v'.inodes c).siblings = (v.inodes c).siblings ∧ (v'.inodes c).name = (v.inodes c).name ∧
      (v'.inodes c).parent = (v.inodes c).parent := by
  have hcp := (hts.mem c hc).2
  have hlast : xs.getLast? ≠ some c := fun he =>
    hap (hcp.symm.trans (hl.mem c (by simp [List.mem_of_getLast? he])).2)
  have hcm : c ≠ mount := fun he => hno (he ▸ hc)
  rw [hi, mountInodes_other hcm, if_neg hlast]
  exact ⟨rfl, rfl, rfl⟩

theorem listing_elsewhere {a : Word} {ts : List Word} (hl : Listing v parent (xs ++ target :: ys))
    (hb : v'.inodeBlocks = v.inodeBlocks) (hi : v'.inodes = mountInodes v parent mount target xs)
    (hap : a ≠ parent) (hts : Listing v a ts) (hno : mount ∉ ts) : Listing v' a ts := by
  refine hts.congr ?_ (hb ▸ List.Subset.refl _) fun c => mountInodes_child hl hi hap hts hno
  rw [hi]
  by_cases ham : a = mount
  · rw [ham, mountInodes_mount]
  · rw [mountInodes_other ham, if_neg fun h => hap h.1]

theorem mountInodes_number (a : Word) :
    (mountInodes v parent mount target xs a).inodeNo = (v.inodes a).inodeNo ∧
      (mountInodes v parent mount target xs a).acts = (v.inodes a).acts := by
  by_cases ha : a = mount
  · rw [ha, mountInodes_mount]
    exact ⟨rfl, rfl⟩
  · rw [mountInodes_other ha]
    exact ⟨rfl, rfl⟩

/-- Mounting another file system on an own directory: the cache still shows the tree, but for
the name that leads to the mount. -/
theorem vfsMount_mirrors {T : Tree} {P : Part} (hc : Cached v) (hm : Mirrors T v P)
    (hp : parent ∈ v.inodeBlocks) (hown : P.own (v.inodes parent).inodeNo)
    (hl : Listing v parent ss) (ht : target ∈ ss) (hch : (v.inodes target).children = 0)
    (hmm : mount ∈ v.inodeBlocks) (hpar : (v.inodes mount).parent = 0) (hroot : mount ≠ v.rootFs)
    (hfor : ¬P.own (v.inodes mount).inodeNo) :
    ∃ v', vfsMount v mount target = some v' ∧ Cached v' ∧
      Mirrors T v' (P.mount (v.inodes parent).inodeNo (v.inodes target).name) := by
  -- `mount` is in no list: it has no parent
  have hno : ∀ a ∈ v.inodeBlocks, ∀ ts, Listing v a ts → mount ∉ ts := fun a ha ts hts hm =>
    hc.ne_zero ha ((hts.mem mount hm).2.symm.trans hpar)
  have hmp : mount ≠ parent := fun he => hfor (he ▸ hown)
  obtain ⟨xs, ys, rfl⟩ := List.append_of_mem ht
  have hout := hno parent hp _ hl
  obtain ⟨v', hv, hb, hr, hi⟩ := vfsMount_inodes hl (hc.ne_zero hp) hch hout hmp
  have hl' := listing_mounted hl (hc.ne_zero hmm) hmm hout hmp hb hi
  have hnum : ∀ a, (v'.inodes a).inodeNo = (v.inodes a).inodeNo ∧
      (v'.inodes a).acts = (v.inodes a).acts := fun a => hi ▸ mountInodes_number a
  refine ⟨v', hv, ⟨?_, hb ▸ hc.zero, hb ▸ hc.distinct, ?_, ?_, fun a ha => ?_⟩,
    ⟨?_, hm.top, hm.below, fun a ha => ?_, fun a ha hao => ?_, fun a ha hao us hu c hcu hcm => ?_⟩⟩
  · rw [hb, hr]
    exact hc.root
  · rw [hr, hi, mountInodes_other hroot.symm]
    exact hc.rootParent
  · rw [hr, (hnum _).2]
    exact hc.rootActs
  · rw [hb] at ha
    by_cases hap : a = parent
    · exact ⟨_, hap ▸ hl'⟩
    · obtain ⟨ts, hts⟩ := hc.lists a ha
      exact ⟨ts, listing_elsewhere hl hb hi hap hts (hno a ha ts hts)⟩
  · rw [hr, (hnum _).1]
    exact hm.root
  · rw [(hnum a).1]
    exact hm.nodes a (hb ▸ ha)
  · rw [(hnum a).1] at hao ⊢
    rw [(hnum a).2]
    exact hm.acts a (hb ▸ ha) hao
  · rw [hb] at ha
    rw [(hnum a).1] at hao hcm ⊢
    rw [(hnum c).1]
    obtain ⟨hold, hnew⟩ := Bool.or_eq_false_iff.mp hcm
    by_cases hap : a = parent
    · subst hap
      rw [Chain.unique hu hl'.kids] at hcu
      by_cases hcmount : c = mount
      · rw [hcmount, hi, mountInodes_mount] at hnew
        simp at hnew
      · rw [hi, mountInodes_other hcmount] at hold ⊢
        refine hm.child a ha hao _ hl.kids c ?_ hold
        rw [List.mem_append, List.mem_cons] at hcu ⊢
        exact hcu.imp_right fun h => .inr (h.resolve_left hcmount)
    · obtain ⟨ts, hts⟩ := hc.lists a ha
      have hmts := hno a ha ts hts
      rw [Chain.unique hu (listing_elsewhere hl hb hi hap hts hmts).kids] at hcu
      rw [(mountInodes_child hl hi hap hts hmts hcu).2.1] at hold ⊢
      exact hm.child a ha hao ts hts.kids c hcu hold

end Mount

/-- A node that is neither in the list nor the directory itself takes the place of the other
one in it: under its name lookups find the new node, all others find what they found, and
below it they go through its own children and driver. -/
theorem mount_replaces_one {v : Vfs} {parent mount target : Word} {ss : List Word}
    (h0 : 0 ∉ v.inodeBlocks) (hp : parent ≠ 0) (hl : Listing v parent ss) (ht : target ∈ ss)
    (hch : (v.inodes target).children = 0) (hm : mount ∈ v.inodeBlocks) (hout : mount ∉ ss)
    (hmp : mount ≠ parent) :
    ∃ v', vfsMount v mount target = some v' ∧ Mounts v v' parent mount target ss := by
  obtain ⟨xs, ys, rfl⟩ := List.append_of_mem ht
  have hnd := hl.nodup_kids
  obtain ⟨v', hv, hb, -, hi⟩ := vfsMount_inodes hl hp hch hout hmp
  have hl' := listing_mounted hl (fun he => h0 (he ▸ hm)) hm hout hmp hb hi
  have h0' : 0 ∉ v'.inodeBlocks := hb ▸ h0
  have hname : (v'.inodes mount).name = (v.inodes target).name := by rw [hi, mountInodes_mount]
  refine ⟨v', hv, ?_, fun d => ?_, fun d c hcs hct => ?_, fun ts hts hno => ?_, ?_⟩
  · have hmap (zs : List Word) (hz : target ∉ zs) :
        zs.map (fun a => if a = target then mount else a) = zs :=
      (List.map_congr_left fun a ha => if_neg (ne_of_mem_of_not_mem ha hz)).trans (List.map_id zs)
    rw [List.nodup_middle, List.nodup_cons, List.mem_append, not_or] at hnd
    rw [List.map_append, List.map_cons, if_pos rfl, hmap xs hnd.1.1, hmap ys hnd.1.2]
    exact hl'.kids
  · rw [← hname]
    exact hl'.search hp h0' (by simp)
  · refine ⟨hl.search hp h0 hcs, ?_⟩
    have hcm : c ≠ mount := fun he => hout (he ▸ hcs)
    have hcn : (v'.inodes c).name = (v.inodes c).name := by rw [hi, mountInodes_other hcm]
    rw [← hcn]
    refine hl'.search hp h0' ?_
    rw [List.mem_append, List.mem_cons] at hcs ⊢
    exact hcs.imp_right fun h => .inr (h.resolve_left hct)
  · exact ⟨listing_elsewhere hl hb hi hmp hts hno, List.map_congr_left fun c hcs =>
      (mountInodes_child hl hi hmp hts hno hcs).2.1⟩
  · rw [hi]
    exact mountInodes_number mount

/-- The root at 1 with the children "a" at 2 and "b" at 3, and another root at 4. -/
def twoChildren : Vfs where
  inodes a :=
    if a = 1 then ⟨1, [], ⟨true, true, true, true, false⟩, 0, 2, 0⟩
    else if a = 2 then ⟨2, [0x61], ⟨true, true, true, true, false⟩, 1, 0, 3⟩
    else if a = 3 then ⟨3, [0x62], ⟨true, true, true, true, false⟩, 1, 0, 0⟩
    else ⟨4, [0x63], ⟨true, true, true, true, false⟩, 0, 0, 0⟩
  files _ := ⟨0, 0, 0⟩
  rootFs := 1
  inodeBlocks := [1, 2, 3, 4]
  fileBlocks := []
  supply := []

/-- The other root on "b". -/
theorem mount_replaces_second : ∃ v', vfsMount twoChildren 4 3 = some v' ∧
    Mounts twoChildren v' 1 4 3 [2, 3] :=
  have hl : Listing twoChildren 1 [2, 3] :=
    ⟨⟨rfl, by decide, rfl, by decide, rfl⟩, by simp [twoChildren], by decide, by decide⟩
  mount_replaces_one (by decide) (by decide) hl (by decide) rfl (by decide) (by decide) (by decide)

/-- A node that is already in the list cuts off what it is to replace. -/
theorem mount_of_sibling_lost : vfsMount twoChildren 2 3 = none := by
  decide

end TapiOS.Fs
