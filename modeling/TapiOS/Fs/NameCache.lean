import Mathlib.Data.List.Find
import TapiOS.Fs.NameTree

/-!
# The cached children lists

A cached directory keeps its children in a list. Lookups and creations put new inodes
behind the last one, so what a directory holds stays where it is and a path that was
walked once is walked again without a change.
-/
namespace TapiOS.Fs

open Lib Util Vfs

/-- The children of a node in the order of its list. -/
def Kids (v : Vfs) (a : Word) (ss : List Word) : Prop :=
  Chain 0 (fun x => (v.inodes x).siblings) (v.inodes a).children ss

def namesOf (v : Vfs) (ss : List Word) : List Text := ss.map fun c => (v.inodes c).name

/-- A children list in order: allocated inodes with the node as parent, and pairwise
different non-empty names. -/
structure Listing (v : Vfs) (a : Word) (ss : List Word) : Prop where
  kids : Kids v a ss
  mem : ∀ c ∈ ss, c ∈ v.inodeBlocks ∧ (v.inodes c).parent = a
  nodup : (namesOf v ss).Nodup
  nonempty : [] ∉ namesOf v ss

/-- A list is read from the links, names and parents of its nodes. -/
theorem Listing.congr {v v' : Vfs} {a : Word} {ss : List Word} (h : Listing v a ss)
    (hch : (v'.inodes a).children = (v.inodes a).children) (hb : v.inodeBlocks ⊆ v'.inodeBlocks)
    (hrec : ∀ c ∈ ss, (v'.inodes c).siblings = (v.inodes c).siblings ∧
      (v'.inodes c).name = (v.inodes c).name ∧ (v'.inodes c).parent = (v.inodes c).parent) :
    Listing v' a ss := by
  have hnames : namesOf v' ss = namesOf v ss := List.map_congr_left fun c hc => (hrec c hc).2.1
  refine ⟨?_, fun c hc => ?_, hnames ▸ h.nodup, hnames ▸ h.nonempty⟩
  · unfold Kids
    rw [hch]
    exact h.kids.congr fun c hc => (hrec c hc).1
  · rw [(hrec c hc).2.2]
    exact (h.mem c hc).imp_left (@hb c)

/-- Every allocated inode has its children list in order. -/
structure Cached (v : Vfs) : Prop where
  root : v.rootFs ∈ v.inodeBlocks
  zero : 0 ∉ v.inodeBlocks
  distinct : v.inodeBlocks.Nodup
  rootParent : (v.inodes v.rootFs).parent = 0
  rootActs : (v.inodes v.rootFs).acts.iAct ∧ (v.inodes v.rootFs).acts.search
  lists : ∀ a ∈ v.inodeBlocks, ∃ ss, Listing v a ss

theorem Cached.ne_zero {v : Vfs} (h : Cached v) {a : Word} (ha : a ∈ v.inodeBlocks) : a ≠ 0 :=
  fun he => h.zero (he ▸ ha)

/-- The driver names a node as it was asked for. -/
def Driver.Honest (d : Driver) : Prop :=
  ∀ i name info, d.search i name = some info → info.name = name

/-- Directories only got new children behind those they had. -/
structure Extends (v v' : Vfs) : Prop where
  blocks : ∀ a ∈ v.inodeBlocks, a ∈ v'.inodeBlocks
  rootFs : v'.rootFs = v.rootFs
  record : ∀ a ∈ v.inodeBlocks, (v'.inodes a).inodeNo = (v.inodes a).inodeNo ∧
    (v'.inodes a).name = (v.inodes a).name ∧ (v'.inodes a).acts = (v.inodes a).acts
  kids : ∀ a ∈ v.inodeBlocks, ∀ ss, Kids v a ss → ∃ ts, Kids v' a (ss ++ ts)

/-- The new inode `node` became the last of the children `ss` of `dir`. -/
structure Added (v : Vfs) (dir node : Word) (info : NodeInfo) (ss : List Word) (v' : Vfs) :
    Prop where
  ne_zero : node ≠ 0
  newInode : node ∉ v.inodeBlocks
  newFile : node ∉ v.fileBlocks
  blocks : v'.inodeBlocks = node :: v.inodeBlocks
  rootFs : v'.rootFs = v.rootFs
  files : v'.files = v.files
  fileBlocks : v'.fileBlocks = v.fileBlocks
  supply : v.supply = node :: v'.supply
  record : v'.inodes node = ⟨info.inodeNo, info.name, info.acts, dir, 0, 0⟩
  link : (ss = [] ∧ v'.inodes dir = { v.inodes dir with children := node } ∧
      ∀ a, a ≠ node → a ≠ dir → v'.inodes a = v.inodes a) ∨
    ∃ xs q, ss = xs ++ [q] ∧ v'.inodes q = { v.inodes q with siblings := node } ∧
      ∀ a, a ≠ node → a ≠ q → v'.inodes a = v.inodes a

section Lists
variable {v v' : Vfs} {a dir node : Word} {ss ts : List Word} {info : NodeInfo}

theorem Listing.nodup_kids (h : Listing v a ss) : ss.Nodup := List.Nodup.of_map _ h.nodup

theorem Listing.find (h : Listing v a ss) (test : Word → Bool) :
    v.findChild (v.inodes a).children test = some ((ss.find? test).getD 0) :=
  Chain.find h.kids test (nodup_length_le h.nodup_kids)

theorem Listing.find_name (h : Listing v a ss) {c : Word} (hc : c ∈ ss) :
    ss.find? (fun x => decide ((v.inodes x).name = (v.inodes c).name)) = some c := by
  have hinj := List.inj_on_of_nodup_map h.nodup
  cases hf : ss.find? (fun x => decide ((v.inodes x).name = (v.inodes c).name)) with
  | none => simpa using List.find?_eq_none.mp hf c hc
  | some x =>
    have hx : (v.inodes x).name = (v.inodes c).name := by simpa using List.find?_some hf
    rw [hinj (List.mem_of_find?_eq_some hf) hc hx]

theorem Extends.refl (v : Vfs) : Extends v v :=
  ⟨fun _ h => h, rfl, fun _ _ => ⟨rfl, rfl, rfl⟩,
    fun _ _ ss h => ⟨[], by rwa [List.append_nil]⟩⟩

theorem Extends.of_inodes (hi : v'.inodes = v.inodes) (hb : v'.inodeBlocks = v.inodeBlocks)
    (hr : v'.rootFs = v.rootFs) : Extends v v' := by
  refine ⟨fun a ha => hb ▸ ha, hr, fun a _ => by rw [hi]; exact ⟨rfl, rfl, rfl⟩,
    fun a _ ss hk => ⟨[], ?_⟩⟩
  rw [List.append_nil, Kids, hi]
  exact hk

theorem Extends.trans {v'' : Vfs} (h : Extends v v') (h' : Extends v' v'') : Extends v v'' := by
  refine ⟨fun a ha => h'.blocks a (h.blocks a ha), h'.rootFs.trans h.rootFs, fun a ha => ?_,
    fun a ha ss hs => ?_⟩
  · obtain ⟨h1, h2, h3⟩ := h.record a ha
    obtain ⟨h1', h2', h3'⟩ := h'.record a (h.blocks a ha)
    exact ⟨h1'.trans h1, h2'.trans h2, h3'.trans h3⟩
  · obtain ⟨ts, ht⟩ := h.kids a ha ss hs
    obtain ⟨us, hu⟩ := h'.kids a (h.blocks a ha) _ ht
    exact ⟨ts ++ us, by rwa [← List.append_assoc]⟩

theorem newInode_supply {w : Vfs} (h : newInode v info = .ok (node, w)) :
    v.supply = node :: w.supply := by
  unfold newInode Vfs.kmalloc at h
  split at h
  · cases h
  next hk =>
    split at hk
    · cases hk
    next hsup =>
      split_ifs at hk
      cases hk
      cases h
      exact hsup

/-- The link goes into the directory without children, or into the last child. -/
theorem Fresh.link {w w' : Vfs} (h : Fresh v node w) (hd : dir ∈ v.inodeBlocks)
    (hl : Listing v dir ss) (hlink : linkChild w dir node = .ok w') :
    (ss = [] ∧ w' = w.setInode dir (fun i => { i with children := node })) ∨
      ∃ xs q, ss = xs ++ [q] ∧ w' = w.setInode q (fun i => { i with siblings := node }) := by
  have hold : ∀ a ∈ v.inodeBlocks, w.inodes a = v.inodes a := fun a ha =>
    h.others a fun he => h.newInode (he ▸ ha)
  have hkids : Kids w dir ss := by
    unfold Kids
    rw [hold dir hd]
    exact hl.kids.congr fun c hc => by rw [hold c (hl.mem c hc).1]
  have hfind := Chain.find hkids (fun a => decide ((w.inodes a).siblings = 0))
    (nodup_length_le hl.nodup_kids)
  rcases List.eq_nil_or_concat' ss with rfl | ⟨xs, q, rfl⟩
  · have h0 : (w.inodes dir).children = 0 := hkids
    unfold linkChild at hlink
    rw [if_pos h0] at hlink
    exact .inl ⟨rfl, (Except.ok.inj hlink).symm⟩
  · have h0 : (w.inodes dir).children ≠ 0 := Chain.head_ne hkids (by simp)
    rw [Chain.find_last hkids] at hfind
    unfold linkChild at hlink
    rw [if_neg h0, Vfs.findChild, Vfs.loopBound, hfind] at hlink
    exact .inr ⟨xs, q, rfl, (Except.ok.inj hlink).symm⟩

variable (h : Added v dir node info ss v')
include h

theorem Added.old (ha : a ∈ v.inodeBlocks) :
    ∃ c s, v'.inodes a = { v.inodes a with children := c, siblings := s } := by
  have hne : a ≠ node := fun he => h.newInode (he ▸ ha)
  rcases h.link with ⟨-, hdir, ho⟩ | ⟨xs, q, -, hq, ho⟩
  · by_cases had : a = dir
    · exact ⟨_, _, had ▸ hdir⟩
    · exact ⟨_, _, ho a hne had⟩
  · by_cases haq : a = q
    · exact ⟨_, _, haq ▸ hq⟩
    · exact ⟨_, _, ho a hne haq⟩

theorem Added.names (ht : ∀ c ∈ ts, c ∈ v.inodeBlocks) : namesOf v' ts = namesOf v ts := by
  refine List.map_congr_left fun c hc => ?_
  obtain ⟨_, _, he⟩ := h.old (ht c hc)
  rw [he]

theorem Added.kids (hd : dir ∈ v.inodeBlocks) (hl : Listing v dir ss) :
    Kids v' dir (ss ++ [node]) := by
  have hdn : dir ≠ node := fun he => h.newInode (he ▸ hd)
  have hsib : (v'.inodes node).siblings = 0 := by rw [h.record]
  rcases h.link with ⟨rfl, hdir, -⟩ | ⟨xs, q, rfl, hq, ho⟩
  · refine ⟨?_, h.ne_zero, hsib⟩
    rw [hdir]
  · have hq' : (v'.inodes q).siblings = node := by rw [hq]
    have hch : (v'.inodes dir).children = (v.inodes dir).children := by
      by_cases hdq : dir = q
      · rw [hdq, hq]
      · rw [ho dir hdn hdq]
    unfold Kids
    rw [hch, List.append_assoc]
    refine Chain.append hl.kids h.ne_zero hq' hsib fun c hc => ?_
    have hcm := (hl.mem c (by simp [hc])).1
    have hcq : c ≠ q := by
      intro he
      have hd := hl.nodup_kids
      rw [List.nodup_append] at hd
      exact hd.2.2 c hc q (by simp) he
    rw [ho c (fun he => h.newInode (he ▸ hcm)) hcq]

theorem Added.listing (hd : dir ∈ v.inodeBlocks) (hl : Listing v dir ss) (hne : info.name ≠ [])
    (hnew : info.name ∉ namesOf v ss) : Listing v' dir (ss ++ [node]) := by
  have hnames : namesOf v' (ss ++ [node]) = namesOf v ss ++ [info.name] := by
    have hold := h.names fun c hc => (hl.mem c hc).1
    unfold namesOf at hold ⊢
    rw [List.map_append, hold, List.map_singleton, h.record]
  refine ⟨h.kids hd hl, fun c hc => ?_, ?_, ?_⟩
  · rcases List.mem_append.mp hc with hc | hc
    · obtain ⟨hm, hp⟩ := hl.mem c hc
      obtain ⟨_, _, he⟩ := h.old hm
      rw [h.blocks, he]
      exact ⟨.tail _ hm, hp⟩
    · rw [List.mem_singleton.mp hc, h.blocks, h.record]
      exact ⟨.head _, rfl⟩
  · rw [hnames, List.nodup_append]
    refine ⟨hl.nodup, List.nodup_singleton _, fun x hx y hy he => ?_⟩
    rw [List.mem_singleton.mp hy] at he
    exact hnew (he ▸ hx)
  · rw [hnames, List.mem_append, List.mem_singleton, not_or]
    exact ⟨hl.nonempty, hne.symm⟩

theorem Added.listing_other (hl : Listing v dir ss) (ha : a ∈ v.inodeBlocks) (had : a ≠ dir)
    (hla : Listing v a ts) : Listing v' a ts := by
  have hne : ∀ c ∈ v.inodeBlocks, c ≠ node := fun c hc he => h.newInode (he ▸ hc)
  have hch : (v'.inodes a).children = (v.inodes a).children := by
    rcases h.link with ⟨-, -, ho⟩ | ⟨xs, q, -, hq, ho⟩
    · rw [ho a (hne a ha) had]
    · by_cases haq : a = q
      · rw [haq, hq]
      · rw [ho a (hne a ha) haq]
  -- the written link is in a child of `dir`
  have hsib : ∀ c ∈ ts, (v'.inodes c).siblings = (v.inodes c).siblings := by
    intro c hc
    obtain ⟨hm, hp⟩ := hla.mem c hc
    rcases h.link with ⟨-, hdir, ho⟩ | ⟨xs, q, hss, hq, ho⟩
    · by_cases hcd : c = dir
      · rw [hcd, hdir]
      · rw [ho c (hne c hm) hcd]
    · have hcq : c ≠ q := by
        intro he
        have hpq := (hl.mem q (by rw [hss]; simp)).2
        rw [← he, hp] at hpq
        exact had hpq
      rw [ho c (hne c hm) hcq]
  refine hla.congr hch (h.blocks ▸ List.subset_cons_self _ _) fun c hc => ?_
  obtain ⟨_, _, he⟩ := h.old (hla.mem c hc).1
  exact ⟨hsib c hc, by rw [he], by rw [he]⟩

theorem Added.extends (hc : Cached v) (hd : dir ∈ v.inodeBlocks) (hl : Listing v dir ss) :
    Extends v v' := by
  refine ⟨fun a ha => h.blocks ▸ List.mem_cons_of_mem _ ha, h.rootFs, fun a ha => ?_,
    fun a ha ts ht => ?_⟩
  · obtain ⟨_, _, he⟩ := h.old ha
    rw [he]
    exact ⟨rfl, rfl, rfl⟩
  · by_cases had : a = dir
    · subst had
      rw [Chain.unique ht hl.kids]
      exact ⟨[node], h.kids hd hl⟩
    · obtain ⟨us, hu⟩ := hc.lists a ha
      obtain rfl := Chain.unique ht hu.kids
      exact ⟨[], by rw [List.append_nil]; exact (h.listing_other hl ha had hu).kids⟩

theorem Added.cached (hc : Cached v) (hd : dir ∈ v.inodeBlocks) (hl : Listing v dir ss)
    (hne : info.name ≠ []) (hnew : info.name ∉ namesOf v ss) : Cached v' := by
  obtain ⟨_, _, hroot⟩ := h.old hc.root
  refine ⟨?_, ?_, ?_, ?_, ?_, fun a ha => ?_⟩
  · rw [h.blocks, h.rootFs]
    exact .tail _ hc.root
  · rw [h.blocks, List.mem_cons, not_or]
    exact ⟨h.ne_zero.symm, hc.zero⟩
  · rw [h.blocks]
    exact List.nodup_cons.mpr ⟨h.newInode, hc.distinct⟩
  · rw [h.rootFs, hroot]
    exact hc.rootParent
  · rw [h.rootFs, hroot]
    exact hc.rootActs
  · rw [h.blocks] at ha
    rcases List.mem_cons.mp ha with rfl | ha
    · refine ⟨[], ?_, List.forall_mem_nil _, List.nodup_nil, List.not_mem_nil⟩
      show (v'.inodes a).children = 0
      rw [h.record]
    · by_cases had : a = dir
      · rw [had]
        exact ⟨_, h.listing hd hl hne hnew⟩
      · obtain ⟨ts, ht⟩ := hc.lists a ha
        exact ⟨ts, h.listing_other hl ha had ht⟩

end Lists

section Lookups
variable {v v' : Vfs} {d : Driver} {dir node : Word} {name : Text}

theorem setInode_self {f : Inode → Inode} (h : f (v.inodes node) = v.inodes node) :
    v.setInode node f = v := by
  refine congrArg (fun g => { v with inodes := g }) (funext fun a => ?_)
  by_cases ha : a = node
  · rw [if_pos ha, ha, h]
  · rw [if_neg ha]

theorem Fresh.added {w w' : Vfs} {info : NodeInfo} {ss : List Word} (h : Fresh v node w)
    (hd : dir ∈ v.inodeBlocks) (hl : Listing v dir ss) (hlink : linkChild w dir node = .ok w')
    (hsup : v.supply = node :: w.supply)
    (hrec : { w.inodes node with parent := dir } = ⟨info.inodeNo, info.name, info.acts, dir, 0, 0⟩) :
    Added v dir node info ss (w'.setInode node (fun i => { i with parent := dir })) := by
  have hnd : node ≠ dir := fun he => h.newInode (he ▸ hd)
  rcases h.link hd hl hlink with ⟨hss, rfl⟩ | ⟨xs, q, hss, rfl⟩
  · refine ⟨h.ne_zero, h.newInode, h.newFile, h.blocks, h.rootFs, h.files, h.fileBlocks, hsup,
      ?_, .inl ⟨hss, ?_, fun a ha had => ?_⟩⟩
    · simpa [setInode, hnd] using hrec
    · simp [setInode, hnd.symm, h.others dir hnd.symm]
    · simp [setInode, ha, had, h.others a ha]
  · have hqm := (hl.mem q (by rw [hss]; simp)).1
    have hnq : node ≠ q := fun he => h.newInode (he ▸ hqm)
    refine ⟨h.ne_zero, h.newInode, h.newFile, h.blocks, h.rootFs, h.files, h.fileBlocks, hsup,
      ?_, .inr ⟨xs, q, hss, ?_, fun a ha haq => ?_⟩⟩
    · simpa [setInode, hnq] using hrec
    · simp [setInode, hnq.symm, h.others q hnq.symm]
    · simp [setInode, ha, haq, h.others a ha]

/-- The name is in the cache. -/
def Holds (v : Vfs) (dir : Word) (name : Text) (node : Word) : Prop :=
  ∃ ss, Listing v dir ss ∧ ss.find? (fun a => decide ((v.inodes a).name = name)) = some node

/-- What searchfunc does in a cached directory. -/
inductive Searched (d : Driver) (v : Vfs) (dir : Word) (name : Text) : Word → Vfs → Prop where
  | cached {node : Word} (h : Holds v dir name node) : Searched d v dir name node v
  | absent {ss : List Word} (hl : Listing v dir ss) (hn : name ∉ namesOf v ss)
      (hd : (v.inodes dir).acts.iAct → (v.inodes dir).acts.search →
        d.search (v.inodes dir) name = none) : Searched d v dir name 0 v
  | loaded {ss : List Word} {node : Word} {info : NodeInfo} {v' : Vfs} (hl : Listing v dir ss)
      (hn : name ∉ namesOf v ss) (hacts : (v.inodes dir).acts.search)
      (hd : d.search (v.inodes dir) name = some info) (ha : Added v dir node info ss v') :
      Searched d v dir name node v'

theorem searchfunc_searched (hc : Cached v) (hdir : dir ∈ v.inodeBlocks)
    (h : searchfunc d v dir name = .ok (node, v')) : Searched d v dir name node v' := by
  obtain ⟨ss, hl⟩ := hc.lists dir hdir
  have h0 := hc.ne_zero hdir
  unfold searchfunc at h
  rw [if_neg h0, hl.find] at h
  dsimp only at h
  cases hf : ss.find? (fun a => decide ((v.inodes a).name = name)) with
  | some c =>
    have hcm := (hl.mem c (List.mem_of_find?_eq_some hf)).1
    have hc0 := hc.ne_zero hcm
    rw [hf, Option.getD_some, if_pos hc0] at h
    cases h
    exact .cached ⟨ss, hl, hf⟩
  | none =>
    have hn : name ∉ namesOf v ss := by
      intro hm
      obtain ⟨c, hcs, he⟩ := List.mem_map.mp hm
      have := List.find?_eq_none.mp hf c hcs
      simp [he] at this
    rw [hf, Option.getD_none, if_neg (by simp)] at h
    split_ifs at h with hacts
    · cases h
      refine .absent hl hn fun hi hs => ?_
      simp [hi, hs] at hacts
    · cases hs : d.search (v.inodes dir) name with
      | none =>
        rw [hs] at h
        cases h
        exact .absent hl hn fun _ _ => hs
      | some info =>
        rw [hs] at h
        dsimp only at h
        split at h
        · cases h
        next w hnew =>
          split at h
          · cases h
          next w' hlink =>
            cases h
            simp only [Bool.or_eq_true, Bool.not_eq_true', not_or, Bool.not_eq_false] at hacts
            refine .loaded hl hn hacts.2 hs ((newInode_fresh hnew).added hdir hl hlink
              (newInode_supply hnew) ?_)
            obtain ⟨-, -, -, _, rfl⟩ := newInode_ok hnew
            simp [setInode]

theorem vfsNewInode_added {path : Text} {flags : Word} {ss : List Word}
    (hdir : dir ∈ v.inodeBlocks) (hl : Listing v dir ss)
    (h : vfsNewInode d v dir path flags = .ok (node, v')) :
    (node = 0 ∧ v' = v ∧ (v.inodes dir).acts.creates = false) ∨
      ∃ info, d.create (v.inodes dir) path flags = some info ∧ Added v dir node info ss v' := by
  unfold vfsNewInode at h
  split_ifs at h with hi hcr
  · split at h
    · cases h
    next info hinfo =>
    split at h
    · cases h
    next w hnew =>
    dsimp only at h
    split at h
    · cases h
    next w' hlink =>
    cases h
    have hf := (newInode_fresh hnew).setParent dir
    have hsame : (v'.setInode node (fun i => { i with parent := dir })) = v' := by
      refine setInode_self ?_
      have hnd : node ≠ dir := fun he => hf.newInode (he ▸ hdir)
      rcases hf.link hdir hl hlink with ⟨-, rfl⟩ | ⟨xs, q, hss, rfl⟩
      · simp [setInode, hnd]
      · have hnq : node ≠ q := fun he =>
          hf.newInode (he ▸ (hl.mem q (by rw [hss]; simp)).1)
        simp [setInode, hnq]
    have hsup := newInode_supply hnew
    refine .inr ⟨info, hinfo, hsame ▸ hf.added hdir hl hlink hsup ?_⟩
    obtain ⟨-, -, -, _, rfl⟩ := newInode_ok hnew
    simp [setInode]
  · cases h
    exact .inl ⟨rfl, rfl, by simpa using hcr⟩

theorem Holds.search (h : Holds v dir name node) (hc : Cached v) (hdir : dir ∈ v.inodeBlocks) :
    searchfunc d v dir name = .ok (node, v) := by
  obtain ⟨ss, hl, hf⟩ := h
  have h0 := hc.ne_zero hdir
  have hn0 := hc.ne_zero (hl.mem node (List.mem_of_find?_eq_some hf)).1
  unfold searchfunc
  rw [if_neg h0, hl.find, hf]
  exact if_pos hn0

theorem Holds.extends (h : Holds v dir name node) (he : Extends v v') (hc' : Cached v')
    (hdir : dir ∈ v.inodeBlocks) : Holds v' dir name node := by
  obtain ⟨ss, hl, hf⟩ := h
  obtain ⟨ts, ht⟩ := he.kids dir hdir ss hl.kids
  obtain ⟨us, hu⟩ := hc'.lists dir (he.blocks dir hdir)
  obtain rfl := Chain.unique hu.kids ht
  refine ⟨_, hu, ?_⟩
  have hsame : ss.find? (fun a => decide ((v'.inodes a).name = name)) =
      ss.find? (fun a => decide ((v.inodes a).name = name)) :=
    List.find?_congr fun c hc => by rw [(he.record c (hl.mem c hc).1).2.1]
  rw [List.find?_append, hsame, hf]
  rfl

theorem Searched.spec (h : Searched d v dir name node v') (hd : d.Honest) (hc : Cached v)
    (hdir : dir ∈ v.inodeBlocks) (hne : name ≠ []) : Cached v' ∧ Extends v v' ∧
      (node = 0 ∧ v' = v ∨ node ∈ v'.inodeBlocks ∧ Holds v' dir name node) := by
  cases h with
  | cached h =>
    obtain ⟨ss, hl, hf⟩ := h
    exact ⟨hc, .refl v, .inr ⟨(hl.mem node (List.mem_of_find?_eq_some hf)).1, ss, hl, hf⟩⟩
  | absent hl hn hdrv => exact ⟨hc, .refl v, .inl ⟨rfl, rfl⟩⟩
  | loaded hl hn hacts hdrv ha =>
    have hname := hd _ _ _ hdrv
    rw [← hname] at hne hn
    refine ⟨ha.cached hc hdir hl hne hn, ha.extends hc hdir hl,
      .inr ⟨ha.blocks ▸ .head _, _, ha.listing hdir hl hne hn, ?_⟩⟩
    have hfind := (ha.listing hdir hl hne hn).find_name (c := node) (by simp)
    rwa [ha.record, hname] at hfind

theorem walk_zero (names : List Text) : walk d v 0 names = .ok (0, v) := by
  induction names with
  | nil => rfl
  | cons name rest ih => simpa [walk, searchfunc] using ih

theorem walk_append (w : Word) (xs ys : List Text) : walk d v w (xs ++ ys) =
    match walk d v w xs with
    | .error e => .error e
    | .ok (n, v1) => walk d v1 n ys := by
  induction xs generalizing v w with
  | nil => rfl
  | cons name rest ih =>
    simp only [List.cons_append, walk]
    cases searchfunc d v w name with
    | error e => rfl
    | ok r => exact ih r.1

section Walk
variable {w : Word} {names : List Text}

/-- The first name of a walk: it is not found, or the walk goes on from what it names. -/
theorem walk_cons {name : Text} (hd : d.Honest) (hc : Cached v) (hw : w ∈ v.inodeBlocks)
    (hne : [] ∉ name :: names) (h : walk d v w (name :: names) = .ok (node, v')) :
    ∃ c v1, Searched d v w name c v1 ∧ Cached v1 ∧ Extends v v1 ∧
      (c = 0 ∧ v1 = v ∧ node = 0 ∧ v' = v ∨ c ∈ v1.inodeBlocks ∧ Holds v1 w name c ∧
        [] ∉ names ∧ walk d v1 c names = .ok (node, v')) := by
  rw [List.mem_cons, not_or] at hne
  simp only [walk] at h
  split at h
  · cases h
  next c v1 hs =>
    have hsd := searchfunc_searched hc hw hs
    obtain ⟨hc1, he1, hcase⟩ := hsd.spec hd hc hw (Ne.symm hne.1)
    refine ⟨c, v1, hsd, hc1, he1, ?_⟩
    rcases hcase with ⟨rfl, rfl⟩ | ⟨hcm, hh⟩
    · rw [walk_zero] at h
      cases h
      exact .inl ⟨rfl, rfl, rfl, rfl⟩
    · exact .inr ⟨hcm, hh, hne.2, h⟩

/-- A walk over names keeps the lists in order, and what it found can be walked again
later without a change. -/
theorem walk_spec (hd : d.Honest) (hc : Cached v) (hw : w ∈ v.inodeBlocks)
    (hne : [] ∉ names) (h : walk d v w names = .ok (node, v')) :
    Cached v' ∧ Extends v v' ∧ (node ≠ 0 → node ∈ v'.inodeBlocks ∧
      ∀ v'', Cached v'' → Extends v' v'' → walk d v'' w names = .ok (node, v'')) ∧
      walk d v' w names = .ok (node, v') := by
  induction names generalizing v w with
  | nil =>
    cases h
    exact ⟨hc, .refl _, fun _ => ⟨hw, fun _ _ _ => rfl⟩, rfl⟩
  | cons name rest ih =>
    obtain ⟨c, v1, -, hc1, he1, hcase⟩ := walk_cons hd hc hw hne h
    rcases hcase with ⟨-, -, rfl, rfl⟩ | ⟨hcm, hh, hne', hr⟩
    · exact ⟨hc, .refl _, fun h0 => absurd rfl h0, h⟩
    · obtain ⟨hc', he', hfound, hagain⟩ := ih hc1 hcm hne' hr
      have hwm := he1.blocks w hw
      have hstep : ∀ v'', Cached v'' → Extends v1 v'' →
          searchfunc d v'' w name = .ok (c, v'') := fun v'' hc'' he'' =>
        (hh.extends he'' hc'' hwm).search hc'' (he''.blocks w hwm)
      refine ⟨hc', he1.trans he', fun h0 => ?_, ?_⟩
      · obtain ⟨hm, hl⟩ := hfound h0
        refine ⟨hm, fun v'' hc'' he'' => ?_⟩
        simp only [walk, hstep v'' hc'' (he'.trans he''), hl v'' hc'' he'']
      · simp only [walk, hstep v' hc' he', hagain]

/-- The node is the root, or its directory is allocated. -/
def Placed (v : Vfs) (node : Word) : Prop :=
  node = v.rootFs ∨ (v.inodes node).parent ∈ v.inodeBlocks

theorem walk_placed (hd : d.Honest) (hc : Cached v) (hw : w ∈ v.inodeBlocks)
    (hne : [] ∉ names) (hpl : Placed v w) (h : walk d v w names = .ok (node, v'))
    (h0 : node ≠ 0) : Placed v' node := by
  induction names generalizing v w with
  | nil =>
    cases h
    exact hpl
  | cons name rest ih =>
    obtain ⟨c, v1, -, hc1, he1, hcase⟩ := walk_cons hd hc hw hne h
    rcases hcase with ⟨-, -, hz, -⟩ | ⟨hcm, ⟨ss, hl, hf⟩, hne', hr⟩
    · exact absurd hz h0
    · refine ih hc1 hcm hne' (.inr ?_) hr
      rw [(hl.mem c (List.mem_of_find?_eq_some hf)).2]
      exact he1.blocks w hw

end Walk
end Lookups
end TapiOS.Fs
