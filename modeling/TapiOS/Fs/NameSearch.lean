import TapiOS.Lib.Runs
import TapiOS.Util.Strings
import TapiOS.Fs.PathTree

/-!
# Searching by name, fs/vfs.c

searchfunc compares the bytes of names with names_eq. On names that fit into struct inode
this is equality of the texts, so the search agrees with the one over texts, and every
search through the cache gives what the directory tree has.
-/
namespace TapiOS.Fs

open Lib Util Vfs

/-- names_eq; 0 for equal names. -/
def namesEq (n1 n2 : Chars) : Int := memcmp n1 n2 (max (strnlen n1 256) (strnlen n2 256))

/-- One call of searchfunc: `path` points to `name` with `behind` after it, and the name of
the inode `a` is followed by `names a`. -/
structure SearchCall where
  node : Word
  name : Text
  behind : Chars
  names : Word → Chars

/-- searchfunc on the bytes of the names. -/
def searchCall (d : Driver) (v : Vfs) (c : SearchCall) : Except Stop (Word × Vfs) :=
  if c.node = 0 then .ok (0, v)
  else
    match v.findChild (v.inodes c.node).children (fun a =>
        decide (namesEq (chars c.name c.behind) (chars (v.inodes a).name (c.names a)) = 0)) with
    | none => .error .endless
    | some i =>
      if i ≠ 0 then .ok (i, v)
      else if !(v.inodes c.node).acts.iAct || !(v.inodes c.node).acts.search then .ok (0, v)
      else
        match d.search (v.inodes c.node) c.name with
        | none => .ok (0, v)
        | some info =>
          match newInode v info with
          | .error e => .error e
          | .ok (node, v) =>
            match linkChild v c.node node with
            | .error e => .error e
            | .ok v => .ok (node, v.setInode node (fun i => { i with parent := c.node }))

/-- A name that the array of struct inode holds with its NUL. -/
def Proper (name : Text) : Prop := 0 ∉ name ∧ 1 ≤ name.length ∧ name.length ≤ 255

instance (name : Text) : Decidable (Proper name) :=
  inferInstanceAs (Decidable (_ ∧ _ ∧ _))

theorem namesEq_iff {t t' : Text} (h : Proper t) (h' : Proper t') (rest rest' : Chars) :
    namesEq (chars t rest) (chars t' rest') = 0 ↔ t = t' := by
  have hs := chars_spells h.1 rest
  have hs' := chars_spells h'.1 rest'
  have hlen := h.2.2
  have hlen' := h'.2.2
  unfold namesEq
  rw [hs.strnlen (by omega), hs'.strnlen (by omega)]
  exact hs.memcmp hs'

/-- For proper names the driver finds what the tree has, under the name it was asked for. -/
def Driver.Finds (d : Driver) (T : Tree) : Prop :=
  ∀ i name, Proper name →
    d.search i name = (T.child i.inodeNo name).map fun n => ⟨n, name, T.acts n⟩

/-- The root is the only inode in memory. -/
structure Mounted (T : Tree) (v : Vfs) : Prop where
  blocks : v.inodeBlocks = [v.rootFs]
  ne_zero : v.rootFs ≠ 0
  number : (v.inodes v.rootFs).inodeNo = T.root
  acts : (v.inodes v.rootFs).acts = T.acts T.root
  directory : (T.acts T.root).iAct ∧ (T.acts T.root).search
  parent : (v.inodes v.rootFs).parent = 0
  children : (v.inodes v.rootFs).children = 0

/-- The tree without the names that do not fit. -/
def Tree.proper (T : Tree) : Tree where
  root := T.root
  child := fun n name => if Proper name then T.child n name else none
  acts := T.acts
  searchable := by
    intro n name m h
    split_ifs at h
    exact T.searchable n name m h

/-- The driver of the tree. -/
def Tree.driver (T : Tree) (d : Driver) : Driver :=
  { d with
    search := fun i name => (T.child i.inodeNo name).map fun n => ⟨n, name, T.acts n⟩
    create := fun _ _ _ => none }

section Search
variable {T : Tree} {d : Driver} {v v' : Vfs} {c : SearchCall} {node : Word} {name : Text}

theorem Tree.proper_child (T : Tree) (h : Proper name) (n : Word) :
    T.proper.child n name = T.child n name := if_pos h

theorem Tree.driver_serves (T : Tree) (d : Driver) : (T.driver d).Serves T :=
  ⟨fun _ _ => rfl, fun _ _ _ _ _ => rfl⟩

theorem Mounted.listing (h : Mounted T v) {a : Word} (ha : a ∈ v.inodeBlocks) :
    Listing v a [] := by
  rw [h.blocks, List.mem_singleton] at ha
  subst ha
  exact ⟨h.children, List.forall_mem_nil _, List.nodup_nil, List.not_mem_nil⟩

theorem Mounted.cached (h : Mounted T v) : Cached v := by
  have hm : ∀ a, a ∈ v.inodeBlocks ↔ a = v.rootFs := by
    intro a
    rw [h.blocks, List.mem_singleton]
  refine ⟨(hm _).mpr rfl, fun h0 => h.ne_zero ((hm 0).mp h0).symm, ?_, h.parent, ?_,
    fun a ha => ⟨[], h.listing ha⟩⟩
  · rw [h.blocks]
    exact List.nodup_singleton _
  · rw [h.acts]
    exact h.directory

theorem Mounted.mirrors (h : Mounted T v) : Mirrors T.proper v := by
  refine ⟨h.number, trivial, fun _ _ _ _ _ => trivial, fun _ _ => .inl trivial, fun a ha _ => ?_,
    fun a ha _ ss hk c hc => ?_⟩
  · rw [h.blocks, List.mem_singleton] at ha
    rw [ha, h.number]
    exact h.acts
  · rw [Chain.unique hk (h.listing ha).kids] at hc
    cases hc

/-- What is cached below a node has a proper name. -/
theorem Mirrors.proper (h : Mirrors T.proper v) {a x : Word} {ss : List Word}
    (ha : a ∈ v.inodeBlocks) (hl : Listing v a ss) (hx : x ∈ ss) : Proper (v.inodes x).name := by
  have hc := h.child a ha trivial ss hl.kids x hx rfl
  by_contra hp
  rw [show T.proper.child _ _ = none from if_neg hp] at hc
  cases hc

/-- The bytes decide as the texts would. -/
theorem searchCall_eq (hd : d.Finds T) (hc : Cached v) (hm : Mirrors T.proper v)
    (hn : c.node ∈ v.inodeBlocks) (hp : Proper c.name) :
    searchCall d v c = searchfunc (T.proper.driver d) v c.node c.name := by
  obtain ⟨ss, hl⟩ := hc.lists c.node hn
  have hfind : ss.find? (fun a =>
      decide (namesEq (chars c.name c.behind) (chars (v.inodes a).name (c.names a)) = 0)) =
      ss.find? (fun a => decide ((v.inodes a).name = c.name)) := by
    refine List.find?_congr fun a ha => ?_
    rw [decide_eq_decide, namesEq_iff hp (hm.proper hn hl ha)]
    exact eq_comm
  have hsearch : d.search (v.inodes c.node) c.name =
      (T.proper.driver d).search (v.inodes c.node) c.name := by
    rw [hd _ _ hp, (T.proper.driver_serves d).search, T.proper_child hp]
    rfl
  unfold searchCall
  rw [hl.find, hfind, hsearch, ← hl.find]
  rfl

end Search

/-- The root, or a node that an earlier search returned. -/
def Reached (root : Word) (past : List (Transition Vfs SearchCall Word)) (a : Word) : Prop :=
  a = root ∨ a ≠ 0 ∧ ∃ x ∈ past, x.output = a

/-- The cache after the searches `past`: the answers are still those it would give. -/
structure Searches (T : Tree) (root : Word) (v : Vfs)
    (past : List (Transition Vfs SearchCall Word)) : Prop where
  cached : Cached v
  mirrors : Mirrors T.proper v
  reached : ∀ a, Reached root past a → a ∈ v.inodeBlocks
  node : ∀ x ∈ past, x.input.node ∈ v.inodeBlocks
  absent : ∀ x ∈ past, x.output = 0 →
    T.proper.child (v.inodes x.input.node).inodeNo x.input.name = none
  held : ∀ x ∈ past, x.output ≠ 0 → Holds v x.input.node x.input.name x.output

section Runs
variable {T : Tree} {d : Driver} {root : Word} {v v' : Vfs} {c : SearchCall} {node : Word}
  {past : List (Transition Vfs SearchCall Word)}

theorem Mounted.searches (h : Mounted T v) : Searches T v.rootFs v [] := by
  refine ⟨h.cached, h.mirrors, fun a ha => ?_, by simp, by simp, by simp⟩
  rcases ha with rfl | ⟨-, x, hx, -⟩
  · rw [h.blocks]
    exact List.mem_singleton_self _
  · cases hx

section Answers
variable (h : Searches T root v past) (hd : d.Finds T) (hn : c.node ∈ v.inodeBlocks)
  (hp : Proper c.name) (hs : searchCall d v c = .ok (node, v'))
include h hd hn hp hs

theorem Searches.searched : Searched (T.proper.driver d) v c.node c.name node v' := by
  rw [searchCall_eq hd h.cached h.mirrors hn hp] at hs
  exact searchfunc_searched h.cached hn hs

theorem Searches.answer :
    T.child (v.inodes c.node).inodeNo c.name =
      if node = 0 then none else some (v'.inodes node).inodeNo := by
  rw [← T.proper_child hp]
  exact ((h.searched hd hn hp hs).mirrors (T.proper.driver_serves d) h.cached hn h.mirrors trivial
    rfl).2

omit h hn hp hs in
/-- A search leaves the earlier answers as they are and adds its own. -/
theorem Searches.step (x : Transition Vfs SearchCall Word) (h : Searches T root x.pre past)
    (hn : Reached root past x.input.node) (hp : Proper x.input.name)
    (hs : searchCall d x.pre x.input = .ok (x.output, x.post)) :
    Searches T root x.post (past ++ [x]) := by
  have hn := h.reached _ hn
  have hsv := T.proper.driver_serves d
  have hsr := h.searched hd hn hp hs
  have hne : x.input.name ≠ [] := List.ne_nil_of_length_pos hp.2.1
  obtain ⟨hc, he, hres⟩ := hsr.spec hsv.honest h.cached hn hne
  obtain ⟨hm, hchild⟩ := hsr.mirrors hsv h.cached hn h.mirrors trivial rfl
  have hnumber := fun a ha => (he.record a ha).1
  have hnew : x.output ≠ 0 → x.output ∈ x.post.inodeBlocks ∧
      Holds x.post x.input.node x.input.name x.output := fun h0 =>
    hres.resolve_left fun hz => h0 hz.1
  refine ⟨hc, hm, fun a ha => ?_, fun y hy => ?_, fun y hy h0 => ?_, fun y hy h0 => ?_⟩
  · rcases ha with rfl | ⟨h0, y, hy, rfl⟩
    · exact he.blocks _ (h.reached _ (.inl rfl))
    · rcases List.mem_append.mp hy with hy | hy
      · exact he.blocks _ (h.reached _ (.inr ⟨h0, y, hy, rfl⟩))
      · rw [List.mem_singleton.mp hy] at h0 ⊢
        exact (hnew h0).1
  · rcases List.mem_append.mp hy with hy | hy
    · exact he.blocks _ (h.node y hy)
    · rw [List.mem_singleton.mp hy]
      exact he.blocks _ hn
  · rcases List.mem_append.mp hy with hy | hy
    · rw [hnumber _ (h.node y hy)]
      exact h.absent y hy h0
    · rw [List.mem_singleton.mp hy] at h0 ⊢
      rw [hnumber _ hn, hchild, Vfs.number_eq_none.mpr h0]
  · rcases List.mem_append.mp hy with hy | hy
    · exact (h.held y hy h0).extends he hc (h.node y hy)
    · rw [List.mem_singleton.mp hy] at h0 ⊢
      exact (hnew h0).2

omit hn in
theorem Searches.again {x : Transition Vfs SearchCall Word} (hx : x ∈ past)
    (hnode : x.input.node = c.node) (hname : x.input.name = c.name) : node = x.output := by
  have hn := h.node x hx
  rw [hnode] at hn
  by_cases h0 : x.output = 0
  · have hnone := h.absent x hx h0
    rw [hnode, hname, T.proper_child hp, h.answer hd hn hp hs] at hnone
    rw [h0]
    by_contra hne
    rw [if_neg hne] at hnone
    cases hnone
  · have hheld := h.held x hx h0
    rw [hnode, hname] at hheld
    rw [searchCall_eq hd h.cached h.mirrors hn hp, hheld.search h.cached hn] at hs
    cases hs
    rfl

end Answers

/-- Searches through the cache give what the directory tree has, the same node each time,
and no two children of a node have one name; with memory left a search returns. -/
theorem name_search_transparent {calls : List SearchCall}
    {tr : List (Transition Vfs SearchCall Word)} (hd : d.Finds T) (hv : Mounted T v)
    (hrun : run (searchCall d) v calls = some tr) (hp : ∀ c ∈ calls, Proper c.name)
    (hreach : ∀ before x after, tr = before ++ x :: after →
      Reached v.rootFs before x.input.node) :
    (∀ before x after, tr = before ++ x :: after →
      T.child (x.pre.inodes x.input.node).inodeNo x.input.name =
        (if x.output = 0 then none else some (x.post.inodes x.output).inodeNo) ∧
      ∀ y ∈ before, y.input.node = x.input.node → y.input.name = x.input.name →
        x.output = y.output) ∧
    (∀ before after, tr = before ++ after → ∀ a ∈ (lastState v before).inodeBlocks,
      ∃ ss, Kids (lastState v before) a ss ∧ (namesOf (lastState v before) ss).Nodup) ∧
    ∀ c, Proper c.name → Reached v.rootFs tr c.node → Stocked (lastState v tr) 1 →
      ∃ r, searchCall d (lastState v tr) c = .ok r := by
  have hinv := run_history_under
    (C := fun past x => Reached v.rootFs past x.input.node ∧ Proper x.input.name)
    (fun x past hi hc hs => Searches.step hd x hi hc.1 hc.2 hs) hrun hv.searches
    (fun before x after he =>
      ⟨hreach before x after he, hp _ (run_input hrun x (by rw [he]; simp))⟩)
  refine ⟨fun before x after he => ?_, fun before after he a ha => ?_, fun c hcp hcn hst => ?_⟩
  · have hx := run_step hrun x (by rw [he]; simp)
    have hxp := hp _ (run_input hrun x (by rw [he]; simp))
    have hi := hinv before (x :: after) he
    rw [← (run_around (he ▸ hrun)).2.1] at hi
    exact ⟨hi.answer hd (hi.reached _ (hreach before x after he)) hxp hx,
      fun y hy hnode hname => hi.again hd hxp hx hy hnode hname⟩
  · obtain ⟨ss, hl⟩ := (hinv before after he).cached.lists a ha
    exact ⟨ss, hl.kids, hl.nodup⟩
  · have hi := hinv tr [] (List.append_nil tr).symm
    have hn := hi.reached _ hcn
    obtain ⟨node, v', hs, -⟩ :=
      searchfunc_total (d := T.proper.driver d) hi.cached hn c.name hst
    exact ⟨(node, v'), by rw [searchCall_eq hd hi.cached hi.mirrors hn hcp, hs]⟩

end Runs

/-! A root with the entries "a" and "ab", of which neither is cached. -/

def twoNames : Tree where
  root := 2
  child n name :=
    if n ≠ 2 then none
    else if name = [0x61] then some 11
    else if name = [0x61, 0x62] then some 12
    else none
  acts n := ⟨n = 2, n = 2, false, true, false⟩
  searchable n name m h := by
    by_cases hn : n = 2
    · simp [hn]
    · rw [if_pos hn] at h
      cases h

def twoNamesDriver : Driver where
  search i name := (twoNames.child i.inodeNo name).map fun n => ⟨n, name, twoNames.acts n⟩
  create _ _ _ := none
  opening i _ := (0, i.acts)

def twoNamesVfs : Vfs where
  inodes := fun _ => ⟨2, [], twoNames.acts 2, 0, 0, 0⟩
  files := fun _ => ⟨0, 0, 0⟩
  rootFs := 0x1000
  inodeBlocks := [0x1000]
  fileBlocks := []
  supply := [0x2000, 0x3000, 0x4000]

/-- A search in the root; garbage follows the names. -/
def rootSearch (name : Text) : SearchCall := ⟨0x1000, name, fun _ => 0x62, fun _ _ => 0x62⟩

theorem name_search_transparent_twoNames :
    ∃ tr, run (searchCall twoNamesDriver) twoNamesVfs
        [rootSearch [0x61], rootSearch [0x61, 0x62], rootSearch [0x61], rootSearch [0x62]] =
        some tr ∧ tr.map (·.output) = [0x2000, 0x3000, 0x2000, 0] ∧
      ∀ before x after, tr = before ++ x :: after →
        twoNames.child (x.pre.inodes x.input.node).inodeNo x.input.name =
          (if x.output = 0 then none else some (x.post.inodes x.output).inodeNo) ∧
        ∀ y ∈ before, y.input.node = x.input.node → y.input.name = x.input.name →
          x.output = y.output := by
  have hv : Mounted twoNames twoNamesVfs :=
    ⟨rfl, by decide, rfl, rfl, ⟨rfl, rfl⟩, rfl, rfl⟩
  refine run_test (fun tr => tr.map (·.output) = [0x2000, 0x3000, 0x2000, 0]) (by decide)
    fun tr hrun ho => ⟨ho,
      (name_search_transparent (fun _ _ _ => rfl) hv hrun ?_ fun before x after he => ?_).1⟩
  · simp only [List.forall_mem_cons]
    decide
  · have hx := run_input hrun x (by rw [he]; simp)
    simp only [List.mem_cons, List.not_mem_nil, or_false] at hx
    rcases hx with hx | hx | hx | hx <;> exact .inl (by rw [hx]; rfl)

end TapiOS.Fs
