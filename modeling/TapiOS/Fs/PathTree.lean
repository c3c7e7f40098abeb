import TapiOS.Fs.NameCache

/-!
# Directory trees

A directory tree says which node a name leads to. The name cache mirrors the part of it
that was looked up, and a walk through the cache ends at the node that the tree gives.
Names are compared as they are: "." and ".." mean what the tree has under these names.
-/
namespace TapiOS.Fs

open Lib Util Vfs

variable {names : List Text} {ss : List Word}

/-- The names that walk_path_do follows from the root for a string in `tokname`; `none` for
one without a name. -/
def route (path : Text) : Option (List Text) :=
  if path = [slash] then some []
  else if components path = [] then none
  else some (components path)

structure Tree where
  root : Word
  child : Word → Text → Option Word
  acts : Word → Acts
  searchable : ∀ n name m, child n name = some m → (acts n).iAct ∧ (acts n).search

/-- The node at the end of a path. -/
def Tree.resolve (T : Tree) : Word → List Text → Option Word
  | n, [] => some n
  | n, name :: rest =>
    match T.child n name with
    | none => none
    | some m => T.resolve m rest

/-- The driver looks names up in the tree, and creates a file under the last part of the
path it is given. -/
structure Driver.Serves (d : Driver) (T : Tree) : Prop where
  search : ∀ i name, d.search i name = (T.child i.inodeNo name).map fun n => ⟨n, name, T.acts n⟩
  create : ∀ i path path' flags, basename path = basename path' →
    d.create i path flags = d.create i path' flags

/-- The inode number of a node; `none` for NULL. -/
def Vfs.number (v : Vfs) (a : Word) : Option Word :=
  if a = 0 then none else some (v.inodes a).inodeNo

/-- A file system with others mounted under some of its names: which inode numbers are its
own, and which are those of the others. -/
structure Part where
  own : Word → Prop
  foreign : Word → Prop
  mounted : Word → Text → Bool

def Part.whole : Part := ⟨fun _ => True, fun _ => False, fun _ _ => false⟩

/-- One more mount, under the name `name` in directory `n`. -/
def Part.mount (P : Part) (n : Word) (name : Text) : Part :=
  { P with mounted := fun m x => P.mounted m x || (m == n && x == name) }

/-- The names lead to no mount. -/
def Tree.within (T : Tree) (P : Part) : Word → List Text → Bool
  | _, [] => true
  | n, name :: rest => !P.mounted n name && (T.child n name).all fun m => T.within P m rest

/-- What is cached of the file system is in the tree. -/
structure Mirrors (T : Tree) (v : Vfs) (P : Part := .whole) : Prop where
  root : (v.inodes v.rootFs).inodeNo = T.root
  top : P.own T.root
  below : ∀ n name m, P.own n → T.child n name = some m → P.own m
  nodes : ∀ a ∈ v.inodeBlocks, P.own (v.inodes a).inodeNo ∨ P.foreign (v.inodes a).inodeNo
  acts : ∀ a ∈ v.inodeBlocks, P.own (v.inodes a).inodeNo →
    (v.inodes a).acts = T.acts (v.inodes a).inodeNo
  child : ∀ a ∈ v.inodeBlocks, P.own (v.inodes a).inodeNo → ∀ ss, Kids v a ss → ∀ c ∈ ss,
    P.mounted (v.inodes a).inodeNo (v.inodes c).name = false →
    T.child (v.inodes a).inodeNo (v.inodes c).name = some (v.inodes c).inodeNo

theorem Driver.Serves.honest {d : Driver} {T : Tree} (h : d.Serves T) : d.Honest := by
  intro i name info hs
  rw [h.search] at hs
  obtain ⟨n, -, rfl⟩ := Option.map_eq_some_iff.mp hs
  rfl

theorem Vfs.number_eq_none {v : Vfs} {a : Word} : v.number a = none ↔ a = 0 := by
  simp [Vfs.number]

theorem Vfs.number_eq_some {v : Vfs} {a n : Word} :
    v.number a = some n ↔ a ≠ 0 ∧ (v.inodes a).inodeNo = n := by
  simp [Vfs.number]

theorem Vfs.number_ne {v : Vfs} {a : Word} (h : a ≠ 0) :
    v.number a = some (v.inodes a).inodeNo := if_neg h

section Resolve
variable {T : Tree} {P : Part}

theorem Tree.resolve_append (n : Word) (xs ys : List Text) :
    T.resolve n (xs ++ ys) = (T.resolve n xs).bind fun m => T.resolve m ys := by
  induction xs generalizing n with
  | nil => rfl
  | cons name rest ih =>
    simp only [List.cons_append, Tree.resolve]
    cases T.child n name with
    | none => rfl
    | some m => exact ih m

theorem Tree.resolve_unsearchable {n : Word} (h : (T.acts n).search = false) (hne : names ≠ []) :
    T.resolve n names = none := by
  cases names with
  | nil => exact absurd rfl hne
  | cons name rest =>
    unfold Tree.resolve
    cases hc : T.child n name with
    | none => rfl
    | some m =>
      have hs := (T.searchable n name m hc).2
      rw [h] at hs
      cases hs

theorem Tree.within_append (n : Word) (xs ys : List Text) : T.within P n (xs ++ ys) =
    (T.within P n xs && (T.resolve n xs).all fun m => T.within P m ys) := by
  induction xs generalizing n with
  | nil => rfl
  | cons name rest ih =>
    simp only [List.cons_append, Tree.within, Tree.resolve, Bool.and_assoc]
    cases T.child n name with
    | none => rfl
    | some m => simp only [Option.all_some, ih]

theorem Tree.within_whole (n : Word) (names : List Text) : T.within .whole n names := by
  induction names generalizing n with
  | nil => rfl
  | cons name rest ih =>
    unfold Tree.within
    cases T.child n name with
    | none => rfl
    | some m => exact ih m

theorem Mirrors.resolve {v : Vfs} (h : Mirrors T v P) {n m : Word} (hn : P.own n)
    (hr : T.resolve n names = some m) : P.own m := by
  induction names generalizing n with
  | nil =>
    cases hr
    exact hn
  | cons name rest ih =>
    unfold Tree.resolve at hr
    split at hr
    · cases hr
    next hc => exact ih (h.below _ _ _ hn hc) hr

end Resolve

section Mirrors
variable {T : Tree} {P : Part} {d : Driver} {v v' : Vfs} {dir node w : Word} {name : Text}

theorem Added.mirrors {info : NodeInfo} (ha : Added v dir node info ss v') (hc : Cached v)
    (hdir : dir ∈ v.inodeBlocks) (hl : Listing v dir ss) (hm : Mirrors T v P)
    (hown : P.own (v.inodes dir).inodeNo) (hacts : info.acts = T.acts info.inodeNo)
    (ht : T.child (v.inodes dir).inodeNo info.name = some info.inodeNo) : Mirrors T v' P := by
  have hx := ha.extends hc hdir hl
  refine ⟨?_, hm.top, hm.below, fun a haM => ?_, fun a haM hao => ?_,
    fun a haM hao ts ht' c hcm hcn => ?_⟩
  · rw [ha.rootFs, (hx.record _ hc.root).1]
    exact hm.root
  · rw [ha.blocks] at haM
    rcases List.mem_cons.mp haM with rfl | haM
    · rw [ha.record]
      exact .inl (hm.below _ _ _ hown ht)
    · rw [(hx.record a haM).1]
      exact hm.nodes a haM
  · rw [ha.blocks] at haM
    rcases List.mem_cons.mp haM with rfl | haM
    · rw [ha.record, hacts]
    · obtain ⟨h1, -, h3⟩ := hx.record a haM
      rw [h1] at hao ⊢
      rw [h3]
      exact hm.acts a haM hao
  · rw [ha.blocks] at haM
    rcases List.mem_cons.mp haM with rfl | haM
    · have h0 : Kids v' a [] := by
        show (v'.inodes a).children = 0
        rw [ha.record]
      rw [Chain.unique ht' h0] at hcm
      cases hcm
    · rw [(hx.record a haM).1] at hao hcn ⊢
      obtain ⟨us, hu⟩ := hc.lists a haM
      have hold : c ∈ us → T.child (v.inodes a).inodeNo (v'.inodes c).name =
          some (v'.inodes c).inodeNo := by
        intro hcu
        obtain ⟨h1, h2, -⟩ := hx.record c (hu.mem c hcu).1
        rw [h2] at hcn ⊢
        rw [h1]
        exact hm.child a haM hao us hu.kids c hcu hcn
      by_cases had : a = dir
      · subst had
        obtain rfl := Chain.unique hu.kids hl.kids
        rw [Chain.unique ht' (ha.kids hdir hl)] at hcm
        rcases List.mem_append.mp hcm with hcu | hcu
        · exact hold hcu
        · rw [List.mem_singleton.mp hcu, ha.record]
          exact ht
      · rw [Chain.unique ht' (ha.listing_other hl haM had hu).kids] at hcm
        exact hold hcm

theorem Searched.mirrors (h : Searched d v dir name node v') (hs : d.Serves T) (hc : Cached v)
    (hdir : dir ∈ v.inodeBlocks) (hm : Mirrors T v P) (hown : P.own (v.inodes dir).inodeNo)
    (hin : P.mounted (v.inodes dir).inodeNo name = false) : Mirrors T v' P ∧
      T.child (v.inodes dir).inodeNo name = v'.number node := by
  cases h with
  | cached h =>
    obtain ⟨ss, hl, hf⟩ := h
    have hmem := List.mem_of_find?_eq_some hf
    have hn0 := hc.ne_zero (hl.mem node hmem).1
    have hname : (v.inodes node).name = name := by simpa using List.find?_some hf
    rw [Vfs.number_ne hn0, ← hname]
    exact ⟨hm, hm.child dir hdir hown ss hl.kids node hmem (hname ▸ hin)⟩
  | absent hl hn hdrv =>
    refine ⟨hm, ?_⟩
    cases ht : T.child (v.inodes dir).inodeNo name with
    | none => rfl
    | some m =>
      obtain ⟨hi, hsr⟩ := T.searchable _ _ _ ht
      rw [← hm.acts dir hdir hown] at hi hsr
      have hnone := hdrv hi hsr
      rw [hs.search, ht] at hnone
      cases hnone
  | loaded hl hn hacts hdrv ha =>
    rw [hs.search] at hdrv
    obtain ⟨m, ht, rfl⟩ := Option.map_eq_some_iff.mp hdrv
    refine ⟨ha.mirrors hc hdir hl hm hown rfl ht, ?_⟩
    rw [Vfs.number_ne ha.ne_zero, ha.record]
    exact ht

/-- A walk ends where the tree says. -/
theorem walk_resolves (hs : d.Serves T) (hc : Cached v) (hw : w ∈ v.inodeBlocks) (hne : [] ∉ names)
    (hm : Mirrors T v P) (hown : P.own (v.inodes w).inodeNo)
    (hin : T.within P (v.inodes w).inodeNo names)
    (h : walk d v w names = .ok (node, v')) : Mirrors T v' P ∧
      T.resolve (v.inodes w).inodeNo names = v'.number node := by
  induction names generalizing v w with
  | nil =>
    have hw0 := hc.ne_zero hw
    cases h
    exact ⟨hm, (if_neg hw0).symm⟩
  | cons name rest ih =>
    obtain ⟨c, v1, hsd, hc1, -, hcase⟩ := walk_cons hs.honest hc hw hne h
    unfold Tree.within at hin
    rw [Bool.and_eq_true, Bool.not_eq_true'] at hin
    obtain ⟨hm1, hchild⟩ := hsd.mirrors hs hc hw hm hown hin.1
    rw [hchild] at hin
    unfold Tree.resolve
    rw [hchild]
    rcases hcase with ⟨rfl, -, rfl, rfl⟩ | ⟨hcm, -, hne', hr⟩
    · exact ⟨hm, rfl⟩
    · rw [Vfs.number_ne (hc1.ne_zero hcm)] at hin hchild ⊢
      exact ih hc1 hcm hne' hm1 (hm.below _ _ _ hown hchild) hin.2 hr

end Mirrors

/-- kmalloc can give out `n` more blocks. -/
structure Stocked (v : Vfs) (n : Nat) : Prop where
  enough : n ≤ v.supply.length
  nodup : v.supply.Nodup
  fresh : ∀ a ∈ v.supply, a ≠ 0 ∧ a ∉ v.inodeBlocks ∧ a ∉ v.fileBlocks

section Stocked
variable {d : Driver} {v v' : Vfs} {dir node w : Word} {n : Nat}

theorem Stocked.kmalloc (h : Stocked v (n + 1)) :
    ∃ a rest, v.supply = a :: rest ∧ v.kmalloc = .ok (a, { v with supply := rest }) := by
  cases hs : v.supply with
  | nil =>
    have hlen := h.enough
    rw [hs] at hlen
    exact absurd hlen (by simp)
  | cons a rest =>
    obtain ⟨h0, hi, hf⟩ := h.fresh a (by rw [hs]; exact .head _)
    refine ⟨a, rest, rfl, ?_⟩
    unfold Vfs.kmalloc
    rw [hs]
    exact if_neg (not_or.mpr ⟨h0, not_or.mpr ⟨hi, hf⟩⟩)

theorem Stocked.mono {k : Nat} (h : Stocked v n) (hk : k ≤ n) : Stocked v k :=
  ⟨hk.trans h.enough, h.nodup, h.fresh⟩

theorem Added.stocked {info : NodeInfo} (ha : Added v dir node info ss v') (h : Stocked v (n + 1)) :
    Stocked v' n := by
  obtain ⟨hlen, hnd, hfresh⟩ := h
  rw [ha.supply] at hlen hnd hfresh
  obtain ⟨hn, hnd⟩ := List.nodup_cons.mp hnd
  refine ⟨by simpa using hlen, hnd, fun a hm => ?_⟩
  obtain ⟨h0, hi, hf⟩ := hfresh a (.tail _ hm)
  rw [ha.blocks, ha.fileBlocks, List.mem_cons, not_or]
  exact ⟨h0, ⟨fun he => hn (he ▸ hm), hi⟩, hf⟩

/-- With blocks left, a new inode is linked into a list that is in order. -/
theorem link_total (info : NodeInfo) (hl : Listing v dir ss) (hdir : dir ∈ v.inodeBlocks)
    (h : Stocked v (n + 1)) : ∃ node w, newInode v info = .ok (node, w) ∧
      ∀ w1, Fresh v node w1 → ∃ w', linkChild w1 dir node = .ok w' := by
  obtain ⟨a, rest, -, hk⟩ := h.kmalloc
  refine ⟨a, _, by unfold newInode; rw [hk], fun w1 hf => ?_⟩
  have hold : ∀ c ∈ v.inodeBlocks, w1.inodes c = v.inodes c := fun c hc =>
    hf.others c fun he => hf.newInode (he ▸ hc)
  have hkids : Kids w1 dir ss := by
    unfold Kids
    rw [hold dir hdir]
    exact hl.kids.congr fun c hc => by rw [hold c (hl.mem c hc).1]
  have hfind := Chain.find hkids (fun a => decide ((w1.inodes a).siblings = 0))
    (nodup_length_le hl.nodup_kids)
  unfold linkChild
  split_ifs
  · exact ⟨_, rfl⟩
  · rw [Vfs.findChild, Vfs.loopBound, hfind]
    exact ⟨_, rfl⟩

theorem searchfunc_total (hc : Cached v) (hdir : dir ∈ v.inodeBlocks) (name : Text)
    (h : Stocked v (n + 1)) : ∃ node v', searchfunc d v dir name = .ok (node, v') ∧
      Stocked v' n := by
  obtain ⟨ss, hl⟩ := hc.lists dir hdir
  suffices hok : ∃ r, searchfunc d v dir name = .ok r by
    obtain ⟨⟨node, v'⟩, hr⟩ := hok
    refine ⟨node, v', hr, ?_⟩
    cases searchfunc_searched hc hdir hr with
    | cached _ => exact h.mono (Nat.le_succ n)
    | absent _ _ _ => exact h.mono (Nat.le_succ n)
    | loaded _ _ _ _ ha => exact ha.stocked h
  unfold searchfunc
  rw [hl.find]
  dsimp only
  split_ifs
  · exact ⟨_, rfl⟩
  · exact ⟨_, rfl⟩
  · exact ⟨_, rfl⟩
  · cases d.search (v.inodes dir) name with
    | none => exact ⟨_, rfl⟩
    | some info =>
      obtain ⟨node, w, hn, hlink⟩ := link_total info hl hdir h
      obtain ⟨w', hw'⟩ := hlink w (newInode_fresh hn)
      simp only [hn, hw']
      exact ⟨_, rfl⟩

theorem walk_total (hd : d.Honest) (hc : Cached v) (hw : w ∈ v.inodeBlocks) (hne : [] ∉ names)
    (h : Stocked v (names.length + n)) :
    ∃ node v', walk d v w names = .ok (node, v') ∧ Stocked v' n := by
  induction names generalizing v w with
  | nil => exact ⟨w, v, rfl, by simpa using h⟩
  | cons name rest ih =>
    rw [List.mem_cons, not_or] at hne
    obtain ⟨c, v1, hs, hst⟩ := searchfunc_total (d := d) (n := rest.length + n) hc hw name
      (h.mono (by rw [List.length_cons]; omega))
    obtain ⟨hc1, -, hcase⟩ := (searchfunc_searched hc hw hs).spec hd hc hw (Ne.symm hne.1)
    simp only [walk, hs]
    rcases hcase with ⟨rfl, -⟩ | ⟨hcm, -⟩
    · exact ⟨0, v1, walk_zero rest, hst.mono (by omega)⟩
    · exact ih hc1 hcm hne.2 hst

end Stocked
end TapiOS.Fs
