import TapiOS.Task.OpenPaths

/-!
# Where relative and absolute opens differ

In a tree that is one line of names every path but its prefixes is missing, so two
strings that lead along different names are told apart by what `_open` finds there.
-/
namespace TapiOS.Task

open Lib Util Fs
open BitVec (ofNat)

/-- A driver and a state in which no call runs out of blocks or descriptors. -/
structure World (T : Tree) (d : Driver) (k : Kernel) (p n : Nat) : Prop where
  serves : d.Serves T
  stack : ∀ t, (d.stack t).length ≤ 4
  opening : ∀ i flags, d.opening i flags = (0, i.acts)
  creates : ∀ i path flags, ∃ info, d.create i path flags = some info ∧ info.acts.opens
  acts : ∀ m, T.acts m = ⟨true, true, true, true, false⟩
  cached : Cached k.vfs
  mirrors : Mirrors T k.vfs
  stocked : Stocked k.vfs n
  slot : k.fds p 0 = 0

/-- The call opens the node with this number, or there is none and it fails. -/
def OpensNode (p : Nat) (node : Option Word) (r : Except Stop (Int × Kernel)) : Prop :=
  ∃ ret k, r = .ok (ret, k) ∧
    (ret < 0 ∧ node = none ∨ 0 ≤ ret ∧ node = some (k.openedAt p ret).1)

theorem Agree.node {p : Nat} {node node' : Option Word} {r r' : Except Stop (Int × Kernel)}
    (h : Agree p r r') (hr : OpensNode p node r) (hr' : OpensNode p node' r') : node = node' := by
  obtain ⟨ret, k, rfl, hn⟩ := hr
  obtain ⟨ret', k', rfl, hn'⟩ := hr'
  obtain ⟨hfail, hsame⟩ := h
  rcases hn with ⟨hneg, rfl⟩ | ⟨h0, rfl⟩
  · rcases hn' with ⟨-, rfl⟩ | ⟨h0', -⟩
    · rfl
    · have hneg' := hfail.mp hneg
      omega
  · rcases hn' with ⟨hneg', -⟩ | ⟨-, rfl⟩
    · have hneg := hfail.mpr hneg'
      omega
    · rw [hsame h0]

section World
variable {T : Tree} {d : Driver} {k : Kernel} {p n : Nat} {cwd path : Text}

theorem World.withStack (w : World T d k p n) {stack : Text → Text}
    (hs : ∀ t, (stack t).length ≤ 4) : World T { d with stack := stack } k p n :=
  ⟨⟨w.serves.search, w.serves.create⟩, hs, w.opening, w.creates, w.acts, w.cached, w.mirrors,
    w.stocked, w.slot⟩

theorem World.acts_of_mem (w : World T d k p n) {a : Word} (ha : a ∈ k.vfs.inodeBlocks) :
    (k.vfs.inodes a).acts = ⟨true, true, true, true, false⟩ := by
  rw [w.mirrors.acts a ha trivial, w.acts]

theorem World.length_names (w : World T d k p n) (path : Text) :
    (components (tokname d.stack path)).length ≤ 260 := by
  have hle := length_components (tokname d.stack path)
  have hs := w.stack path
  unfold tokname at hle ⊢
  split_ifs at hle ⊢
  · omega
  · rw [List.length_append, List.length_take] at hle
    omega

theorem World.walk (w : World T d k p n) {a : Word} {names : List Text} {m : Nat}
    (ha : a ∈ k.vfs.inodeBlocks) (hne : [] ∉ names) (hn : names.length + m ≤ n) :
    ∃ node v, Fs.walk d k.vfs a names = .ok (node, v) ∧ World T d { k with vfs := v } p m ∧
      (node ≠ 0 → node ∈ v.inodeBlocks) ∧
      T.resolve (k.vfs.inodes a).inodeNo names = v.number node := by
  obtain ⟨node, v, hw, hst⟩ := walk_total (n := m) w.serves.honest w.cached ha hne
    (w.stocked.mono hn)
  obtain ⟨hc, -, hfound, -⟩ := walk_spec w.serves.honest w.cached ha hne hw
  obtain ⟨hm, hres⟩ := walk_resolves w.serves w.cached ha hne w.mirrors trivial
    (T.within_whole _ _) hw
  exact ⟨node, v, hw, ⟨w.serves, w.stack, w.opening, w.creates, w.acts, hc, hm, hst, w.slot⟩,
    fun h0 => (hfound h0).1, hres⟩

theorem World.follow (w : World T d k p (n + 260)) (path : Text) :
    ∃ node v, Task.follow d k.vfs (route (tokname d.stack path)) = .ok (node, v) ∧
      World T d { k with vfs := v } p n ∧ (node ≠ 0 → node ∈ v.inodeBlocks) ∧
      (route (tokname d.stack path)).bind (T.resolve T.root) = v.number node := by
  have hlen := w.length_names path
  cases hr : route (tokname d.stack path) with
  | none =>
    exact ⟨0, k.vfs, rfl, ⟨w.serves, w.stack, w.opening, w.creates, w.acts, w.cached, w.mirrors,
      w.stocked.mono (by omega), w.slot⟩, fun h0 => absurd rfl h0, rfl⟩
  | some names =>
    rw [← route_some hr] at hlen
    obtain ⟨node, v, hw, hw', hmem, hres⟩ := w.walk (m := n) w.cached.root (nil_notMem_route hr)
      (by omega)
    rw [w.mirrors.root] at hres
    exact ⟨node, v, hw, hw', hmem, hres⟩

theorem World.absolute (w : World T d k p (n + 260)) (habs : path.head? = some slash) :
    ∃ inode v, openLookup d k p path = .ok (some (0, inode), v) ∧
      World T d { k with vfs := v } p n ∧ (inode ≠ 0 → inode ∈ v.inodeBlocks) ∧
      (route (tokname d.stack path)).bind (T.resolve T.root) = v.number inode := by
  obtain ⟨inode, v, hf, hw, hmem, hres⟩ := w.follow path
  refine ⟨inode, v, ?_, hw, hmem, hres⟩
  rw [openLookup_absolute habs w.cached, hf]
  rfl

variable (cwd) in
/-- The lookup of a relative path whose directory exists. -/
theorem World.relative (w : World T d k p (n + 260 + 260)) (hr : Relative path)
    (hcwd : k.cwd p = cwd) {m : Word}
    (hdir : (route (tokname d.stack (openDir cwd path))).bind (T.resolve T.root) = some m) :
    ∃ dir inode v, dir ≠ 0 ∧ openLookup d k p path = .ok (some (dir, inode), v) ∧
      World T d { k with vfs := v } p n ∧ dir ∈ v.inodeBlocks ∧ (v.inodes dir).inodeNo = m ∧
      (inode ≠ 0 → inode ∈ v.inodeBlocks) ∧
      (relativeRoute (tokname d.stack) cwd path).bind (T.resolve T.root) = v.number inode := by
  obtain ⟨dir, v1, hf, hw, hmem, hres⟩ := w.follow (openDir cwd path)
  rw [hdir] at hres
  obtain ⟨h0, hno⟩ := Vfs.number_eq_some.mp hres.symm
  have hdm := hmem h0
  have hacts := hw.acts_of_mem hdm
  have hlen := w.length_names path
  obtain ⟨inode, v, hw2, hworld, hmem2, hres2⟩ := hw.walk (m := n) hdm
    (nil_notMem_components (tokname d.stack path)) (by omega)
  obtain ⟨-, hext, -, -⟩ := walk_spec w.serves.honest hw.cached hdm (nil_notMem_components _) hw2
  refine ⟨dir, inode, v, h0, ?_, hworld, hext.blocks dir hdm, ?_, hmem2, ?_⟩
  · rw [openLookup_relative hr.head, getdirHelper_route w.cached, hcwd, hf]
    show (if dir = 0 then _ else _) = _
    rw [if_neg h0, vfsSearch_relative (by rw [hacts]) (by rw [hacts]) hr, hw2]
    rfl
  · rw [(hext.record dir hdm).1]
    exact hno
  · rw [← hres2]
    cases hB : route (tokname d.stack (openDir cwd path)) with
    | none =>
      rw [hB] at hdir
      cases hdir
    | some B =>
      rw [hB, Option.bind_some] at hdir
      rw [relativeRoute, hB, Option.map_some, Option.bind_some, T.resolve_append, hdir,
        Option.bind_some, hno]

theorem newfd_first {f : Word} (hfd : k.fds p 0 = 0) : newfd k p f = (0, k.setFd p 0 f) := by
  have hfind : (List.finRange 256).find? (fun i => decide (k.fds p i = 0)) = some 0 := by
    rw [List.finRange_succ, List.find?_cons_of_pos]
    simpa using hfd
  unfold newfd
  rw [hfind]
  rfl

theorem openInstall_total {inode : Word} (flags : Word) (hst : Stocked k.vfs 1)
    (hop : ∀ i flags, d.opening i flags = (0, i.acts)) (hfd : k.fds p 0 = 0) (h0 : inode ≠ 0)
    (hacts : (k.vfs.inodes inode).acts.opens) :
    ∃ k', openInstall d k p inode flags = .ok (0, k') ∧ k'.openedAt p 0 =
      ((k.vfs.inodes inode).inodeNo, (k.vfs.inodes inode).name,
        (k.vfs.inodes (k.vfs.inodes inode).parent).inodeNo) := by
  obtain ⟨f, rest, hsup, hk⟩ := hst.kmalloc
  have hf0 : f ≠ 0 := (hst.fresh f (by rw [hsup]; exact .head _)).1
  obtain ⟨v, hopen⟩ : ∃ v, vfsOpen d k.vfs inode flags = .ok ((f, 0), v) := by
    unfold vfsOpen
    rw [hk]
    dsimp only [Vfs.setFile]
    rw [if_pos hacts]
    simp only [hop, lt_irrefl, if_false]
    exact ⟨_, rfl⟩
  obtain ⟨g, ho, hg⟩ := vfsOpen_ok hopen
  obtain ⟨rfl, -⟩ := hg.resolve_left hf0
  unfold openInstall
  rw [if_neg h0, hopen]
  dsimp only
  rw [if_neg hf0, newfd_first (k := { k with vfs := v }) hfd]
  refine ⟨_, rfl, ?_⟩
  have hslot : (Kernel.setFd { k with vfs := v } p 0 f).fds p (Fin.ofNat 256 (0 : Int).toNat) = f :=
    if_pos ⟨rfl, rfl⟩
  unfold Kernel.openedAt
  rw [hslot]
  dsimp only [Kernel.setFd]
  rw [ho.file, ho.inodes inode]
  rw [ho.inodes (k.vfs.inodes inode).parent]

section Calls
variable {v v1 : Vfs} {dir dir0 inode : Word}

variable (hlen : path.length < PATH_MAX) (hroot : k.vfs.rootFs ≠ 0)
include hlen hroot

theorem World.opens (w : World T d { k with vfs := v } p (n + 1))
    (hl : openLookup d k p path = .ok (some (dir, inode), v))
    (hmem : inode ≠ 0 → inode ∈ v.inodeBlocks) :
    OpensNode p (v.number inode) (sysOpen d k p path 0) := by
  have hopen : sysOpen d k p path 0 = openInstall d { k with vfs := v } p inode 0 := by
    unfold sysOpen openPlan
    rw [if_neg hroot, if_neg (by omega), hl]
    dsimp only
    rw [if_neg (fun h => absurd h.2 (by decide)), if_neg (fun h => absurd h.2 (by decide))]
  rw [hopen]
  by_cases h0 : inode = 0
  · rw [Vfs.number_eq_none.mpr h0, openInstall, if_pos h0]
    exact ⟨_, _, rfl, .inl ⟨by decide, rfl⟩⟩
  · obtain ⟨k', hi, hat⟩ := openInstall_total (k := { k with vfs := v }) 0
      (w.stocked.mono (by omega)) w.opening w.slot h0 (by rw [w.acts_of_mem (hmem h0)])
    rw [Vfs.number_ne h0]
    exact ⟨0, k', hi, .inr ⟨le_rfl, by rw [hat]⟩⟩

omit hlen hroot in
theorem World.newInode (w : World T d { k with vfs := v } p (n + 2)) (hdir : dir ∈ v.inodeBlocks)
    (path : Text) : ∃ node v', vfsNewInode d v dir path 0x8000 = .ok (node, v') ∧ node ≠ 0 ∧
      Stocked v' 1 ∧ (v'.inodes node).acts.opens ∧
      (v'.inodes (v'.inodes node).parent).inodeNo = (v.inodes dir).inodeNo := by
  obtain ⟨ss, hl⟩ := w.cached.lists dir hdir
  obtain ⟨info, hinfo, hopens⟩ := w.creates (v.inodes dir) path 0x8000
  have hacts : (v.inodes dir).acts = _ := w.acts_of_mem hdir
  obtain ⟨node, v', hnew⟩ : ∃ node v', vfsNewInode d v dir path 0x8000 = .ok (node, v') := by
    obtain ⟨node, u, hn, hlink⟩ := link_total info (n := n + 1) hl hdir w.stocked
    obtain ⟨v', hv'⟩ := hlink _ ((newInode_fresh hn).setParent dir)
    refine ⟨node, v', ?_⟩
    unfold vfsNewInode
    rw [hacts, if_neg (by decide), if_pos rfl, hinfo]
    simp only [hn, hv']
  rcases vfsNewInode_added hdir hl hnew with ⟨-, -, hcr⟩ | ⟨info', hinfo', ha⟩
  · rw [hacts] at hcr
    cases hcr
  · cases hinfo'.symm.trans hinfo
    refine ⟨node, v', hnew, ha.ne_zero, (ha.stocked w.stocked).mono (by omega), ?_, ?_⟩
    · rw [ha.record]
      exact hopens
    · obtain ⟨_, _, hold⟩ := ha.old hdir
      rw [ha.record, hold]

/-- A missing file is created in the directory that was looked up. -/
theorem World.open_creates (w : World T d { k with vfs := v1 } p (n + 2))
    (hl : openLookup d k p path = .ok (some (dir0, 0), v))
    (hg : (if dir0 = 0 then getdirHelper d { k with vfs := v } p path else .ok (dir0, v)) =
      .ok (dir, v1)) (hdir : dir ∈ v1.inodeBlocks) :
    ∃ k', sysOpen d k p path O_CREAT = .ok (0, k') ∧
      (k'.openedAt p 0).2.2 = (v1.inodes dir).inodeNo := by
  have hne := w.cached.ne_zero hdir
  obtain ⟨node, v', hnew, hn0, hst, hopens, hpar⟩ := w.newInode hdir path
  obtain ⟨k', hi, hat⟩ := openInstall_total (k := { k with vfs := v' }) O_CREAT hst w.opening w.slot
    hn0 hopens
  refine ⟨k', ?_, by rw [hat]; exact hpar⟩
  unfold sysOpen openPlan
  rw [if_neg hroot, if_neg (by omega), hl]
  dsimp only
  rw [if_neg (fun hx => absurd rfl hx.1), if_pos ⟨rfl, by decide⟩, hg]
  dsimp only
  rw [if_neg hne]
  dsimp only
  rw [hnew]
  exact hi

theorem open_nowhere (hl : openLookup d k p path = .ok (some (0, 0), v))
    (hg : getdirHelper d { k with vfs := v } p path = .ok (0, v1)) :
    sysOpen d k p path O_CREAT = .ok (-ENOENT, { k with vfs := v1 }) := by
  unfold sysOpen openPlan
  rw [if_neg hroot, if_neg (by omega), hl]
  dsimp only
  rw [if_pos (rfl : (0 : Word) = 0), hg]
  rfl

end Calls

theorem World.opens_absolute (w : World T d k p (n + 1 + 260)) (habs : path.head? = some slash)
    (hlen : path.length < PATH_MAX) :
    OpensNode p ((route (tokname d.stack path)).bind (T.resolve T.root))
      (sysOpen d k p path 0) := by
  obtain ⟨inode, v, hl, hw, hmem, hres⟩ := w.absolute habs
  rw [hres]
  exact hw.opens hlen (w.cached.ne_zero w.cached.root) hl hmem

theorem World.opens_relative (w : World T d k p (n + 1 + 260 + 260)) (hr : Relative path)
    (hlen : path.length < PATH_MAX) (hcwd : k.cwd p = cwd) :
    OpensNode p ((relativeRoute (tokname d.stack) cwd path).bind (T.resolve T.root))
      (sysOpen d k p path 0) := by
  have hroot := w.cached.ne_zero w.cached.root
  cases hdir : (route (tokname d.stack (openDir cwd path))).bind (T.resolve T.root) with
  | some m =>
    obtain ⟨dir, inode, v, -, hl, hw, -, -, hmem, hres⟩ := World.relative cwd w hr hcwd hdir
    rw [hres]
    exact hw.opens hlen hroot hl hmem
  | none =>
    have hnone : (relativeRoute (tokname d.stack) cwd path).bind (T.resolve T.root) = none := by
      unfold relativeRoute
      cases hB : route (tokname d.stack (openDir cwd path)) with
      | none => rfl
      | some B =>
        rw [hB, Option.bind_some] at hdir
        rw [Option.map_some, Option.bind_some, T.resolve_append, hdir]
        rfl
    obtain ⟨dir, v, hf, -, -, hres⟩ := w.follow (openDir cwd path)
    have h0 : dir = 0 := Vfs.number_eq_none.mp (hres.symm.trans hdir)
    have hl : openLookup d k p path = .ok (none, v) := by
      rw [openLookup_relative hr.head, getdirHelper_route w.cached, hcwd, hf]
      exact if_pos h0
    refine ⟨-ENOENT, { k with vfs := v }, ?_, .inl ⟨by decide, hnone⟩⟩
    unfold sysOpen openPlan
    rw [if_neg hroot, if_neg (by omega), hl]

end World

def directoryActs : Acts := ⟨true, true, true, true, false⟩

/-- The tree with one node at each depth, along the given names. -/
def lineTree (names : List Text) : Tree where
  root := 0
  child n name := if names[n.toNat]? = some name then some (n + 1) else none
  acts _ := directoryActs
  searchable _ _ _ _ := ⟨rfl, rfl⟩

/-- The tree in which every name leads back to the root. -/
def loopTree : Tree where
  root := 0
  child _ _ := some 0
  acts _ := directoryActs
  searchable _ _ _ _ := ⟨rfl, rfl⟩

def treeDriver (T : Tree) : Driver where
  search i name := (T.child i.inodeNo name).map fun n => ⟨n, name, T.acts n⟩
  create _ path _ := some ⟨1, basename path, directoryActs⟩
  opening i _ := (0, i.acts)

/-- Block addresses behind the root's. -/
def freshBlocks (n : Nat) : List Word := (List.range n).map fun i => ofNat 32 (i + 2)

/-- A process in `cwd`, with nothing cached but the root. -/
def bareKernel (T : Tree) (cwd : Text) : Kernel where
  vfs :=
    { inodes := fun a => if a = 1 then ⟨T.root, [], T.acts T.root, 0, 0, 0⟩
        else ⟨0, [], directoryActs, 0, 0, 0⟩
      files := fun _ => ⟨0, 0, 0⟩
      rootFs := 1
      inodeBlocks := [1]
      fileBlocks := []
      supply := freshBlocks 2000 }
  procs := 1
  fds := fun _ _ => 0
  cwd := fun _ => cwd

theorem resolve_line {M : List Text} (hM : M.length < 2 ^ 32) {i : Nat} (hi : i ≤ M.length)
    (L : List Text) : (lineTree M).resolve (ofNat 32 i) L =
      if L <+: M.drop i then some (ofNat 32 (i + L.length)) else none := by
  induction L generalizing i with
  | nil => simp [Tree.resolve]
  | cons name rest ih =>
    have hchild : (lineTree M).child (ofNat 32 i) name =
        if M[i]? = some name then some (ofNat 32 i + 1) else none := by
      simp only [lineTree]
      rw [toNat_ofNat_of_lt (by omega)]
    unfold Tree.resolve
    rw [hchild]
    by_cases hm : M[i]? = some name
    · have hlt : i < M.length := (List.getElem?_eq_some_iff.mp hm).1
      have hdrop : M.drop i = name :: M.drop (i + 1) := by
        rw [List.drop_eq_getElem_cons hlt, (List.getElem?_eq_some_iff.mp hm).2]
      have hnext : ofNat 32 i + 1 = ofNat 32 (i + 1) := by
        rw [BitVec.ofNat_add]
        rfl
      rw [if_pos hm]
      dsimp only
      rw [hnext, ih (by omega), hdrop, List.length_cons, Nat.add_assoc, Nat.add_comm 1]
      simp
    · rw [if_neg hm]
      rw [if_neg]
      intro hp
      obtain ⟨t, ht⟩ := hp
      have hget := congrArg (fun l => l[0]?) ht
      simp only [List.cons_append, List.getElem?_cons_zero, List.getElem?_drop,
        Nat.add_zero] at hget
      exact hm hget.symm

theorem resolve_loop (L : List Text) : loopTree.resolve 0 L = some 0 := by
  induction L with
  | nil => rfl
  | cons name rest ih => exact ih

theorem treeDriver_serves (T : Tree) : (treeDriver T).Serves T := by
  refine ⟨fun _ _ => rfl, fun _ path path' _ h => ?_⟩
  show some (_ : NodeInfo) = some _
  rw [h]

theorem freshBlocks_stock {n : Nat} (hn : n + 2 ≤ 2 ^ 32) : (freshBlocks n).length = n ∧
    (freshBlocks n).Nodup ∧ ∀ a ∈ freshBlocks n, a ≠ 0 ∧ a ≠ 1 := by
  unfold freshBlocks
  refine ⟨by rw [List.length_map, List.length_range],
    List.Nodup.map_on (fun i hi j hj he => ?_) List.nodup_range, fun a ha => ?_⟩
  · have heq := congrArg BitVec.toNat he
    rw [List.mem_range] at hi hj
    rw [BitVec.toNat_ofNat, BitVec.toNat_ofNat] at heq
    omega
  · obtain ⟨i, hi, rfl⟩ := List.mem_map.mp ha
    rw [List.mem_range] at hi
    refine ⟨fun he => ?_, fun he => ?_⟩
    · have heq := congrArg BitVec.toNat he
      change (i + 2) % 2 ^ 32 = 0 at heq
      omega
    · have heq := congrArg BitVec.toNat he
      change (i + 2) % 2 ^ 32 = 1 at heq
      omega

theorem bareKernel_world (T : Tree) (hT : ∀ m, T.acts m = directoryActs) (cwd : Text) :
    World T (treeDriver T) (bareKernel T cwd) 0 2000 := by
  have hroot : (bareKernel T cwd).vfs.inodes 1 = ⟨T.root, [], T.acts T.root, 0, 0, 0⟩ := by
    simp [bareKernel]
  have hkids : Kids (bareKernel T cwd).vfs 1 [] := by
    show ((bareKernel T cwd).vfs.inodes 1).children = 0
    rw [hroot]
  have hone : ∀ a ∈ (bareKernel T cwd).vfs.inodeBlocks, a = 1 := fun a ha =>
    List.mem_singleton.mp ha
  obtain ⟨hlen, hnd, hfresh⟩ := freshBlocks_stock (n := 2000) (by decide)
  have hsup : (bareKernel T cwd).vfs.supply = freshBlocks 2000 := by rw [bareKernel]
  have hst : Stocked (bareKernel T cwd).vfs 2000 := by
    refine ⟨?_, ?_, fun a ha => ?_⟩
    · rw [hsup, hlen]
    · rw [hsup]
      exact hnd
    · rw [hsup] at ha
      refine ⟨(hfresh a ha).1, fun hm => (hfresh a ha).2 (hone a hm), ?_⟩
      exact List.not_mem_nil
  refine ⟨treeDriver_serves T, fun _ => Nat.zero_le 4, fun _ _ => rfl,
    fun _ path _ => ⟨_, rfl, rfl⟩, hT,
    ⟨List.mem_singleton_self _, fun h0 => absurd (hone 0 h0) (by decide), List.nodup_singleton _,
      ?_, ?_, fun a ha => ?_⟩,
    ⟨?_, trivial, fun _ _ _ _ _ => trivial, fun _ _ => .inl trivial, fun a ha _ => ?_,
      fun a ha _ ss hs c hc => ?_⟩,
    hst, rfl⟩
  · show ((bareKernel T cwd).vfs.inodes 1).parent = 0
    rw [hroot]
  · show ((bareKernel T cwd).vfs.inodes 1).acts.iAct ∧
      ((bareKernel T cwd).vfs.inodes 1).acts.search
    rw [hroot, hT]
    exact ⟨rfl, rfl⟩
  · rw [hone a ha]
    exact ⟨[], hkids, List.forall_mem_nil _, List.nodup_nil, List.not_mem_nil⟩
  · show ((bareKernel T cwd).vfs.inodes 1).inodeNo = T.root
    rw [hroot]
  · rw [hone a ha, hroot]
  · rw [hone a ha] at hs
    rw [Chain.unique hs hkids] at hc
    cases hc

/-- In every tree with the current directory, and whatever part of it is cached, both
strings open the same file. -/
def OpensAgree (cwd path : Text) : Prop :=
  ∀ (T : Tree) (d : Driver) (k : Kernel) (p : Nat) (flags : Word), d.Serves T → Cached k.vfs →
    Mirrors T k.vfs → k.cwd p = cwd → IsDirectory T (tokname d.stack cwd) →
    Agree p (sysOpen d k p path flags) (sysOpen d k p (joined cwd path) flags)

section Agreement
variable {cwd path : Text} {A B : List Text} {stack : Text → Text}

theorem OpensAgree.bare (h : OpensAgree cwd path) (T : Tree) (hT : ∀ m, T.acts m = directoryActs)
    (hs : ∀ t, (stack t).length ≤ 4) {n : Word} (hA : route (tokname stack cwd) = some A)
    (hn : T.resolve T.root A = some n) (flags : Word) :
    Agree 0 (sysOpen { treeDriver T with stack := stack } (bareKernel T cwd) 0 path flags)
      (sysOpen { treeDriver T with stack := stack } (bareKernel T cwd) 0 (joined cwd path) flags) := by
  have w := (bareKernel_world T hT cwd).withStack hs
  exact h T _ _ 0 flags w.serves w.cached w.mirrors rfl
    ⟨A, n, hA, hn, by rw [hT]; rfl, by rw [hT]; rfl⟩

theorem bareKernel_root (T : Tree) (cwd : Text) : (bareKernel T cwd).vfs.rootFs ≠ 0 := by
  show (1 : Word) ≠ 0
  decide

/-- Two prefixes of a line that end at the same node are equal. -/
theorem prefix_eq {M : List Text} (hM : M.length < 2 ^ 32) (hA : A <+: M) (hB : B <+: M)
    (h : ofNat 32 A.length = ofNat 32 B.length) : A = B := by
  have hAl := hA.length_le
  have hBl := hB.length_le
  have hn := congrArg BitVec.toNat h
  rw [toNat_ofNat_of_lt (by omega),
    toNat_ofNat_of_lt (by omega)] at hn
  exact (List.prefix_of_prefix_length_le hA hB hn.le).eq_of_length hn

theorem resolve_line_root {M : List Text} (hM : M.length < 2 ^ 32) (L : List Text) :
    (lineTree M).resolve (lineTree M).root L =
      if L <+: M then some (ofNat 32 L.length) else none := by
  have h := resolve_line hM (Nat.zero_le _) L
  rwa [List.drop_zero, Nat.zero_add] at h

/-- A stack on which "/" and `x` stand behind the string `t`, and "/a" behind any other. -/
def stackBehind (t x : Text) : Text → Text := fun u => slash :: if u = t then x else [0x61]

theorem tokname_other {t u : Text} (h : u ≠ t) (x : Text) :
    tokname (stackBehind t x) u = tokname (stackBehind t [0x61]) u := by
  simp [tokname, stackBehind, h]

theorem route_long {t x : Text} (hs : stack t = slash :: x) (ht : 256 ≤ t.length)
    (hx : components x ≠ []) :
    route (tokname stack t) = some (components (t.take 256) ++ components x) := by
  have hc : components (tokname stack t) = components (t.take 256) ++ components x := by
    rw [tokname, if_neg (by omega), hs, components_append]
  have hcons := List.append_ne_nil_of_right_ne_nil (components (t.take 256)) hx
  have hne : tokname stack t ≠ [slash] := by
    intro he
    rw [he] at hc
    exact hcons (hc.symm.trans (by decide))
  rw [route, if_neg hne, hc, if_neg hcons]

/-- With something on the stack the current directory has a name, at the beginning of the
joined string. -/
theorem route_cwd (hA : route cwd = some A) (path x : Text) :
    ∃ A', route (tokname (stackBehind (joined cwd path) x) cwd) = some A' ∧
      A' <+: components ((joined cwd path).take 256) ++ [[0x61], [0x61]] := by
  have hlen := length_joined cwd path
  have hne : cwd ≠ joined cwd path := by
    intro he
    rw [← he] at hlen
    omega
  rcases Nat.lt_or_ge cwd.length 256 with hlt | hge
  · obtain ⟨k, hk⟩ : ∃ k, 256 - cwd.length = k + 1 := ⟨255 - cwd.length, by omega⟩
    refine ⟨A, by rw [tokname_short hlt, hA], ?_⟩
    rw [joined, List.take_append, List.take_of_length_le hlt.le, hk, List.take_succ_cons,
      components_append, route_some hA, List.append_assoc]
    exact List.prefix_append _ _
  · refine ⟨_, route_long (x := [0x61]) (by simp [stackBehind, hne]) hge (by decide), ?_⟩
    rw [joined, List.take_append_of_le_length hge]
    exact List.prefix_append_right_inj _ |>.mpr (by decide)

section Lines
variable (h : OpensAgree cwd path) (habs : cwd.head? = some slash) (hr : Relative path)
  (hlen : path.length < PATH_MAX)
include h habs hr hlen

/-- Both calls find the same node of every tree with the current directory. -/
theorem OpensAgree.resolve (hlen' : (joined cwd path).length < PATH_MAX) (T : Tree)
    (hT : ∀ m, T.acts m = directoryActs) (stack : Text → Text) (hs : ∀ t, (stack t).length ≤ 4)
    {n : Word} (hA : route (tokname stack cwd) = some A) (hn : T.resolve T.root A = some n) :
    (relativeRoute (tokname stack) cwd path).bind (T.resolve T.root) =
      (route (tokname stack (joined cwd path))).bind (T.resolve T.root) := by
  have w := (bareKernel_world T hT cwd).withStack hs
  exact (h.bare T hT hs hA hn 0).node (World.opens_relative (n := 1479) w hr hlen rfl)
    (World.opens_absolute (n := 1739) w (joined_absolute habs path) hlen')

/-- A string that fills `tokname` leads where the stack says. -/
theorem OpensAgree.short (hA : route cwd = some A) : (joined cwd path).length < 256 := by
  by_contra hlong
  have hstack (x : Text) (hx : x.length ≤ 3) (t : Text) :
      (stackBehind (joined cwd path) x t).length ≤ 4 := by
    unfold stackBehind
    split_ifs
    · exact Nat.succ_le_succ hx
    · exact (by decide : 2 ≤ 4)
  have hlt := length_joined cwd path
  have hpath : path ≠ joined cwd path := by
    intro he
    rw [← he] at hlt
    omega
  have hdir : openDir cwd path ≠ joined cwd path := by
    intro he
    obtain ⟨c, rest, rfl, -⟩ := hr
    have hle := length_openDir cwd (List.cons_ne_nil c rest)
    rw [he] at hle
    omega
  have hcwd := route_cwd hA path
  by_cases hlen' : (joined cwd path).length < PATH_MAX
  · -- the absolute call goes on with one name or two, the relative one does not
    have hM := length_components ((joined cwd path).take 256)
    generalize hB : components ((joined cwd path).take 256) = B at hcwd hM
    rw [List.length_take] at hM
    have hM' : (B ++ [[0x61], [0x61]]).length < 2 ^ 32 := by
      rw [List.length_append]
      exact (by omega : B.length + 2 < 2 ^ 32)
    have hstep (x : Text) (ys : List Text) (hx : x.length ≤ 3) (hys : components x = ys)
        (hne : ys ≠ []) (hp : ys <+: [[0x61], [0x61]]) :
        (relativeRoute (tokname (stackBehind (joined cwd path) [0x61])) cwd path).bind
          ((lineTree (B ++ [[0x61], [0x61]])).resolve 0) =
            some (ofNat 32 (B.length + ys.length)) := by
      obtain ⟨A', hA', hpre⟩ := hcwd x
      have hres := h.resolve habs hr hlen hlen' (lineTree _) (fun _ => rfl) _ (hstack x hx) hA'
        ((resolve_line_root hM' A').trans (if_pos hpre))
      have hlong' : route (tokname (stackBehind (joined cwd path) x) (joined cwd path)) =
          some (B ++ ys) := by
        rw [route_long (x := x) (by simp [stackBehind]) (by omega) (hys ▸ hne), hB, hys]
      rw [hlong', Option.bind_some, resolve_line_root hM',
        if_pos ((List.prefix_append_right_inj B).mpr hp), List.length_append, relativeRoute,
        tokname_other hdir, tokname_other hpath] at hres
      exact hres
    have h1 := hstep [0x61] [[0x61]] (by decide) (by decide) (by decide) (by decide)
    have h2 := hstep [0x61, slash, 0x61] [[0x61], [0x61]] (by decide) (by decide) (by decide)
      (by decide)
    have hk := congrArg BitVec.toNat (Option.some.inj (h1.symm.trans h2))
    change (B.length + 1) % 2 ^ 32 = (B.length + 2) % 2 ^ 32 at hk
    omega
  · obtain ⟨A', hA', -⟩ := hcwd [0x61]
    obtain ⟨C, hC⟩ := route_openDir hr hA'
    have hag := h.bare loopTree (fun _ => rfl) (hstack [0x61] (by decide)) hA' (resolve_loop A') 0
    have w := (bareKernel_world loopTree (fun _ => rfl) cwd).withStack (hstack [0x61] (by decide))
    have habs' (d : Driver) :
        OpensNode 0 none (sysOpen d (bareKernel loopTree cwd) 0 (joined cwd path) 0) := by
      refine ⟨-ENAMETOOLONG, bareKernel loopTree cwd, ?_, .inl ⟨by decide, rfl⟩⟩
      unfold sysOpen openPlan
      rw [if_neg (bareKernel_root _ _), if_pos (not_lt.mp hlen')]
    have hnone : (relativeRoute (tokname (stackBehind (joined cwd path) [0x61])) cwd path).bind
        (loopTree.resolve 0) = none :=
      hag.node (World.opens_relative (n := 1479) w hr hlen rfl) (habs' _)
    rw [relativeRoute, hC] at hnone
    exact absurd ((resolve_loop _).symm.trans hnone) (by simp)

variable (hA : route cwd = some A) (hshort : (joined cwd path).length < 256)
include hA hshort

theorem OpensAgree.found : relativeRoute id cwd path = route (joined cwd path) := by
  have hB := route_joined hr hA
  have hcwd : cwd.length < 256 := by
    rw [length_joined] at hshort
    omega
  have hM : (A ++ components path).length < 2 ^ 32 := by
    have hle := length_components (joined cwd path)
    rw [route_some hB]
    omega
  have hres := h.resolve habs hr hlen (hshort.trans (by decide)) (lineTree (A ++ components path))
    (fun _ => rfl) (fun _ => []) (fun _ => Nat.zero_le 4)
    ((congrArg route (tokname_short hcwd)).trans hA)
    ((resolve_line_root hM A).trans (if_pos (List.prefix_append _ _)))
  rw [relativeRoute_short hshort hr, tokname_short hshort, hB, Option.bind_some,
    resolve_line_root hM, if_pos List.prefix_rfl] at hres
  obtain ⟨C, hC, hres⟩ := Option.bind_eq_some_iff.mp hres
  rw [resolve_line_root hM] at hres
  split_ifs at hres with hp
  rw [hC, hB, prefix_eq hM hp List.prefix_rfl (Option.some.inj hres)]

theorem OpensAgree.place (hsame : relativeRoute id cwd path = route (joined cwd path)) :
    route (openDir cwd path) = route (openDir cwd (joined cwd path)) := by
  have hB := route_joined hr hA
  have hC := openDir_route hr hA hsame
  obtain ⟨hd1, hd2⟩ := openDir_short hshort hr
  have hlen' : (joined cwd path).length < PATH_MAX := hshort.trans (by decide)
  have hcwd : cwd.length < 256 := by
    rw [length_joined] at hshort
    omega
  have hM : A.length < 2 ^ 32 := by
    have hle := length_components cwd
    rw [route_some hA]
    omega
  have hroot := bareKernel_root (lineTree A) cwd
  have hs : ∀ t : Text, ((fun _ => [] : Text → Text) t).length ≤ 4 := fun _ => Nat.zero_le 4
  have w := (bareKernel_world (lineTree A) (fun _ => rfl) cwd).withStack hs
  have hag := h.bare (lineTree A) (fun _ => rfl) hs ((congrArg route (tokname_short hcwd)).trans hA)
    ((resolve_line_root hM A).trans (if_pos List.prefix_rfl)) O_CREAT
  have hmissing : (route (joined cwd path)).bind ((lineTree A).resolve (lineTree A).root) = none := by
    rw [hB, Option.bind_some, resolve_line_root hM, if_neg]
    intro hp
    have hle := hp.length_le
    have hpos := List.length_pos_of_ne_nil hr.components_ne_nil
    rw [List.length_append] at hle
    omega
  -- the relative call creates the file in the directory it looked up
  obtain ⟨dir, inode, v, h0, hl, hw, hdm, hino, -, hres⟩ := World.relative cwd (n := 1480)
    w hr rfl (m := ofNat 32 A.length)
    (by rw [tokname_short hd1, hC, Option.bind_some, resolve_line_root hM, if_pos List.prefix_rfl])
  rw [relativeRoute_short hshort hr, hsame, hmissing] at hres
  obtain rfl := Vfs.number_eq_none.mp hres.symm
  obtain ⟨k, hopen, hat⟩ := World.open_creates (n := 1478) hlen hroot hw hl (if_neg h0) hdm
  -- the absolute one in the directory of its own string
  obtain ⟨inode', v1, hl', hw1, -, hres'⟩ :=
    World.absolute (n := 1740) w (joined_absolute habs path)
  rw [tokname_short hshort, hmissing] at hres'
  obtain rfl := Vfs.number_eq_none.mp hres'.symm
  obtain ⟨dir', v2, hf, hw2, hmem, hres2⟩ := World.follow (n := 1480) hw1
    (openDir cwd (joined cwd path))
  have hget := (getdirHelper_route (p := 0) hw1.cached (joined cwd path)).trans hf
  rw [hopen] at hag
  have hd0 : dir' ≠ 0 := by
    intro he
    rw [he] at hget
    rw [open_nowhere hlen' hroot hl' hget] at hag
    exact absurd (hag.1.mpr (by decide)) (by decide)
  obtain ⟨k', hopen', hat'⟩ := World.open_creates (n := 1478)
    (k := bareKernel (lineTree A) cwd) hlen' hroot hw2 hl'
    ((if_pos rfl).trans hget) (hmem hd0)
  rw [hopen'] at hag
  have hpar := congrArg (fun x : Word × Text × Word => x.2.2) (hag.2 (by decide))
  rw [hat, hat', hino] at hpar
  rw [Vfs.number_ne hd0, ← hpar, tokname_short hd2] at hres2
  obtain ⟨D, hD, hres2⟩ := Option.bind_eq_some_iff.mp hres2
  rw [resolve_line_root hM] at hres2
  split_ifs at hres2 with hp
  rw [hC, hD, prefix_eq hM hp List.prefix_rfl (Option.some.inj hres2)]

end Lines

theorem Agree.refl (p : Nat) (r : Except Stop (Int × Kernel)) : Agree p r r := by
  cases r with
  | error e => trivial
  | ok r => exact ⟨Iff.rfl, fun _ => rfl⟩

/-- A relative path is opened as the absolute one in every tree exactly if both strings lead
along the same names. -/
theorem opens_agree_iff (cwd path : Text) (habs : cwd.head? = some slash)
    (hcwd : (route cwd).isSome) (hr : Relative path) :
    OpensAgree cwd path ↔ SameRoute cwd path := by
  obtain ⟨A, hA⟩ := Option.isSome_iff_exists.mp hcwd
  refine ⟨fun h => ?_, fun h T d k p flags hs hc hm hk hdir => ?_⟩
  · by_cases hlong : PATH_MAX ≤ path.length
    · exact .inl hlong
    · have hlen := not_le.mp hlong
      have hshort := h.short habs hr hlen hA
      have hfound := h.found habs hr hlen hA hshort
      exact .inr ⟨hshort, hfound, h.place habs hr hlen hA hshort hfound⟩
  · have heq : sysOpen d k p path flags = sysOpen d k p (joined cwd path) flags := by
      have hle := length_joined cwd path
      have hroot := hc.ne_zero hc.root
      rcases h with hlong | ⟨hshort, hsame, hplace⟩
      · unfold sysOpen openPlan
        rw [if_neg hroot, if_neg hroot, if_pos hlong, if_pos (by omega)]
      · rw [tokname_short (by omega)] at hdir
        have hlen : (joined cwd path).length < PATH_MAX := hshort.trans (by decide)
        exact (sameLookup_of_sameRoute hs hc hm hk hdir habs hr hshort hsame hplace).sysOpen_eq hs
          (basename_append cwd path).symm hroot (by omega) hlen flags
    rw [heq]
    exact .refl p _

end Agreement
/-- In /x, the names /x/a and a. -/
theorem opens_agree_one_name : SameRoute [slash, 0x78] [0x61] ∧ OpensAgree [slash, 0x78] [0x61] :=
  ⟨by decide, (opens_agree_iff [slash, 0x78] [0x61] rfl (by decide)
    ⟨0x61, [], rfl, by decide⟩).mpr (by decide)⟩

/-- The tree with the file /x/a/b. -/
def fileTree : Tree := lineTree [[0x78], [0x61], [0x62]]

/-- In /x, the file /x/a/b is not found as a/b: the directory is looked up as /a. -/
theorem relative_path_misses_file :
    ¬ ∀ cwd path : Text, cwd.head? = some slash → (route cwd).isSome → Relative path →
      OpensAgree cwd path := by
  intro h
  have hall := h [slash, 0x78] [0x61, slash, 0x62] rfl (by decide)
    ⟨0x61, [slash, 0x62], rfl, by decide⟩
  have hsame := hall.resolve rfl ⟨0x61, [slash, 0x62], rfl, by decide⟩ (by decide) (by decide)
    fileTree (fun _ => rfl) (fun _ => []) (fun _ => Nat.zero_le 4) (A := [[0x78]]) (n := 1)
    (by decide) (by decide)
  exact absurd hsame (by decide)

end TapiOS.Task
