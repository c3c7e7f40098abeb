import TapiOS.Task.OpenPaths
import TapiOS.Fs.NameClose
import TapiOS.Task.FileCounts

/-!
# Lookups in a tree

What `_open` finds is what the directory tree has under the path, as long as the cache
shows the tree and the path leads to no mount.
-/
namespace TapiOS.Task

open Lib Util Fs

/-- The names that `_open` follows from the root to find the file. -/
def searched (tok : Text → Text) (cwd path : Text) : Option (List Text) :=
  if path.head? = some slash then route (tok path)
  else if path = [] then none
  else relativeRoute tok cwd path

/-- walk_path_do reads the path and that of its directory as they are. -/
def Short (cwd path : Text) : Prop := path.length < 256 ∧ (openDir cwd path).length < 256

theorem Short.searched {stack : Text → Text} {cwd path : Text} (h : Short cwd path) :
    searched (tokname stack) cwd path = searched id cwd path := by
  unfold Task.searched relativeRoute
  rw [tokname_short h.1, tokname_short h.2]
  rfl

/-- The lookups of `_open` lead to no mount. -/
def Inside (T : Tree) (P : Part) (tok : Text → Text) (cwd path : Text) : Prop :=
  (route (tok (openDir cwd path))).all (T.within P T.root) ∧
    (searched tok cwd path).all (T.within P T.root)

theorem Short.inside {T : Tree} {P : Part} {stack : Text → Text} {cwd path : Text}
    (h : Short cwd path) (hin : Inside T P id cwd path) : Inside T P (tokname stack) cwd path := by
  unfold Inside
  rw [tokname_short h.2, h.searched]
  exact hin

/-- What openLookup found: the directory of a relative path, and the node the path leads to. -/
structure FoundPath (T : Tree) (tok : Text → Text) (cwd path : Text) (v : Vfs)
    (dir inode : Word) : Prop where
  absolute : path.head? = some slash → dir = 0
  relative : path.head? ≠ some slash → dir ∈ v.inodeBlocks ∧
    (route (tok (openDir cwd path))).bind (T.resolve T.root) = some (v.inodes dir).inodeNo
  found : inode ≠ 0 → inode ∈ v.inodeBlocks ∧ Placed v inode
  resolved : (searched tok cwd path).bind (T.resolve T.root) = v.number inode

/-- The cache shows the tree that the driver serves. -/
structure Shown (T : Tree) (d : Driver) (P : Part) (v : Vfs) : Prop where
  serves : d.Serves T
  cached : Cached v
  mirrors : Mirrors T v P

section Lookup
variable {T : Tree} {d : Driver} {P : Part} {k : Kernel} {v v' : Vfs} {w node : Word}
  {p : Nat} {path : Text}

/-- Files, descriptors and freed inodes do not matter. -/
theorem Shown.trimmed (h : Shown T d P v) (ht : Trimmed v v') : Shown T d P v' :=
  ⟨h.serves, ht.cached h.cached, ht.mirrors h.cached h.mirrors⟩

theorem Shown.walk {names : List Text} (h : Shown T d P v) (hw : w ∈ v.inodeBlocks)
    (hne : [] ∉ names) (hpl : Placed v w) (hown : P.own (v.inodes w).inodeNo)
    (hin : T.within P (v.inodes w).inodeNo names)
    (hk : walk d v w names = .ok (node, v')) :
    Shown T d P v' ∧ Extends v v' ∧ (node ≠ 0 → node ∈ v'.inodeBlocks ∧ Placed v' node) ∧
      T.resolve (v.inodes w).inodeNo names = v'.number node := by
  have hd := h.serves.honest
  obtain ⟨hc, he, hfound, -⟩ := walk_spec hd h.cached hw hne hk
  obtain ⟨hm, hres⟩ := walk_resolves h.serves h.cached hw hne h.mirrors hown hin hk
  exact ⟨⟨h.serves, hc, hm⟩, he,
    fun h0 => ⟨(hfound h0).1, walk_placed hd h.cached hw hne hpl hk h0⟩, hres⟩

theorem Shown.follow (h : Shown T d P v) (hin : (route path).all (T.within P T.root))
    (hf : follow d v (route path) = .ok (node, v')) :
    Shown T d P v' ∧ Extends v v' ∧ (node ≠ 0 → node ∈ v'.inodeBlocks ∧ Placed v' node) ∧
      (route path).bind (T.resolve T.root) = v'.number node := by
  cases hr : route path with
  | none =>
    rw [hr] at hf
    cases hf
    exact ⟨h, .refl _, fun h0 => absurd rfl h0, rfl⟩
  | some names =>
    rw [hr] at hf hin
    have hroot := h.mirrors.root
    obtain ⟨hs, he, hfound, hres⟩ := h.walk h.cached.root (nil_notMem_route hr) (.inl rfl)
      (hroot ▸ h.mirrors.top) (hroot ▸ hin) hf
    rw [hroot] at hres
    exact ⟨hs, he, hfound, hres⟩

/-- With a block for each name a lookup from the root returns. -/
theorem Shown.follow_total (h : Shown T d P v) (hst : Stocked v path.length) :
    ∃ node v', Task.follow d v (route path) = .ok (node, v') := by
  cases hr : route path with
  | none => exact ⟨0, v, rfl⟩
  | some names =>
    have hlen : names.length ≤ path.length := by
      rw [route_some hr]
      exact length_components _
    obtain ⟨node, v', hw, -⟩ := walk_total (n := 0) h.serves.honest h.cached h.cached.root
      (nil_notMem_route hr) (hst.mono (by omega))
    exact ⟨node, v', hw⟩

theorem Shown.searchBelow {dir : Word} {cwd : Text} (h : Shown T d P v)
    (hd : dir ∈ v.inodeBlocks) (hpl : Placed v dir) (hrel : path.head? ≠ some slash)
    (hdir : (route (tokname d.stack (openDir cwd path))).bind (T.resolve T.root) =
      some (v.inodes dir).inodeNo)
    (hin : (searched (tokname d.stack) cwd path).all (T.within P T.root))
    (hv : vfsSearch d v dir path = .ok (node, v')) :
    Shown T d P v' ∧ Extends v v' ∧ (node ≠ 0 → node ∈ v'.inodeBlocks ∧ Placed v' node) ∧
      (searched (tokname d.stack) cwd path).bind (T.resolve T.root) = v'.number node := by
  rw [searched, if_neg hrel] at hin ⊢
  have hi : (v.inodes dir).acts.iAct := by
    by_contra hi
    unfold vfsSearch at hv
    rw [if_pos (by simpa using hi)] at hv
    cases hv
  cases path with
  | nil =>
    have hnone : vfsSearch d v dir [] = .ok (0, v) := by
      unfold vfsSearch walkPath
      rw [hi]
      cases (v.inodes dir).acts.search <;> rfl
    rw [hnone] at hv
    cases hv
    exact ⟨h, .refl _, fun h0 => absurd rfl h0, rfl⟩
  | cons c rest =>
    have hr : Relative (c :: rest) := ⟨c, rest, rfl, fun hc => hrel (by rw [hc]; rfl)⟩
    obtain ⟨B, hB, hn⟩ := Option.bind_eq_some_iff.mp hdir
    have hown := h.mirrors.resolve h.mirrors.top hn
    rw [if_neg (List.cons_ne_nil _ _), relativeRoute, hB] at hin ⊢
    change T.within P T.root (B ++ _) = true at hin
    rw [Tree.within_append, hn, Bool.and_eq_true] at hin
    have hroute : T.resolve T.root (B ++ components (tokname d.stack (c :: rest))) =
        T.resolve (v.inodes dir).inodeNo (components (tokname d.stack (c :: rest))) := by
      rw [Tree.resolve_append, hn]
      rfl
    change _ ∧ _ ∧ _ ∧ T.resolve T.root (B ++ _) = _
    rw [hroute]
    cases hs : (v.inodes dir).acts.search with
    | true =>
      rw [vfsSearch_relative hi hs hr] at hv
      exact h.walk hd (nil_notMem_components _) hpl hown hin.2 hv
    | false =>
      unfold vfsSearch at hv
      rw [hi, hs] at hv
      cases hv
      rw [h.mirrors.acts dir hd hown] at hs
      exact ⟨h, .refl _, fun h0 => absurd rfl h0,
        Tree.resolve_unsearchable hs hr.tokname.components_ne_nil⟩

theorem Shown.lookup {r : Option (Word × Word)} (h : Shown T d P k.vfs)
    (hin : Inside T P (tokname d.stack) (k.cwd p) path)
    (hl : openLookup d k p path = .ok (r, v)) :
    Shown T d P v ∧ Extends k.vfs v ∧
      match r with
      | none => (route (tokname d.stack (openDir (k.cwd p) path))).bind (T.resolve T.root) = none
      | some (dir, inode) => FoundPath T (tokname d.stack) (k.cwd p) path v dir inode := by
  by_cases habs : path.head? = some slash
  · rw [openLookup_absolute habs h.cached] at hl
    cases hf : Task.follow d k.vfs (route (tokname d.stack path)) with
    | error e =>
      rw [hf] at hl
      cases hl
    | ok r =>
      rw [hf] at hl
      cases hl
      have hall := hin.2
      rw [searched, if_pos habs] at hall
      obtain ⟨hs, he, hfound, hres⟩ := h.follow hall hf
      refine ⟨hs, he, fun _ => rfl, fun hr => absurd habs hr, hfound, ?_⟩
      rw [searched, if_pos habs]
      exact hres
  · rw [openLookup_relative habs] at hl
    cases hg : getdirHelper d k p path with
    | error e =>
      rw [hg] at hl
      cases hl
    | ok r1 =>
      obtain ⟨dir, v1⟩ := r1
      rw [hg] at hl
      rw [getdirHelper_route h.cached] at hg
      obtain ⟨hs1, he1, hfound1, hres1⟩ := h.follow hin.1 hg
      change (if dir = 0 then _ else _) = _ at hl
      by_cases h0 : dir = 0
      · rw [if_pos h0] at hl
        cases hl
        exact ⟨hs1, he1, hres1.trans (Vfs.number_eq_none.mpr h0)⟩
      · rw [if_neg h0] at hl
        rw [Vfs.number_ne h0] at hres1
        obtain ⟨hdm, hpl⟩ := hfound1 h0
        cases hv : vfsSearch d v1 dir path with
        | error e =>
          rw [hv] at hl
          cases hl
        | ok r2 =>
          rw [hv] at hl
          cases hl
          obtain ⟨hs2, he2, hfound2, hres2⟩ := hs1.searchBelow hdm hpl habs hres1 hin.2 hv
          refine ⟨hs2, he1.trans he2, fun hr => absurd hr habs, fun _ => ⟨he2.blocks _ hdm, ?_⟩,
            hfound2, hres2⟩
          rw [(he2.record dir hdm).1]
          exact hres1

end Lookup

/-- A descriptor that was handed out: its file has an inode in the cache. -/
def Handed (k : Kernel) (p : Nat) (ret : Int) : Prop :=
  0 ≤ ret → ∃ i : Fd, ret = i.val ∧ k.fds p i ∉ k.vfs.inodeBlocks ∧
    (k.vfs.files (k.fds p i)).inode ∈ k.vfs.inodeBlocks ∧
    Placed k.vfs (k.vfs.files (k.fds p i)).inode

theorem handed_of_neg {k : Kernel} {p : Nat} {ret : Int} (h : ret < 0) : Handed k p ret :=
  fun h0 => absurd h0 (by omega)

/-- `_open` has reached vfs_open for `node`: the descriptor stands for a new file of the
node, and the names are as they were. -/
structure Installs (k k' : Kernel) (p : Nat) (node : Word) (ret : Int) : Prop where
  inodes : k'.vfs.inodes = k.vfs.inodes
  blocks : k'.vfs.inodeBlocks = k.vfs.inodeBlocks
  rootFs : k'.vfs.rootFs = k.vfs.rootFs
  refused : ret < 0 → (k.vfs.inodes node).acts.opens = false ∨ ∀ i, k.fds p i ≠ 0
  opened : 0 ≤ ret → ∃ i : Fd, ret = i.val ∧ k'.fds p i ∉ k'.vfs.inodeBlocks ∧
    k'.fds p i ≠ 0 ∧ (k'.vfs.files (k'.fds p i)).inode = node

section Open
variable {d : Driver} {k k' : Kernel} {v v' : Vfs} {node flags f : Word} {p : Nat} {ret : Int}

theorem Installs.handed (h : Installs k k' p node ret) (hn : node ∈ k.vfs.inodeBlocks)
    (hpl : Placed k.vfs node) : Handed k' p ret := by
  intro h0
  obtain ⟨i, hi, hnot, -, hnode⟩ := h.opened h0
  refine ⟨i, hi, hnot, ?_, ?_⟩
  · rw [hnode, h.blocks]
    exact hn
  · rw [hnode, Placed, h.rootFs, h.inodes, h.blocks]
    exact hpl

/-- A driver that opens everything and keeps the tables of the inode. -/
theorem vfsOpen_kept {status : Int} (hop : ∀ i, d.opening i flags = (0, i.acts))
    (h : vfsOpen d v node flags = .ok ((f, status), v')) :
    v'.inodes = v.inodes ∧ v'.inodeBlocks = v.inodeBlocks ∧ v'.rootFs = v.rootFs ∧
      (f = 0 ∧ status < 0 ∧ (v.inodes node).acts.opens = false ∨
        f ≠ 0 ∧ f ∉ v.inodeBlocks ∧ (v'.files f).inode = node) := by
  unfold vfsOpen at h
  split at h
  · cases h
  next a w hk =>
    obtain ⟨h0, hi, -, hw⟩ := kmalloc_ok hk
    rw [hw] at h
    dsimp only [Vfs.setFile] at h
    by_cases ho : (v.inodes node).acts.opens
    · rw [if_pos ho] at h
      simp only [hop, lt_irrefl, if_false] at h
      cases h
      refine ⟨funext fun x => ?_, rfl, rfl, .inr ⟨h0, hi, ?_⟩⟩
      · by_cases hx : x = node <;> simp [Vfs.setInode, hx]
      · simp [Vfs.setInode]
    · rw [if_neg ho] at h
      cases h
      exact ⟨rfl, rfl, rfl, .inl ⟨rfl, by decide, by simpa using ho⟩⟩

theorem openInstall_installs (hop : ∀ i, d.opening i flags = (0, i.acts)) (hn0 : node ≠ 0)
    (h : openInstall d k p node flags = .ok (ret, k')) : Installs k k' p node ret := by
  unfold openInstall at h
  rw [if_neg hn0] at h
  split at h
  · cases h
  next f status v1 hv =>
    obtain ⟨hi, hb, hr, hcase⟩ := vfsOpen_kept hop hv
    rcases hcase with ⟨hf0, hst, hno⟩ | ⟨hf0, hfi, hfile⟩
    · rw [if_pos hf0] at h
      cases h
      exact ⟨hi, hb, hr, fun _ => .inl hno, fun h0 => absurd h0 (by omega)⟩
    · rw [if_neg hf0] at h
      have hret := Except.ok.inj h
      rcases newfd_eq (k := { k with vfs := v1 }) (p := p) (f := f) with ⟨he, hfull⟩ | ⟨i, -, he⟩
      · rw [he] at hret
        cases hret
        exact ⟨hi, hb, hr, fun _ => .inr hfull, fun h0 => absurd h0 (by decide)⟩
      · rw [he] at hret
        cases hret
        refine ⟨hi, hb, hr, fun hneg => absurd hneg (by omega), fun _ => ⟨i, rfl, ?_⟩⟩
        have hslot : (Kernel.setFd { k with vfs := v1 } p i f).fds p i = f := if_pos ⟨rfl, rfl⟩
        rw [hslot]
        dsimp only [Kernel.setFd]
        rw [hb]
        exact ⟨hfi, hf0, hfile⟩

/-- Closing a descriptor that `_open` has just handed out. -/
theorem sysClose_handed {fd : Int} {i : Fd} {r : Int × List Freed} (hc : Cached k.vfs)
    (hh : Handed k p fd) (h0 : 0 ≤ fd) (hd : descriptor fd = .ok i)
    (h : sysClose k p i = .ok (r, k')) : ∃ v, Trimmed k.vfs v ∧ Trimmed v k'.vfs := by
  obtain ⟨j, hj, hfi, hn, hpl⟩ := hh h0
  rw [hj, descriptor_val] at hd
  cases hd
  obtain ⟨-, -, rfl⟩ | ⟨-, fr, k₁, hcf, hrest⟩ := sysClose_ok h
  · exact ⟨_, .of_inodes rfl rfl rfl, .of_inodes rfl rfl rfl⟩
  obtain ⟨o, hcl, -, -⟩ := closeFile_ok hcf
  have ht := hcl.trimmed hc hn hpl
  refine ⟨k₁.vfs, ht, ?_⟩
  obtain ⟨-, rfl⟩ | ⟨v, hfree, -, rfl⟩ := hrest
  · exact .of_inodes rfl rfl rfl
  -- the block of the file was no inode before the call, and is none now
  · obtain ⟨hm, -⟩ | ⟨-, -, rfl⟩ := kfree_ok hfree
    · exact absurd (ht.blocks.subset hm) hfi
    · exact .of_inodes rfl rfl rfl

end Open

end TapiOS.Task
