import TapiOS.Fs.PathTree
import TapiOS.Task.Descriptors

/-!
# Relative and absolute paths in `_open`

For a relative path `_open` looks up dirname(path), from the root unless it is ".", and
then walks the whole path again from there. The names it follows are those of the
absolute path only if that directory is the current one.
-/
namespace TapiOS.Task

open Lib Util Fs

/-- The current directory and a path below it in one string. -/
def joined (cwd path : Text) : Text := cwd ++ slash :: path

/-- The names that `_open` follows from the root for a relative path, if `tok` is what
walk_path_do reads of a string. -/
def relativeRoute (tok : Text → Text) (cwd path : Text) : Option (List Text) :=
  (route (tok (openDir cwd path))).map (· ++ components (tok path))

/-- Both strings lead along the same names, and to the same directory for a new file. -/
def SameRoute (cwd path : Text) : Prop :=
  PATH_MAX ≤ path.length ∨ ((joined cwd path).length < 256 ∧
    relativeRoute id cwd path = route (joined cwd path) ∧
    route (openDir cwd path) = route (openDir cwd (joined cwd path)))

instance (cwd path : Text) : Decidable (SameRoute cwd path) :=
  inferInstanceAs (Decidable (_ ∨ _ ∧ _ ∧ _))

/-- What a descriptor that `_open` returned stands for: the inode number, its name and the
inode number of its directory. -/
def Kernel.openedAt (k : Kernel) (p : Nat) (ret : Int) : Word × Text × Word :=
  let i := k.vfs.inodes (k.vfs.files (k.fds p (Fin.ofNat 256 ret.toNat))).inode
  (i.inodeNo, i.name, (k.vfs.inodes i.parent).inodeNo)

/-- Both calls fail, or both open the same file. -/
def Agree (p : Nat) : Except Stop (Int × Kernel) → Except Stop (Int × Kernel) → Prop
  | .ok (ret, k), .ok (ret', k') =>
    (ret < 0 ↔ ret' < 0) ∧ (0 ≤ ret → k.openedAt p ret = k'.openedAt p ret')
  | .error _, .error _ => True
  | _, _ => False

/-- The path is not empty and does not start at the root. -/
def Relative (path : Text) : Prop := ∃ c rest, path = c :: rest ∧ c ≠ slash

/-- The current directory is a directory of the tree. -/
def IsDirectory (T : Tree) (cwd : Text) : Prop :=
  ∃ names n, route cwd = some names ∧ T.resolve T.root names = some n ∧
    (T.acts n).iAct ∧ (T.acts n).search

section Routes
variable {cwd path : Text} {names A : List Text} {stack : Text → Text}

theorem tokname_short (h : path.length < 256) : tokname stack path = path := if_pos h

theorem route_some (h : route path = some names) : names = components path := by
  unfold route at h
  split_ifs at h with hs
  · rw [← Option.some.inj h, hs]
    decide
  · exact (Option.some.inj h).symm

theorem nil_notMem_route (h : route path = some names) : [] ∉ names := by
  rw [route_some h]
  exact nil_notMem_components _

theorem Relative.head (h : Relative path) : path.head? ≠ some slash := by
  obtain ⟨c, rest, rfl, hc⟩ := h
  exact fun he => hc (Option.some.inj he)

theorem Relative.tokname (h : Relative path) : Relative (tokname stack path) := by
  obtain ⟨c, rest, rfl, hc⟩ := h
  unfold Fs.tokname
  split_ifs
  · exact ⟨c, rest, rfl, hc⟩
  · exact ⟨c, rest.take 255 ++ stack (c :: rest), rfl, hc⟩

theorem Relative.components_ne_nil (h : Relative path) : components path ≠ [] := by
  obtain ⟨c, rest, rfl, hc⟩ := h
  exact Util.components_ne_nil _ hc

theorem Relative.route_some (h : Relative path) : ∃ names, route path = some names := by
  have hne := h.components_ne_nil
  unfold route
  split_ifs
  · exact ⟨_, rfl⟩
  · exact ⟨_, rfl⟩

/-- Only the current directory itself may fail to name anything. -/
theorem route_openDir (hr : Relative path) (hcwd : route (tokname stack cwd) = some A) :
    ∃ B, route (tokname stack (openDir cwd path)) = some B := by
  obtain ⟨c, rest, rfl, hc⟩ := hr
  unfold openDir
  split_ifs with hdot
  · exact ⟨A, hcwd⟩
  · rcases dirname_cases c rest with h | h | ⟨rest', h, -⟩
    · exact absurd h hdot
    · rw [h]
      exact ⟨[], rfl⟩
    · exact (Relative.tokname ⟨c, rest', h, hc⟩).route_some

theorem length_openDir (cwd : Text) (hne : path ≠ []) :
    (openDir cwd path).length ≤ max cwd.length path.length := by
  obtain ⟨c, rest, rfl⟩ := List.exists_cons_of_ne_nil hne
  unfold openDir
  split_ifs with hdot
  · exact le_max_left _ _
  · rcases dirname_cases c rest with h | h | ⟨rest', h, hp⟩
    · exact absurd h hdot
    · rw [h, List.length_singleton, List.length_cons]
      omega
    · have hle := hp.length_le
      rw [h, List.length_cons, List.length_cons]
      omega

theorem length_joined (cwd path : Text) :
    (joined cwd path).length = cwd.length + (path.length + 1) := by
  rw [joined, List.length_append, List.length_cons]

/-- What both calls look up is not longer than the joined string. -/
theorem openDir_short (h : (joined cwd path).length < 256) (hr : Relative path) :
    (openDir cwd path).length < 256 ∧ (openDir cwd (joined cwd path)).length < 256 := by
  obtain ⟨c, rest, rfl, -⟩ := hr
  have h1 := length_openDir cwd (List.cons_ne_nil c rest)
  have h2 := @length_openDir (joined cwd (c :: rest)) cwd (by simp [joined])
  rw [length_joined] at h h2
  omega

theorem route_joined (hr : Relative path) (hA : route cwd = some A) :
    route (joined cwd path) = some (A ++ components path) := by
  have hne : joined cwd path ≠ [slash] := by
    intro he
    have hlen := congrArg List.length he
    obtain ⟨c, rest, rfl, -⟩ := hr
    rw [length_joined, List.length_cons, List.length_singleton] at hlen
    omega
  have hcons : A ++ components path ≠ [] :=
    List.append_ne_nil_of_right_ne_nil _ hr.components_ne_nil
  unfold route
  rw [if_neg hne, joined, components_append, ← route_some hA, if_neg hcons]

theorem relativeRoute_short (h : (joined cwd path).length < 256) (hr : Relative path) :
    relativeRoute (tokname stack) cwd path = relativeRoute id cwd path := by
  have hpath : path.length < 256 := by
    rw [length_joined] at h
    omega
  rw [relativeRoute, tokname_short (openDir_short h hr).1, tokname_short hpath]
  rfl

/-- The relative path is looked up in the current directory. -/
theorem openDir_route (hr : Relative path) (hA : route cwd = some A)
    (h : relativeRoute id cwd path = route (joined cwd path)) :
    route (openDir cwd path) = some A := by
  rw [route_joined hr hA] at h
  obtain ⟨B, hB, he⟩ := Option.map_eq_some_iff.mp h
  rw [← List.append_cancel_right he]
  exact hB

end Routes

section Lookup
variable {T : Tree} {d : Driver} {v : Vfs} {k : Kernel} {p : Nat} {cwd path : Text}

/-- A walk from the root. -/
def follow (d : Driver) (v : Vfs) : Option (List Text) → Except Stop (Word × Vfs)
  | none => .ok (0, v)
  | some names => walk d v v.rootFs names

theorem vfsSearch_root (hc : Cached v) (path : Text) :
    vfsSearch d v v.rootFs path = follow d v (route (tokname d.stack path)) := by
  obtain ⟨hi, hs⟩ := hc.rootActs
  unfold vfsSearch walkPath route
  rw [hi, hs]
  by_cases hp : path = [slash]
  · rw [if_pos hp, hp]
    rfl
  · have ht : tokname d.stack path ≠ [slash] := by
      intro he
      unfold tokname at he
      split_ifs at he with hlen
      · exact hp he
      · have hl := congrArg List.length he
        rw [List.length_append, List.length_take, List.length_singleton] at hl
        omega
    rw [if_neg hp, if_neg ht]
    cases components (tokname d.stack path) with
    | nil => rfl
    | cons name rest => rfl

theorem vfsSearch_relative {dir : Word} (hi : (v.inodes dir).acts.iAct)
    (hs : (v.inodes dir).acts.search) (hr : Relative path) :
    vfsSearch d v dir path = walk d v dir (components (tokname d.stack path)) := by
  have hne := (@Relative.tokname path d.stack hr).components_ne_nil
  have hp : path ≠ [slash] := by
    obtain ⟨c, rest, rfl, hc⟩ := hr
    exact fun he => hc (List.cons.inj he).1
  unfold vfsSearch walkPath
  rw [hi, hs, if_neg hp]
  cases hcs : components (tokname d.stack path) with
  | nil => exact absurd hcs hne
  | cons name rest => rfl

theorem getdirHelper_route (hc : Cached k.vfs) (path : Text) :
    getdirHelper d k p path = follow d k.vfs (route (tokname d.stack (openDir (k.cwd p) path))) :=
  vfsSearch_root hc _

/-- The lookups of both calls, and the directory that the second one would look up to
create the file. -/
inductive SameLookup (d : Driver) (k : Kernel) (p : Nat) (path abs : Text) : Prop where
  | stops (e : Stop) (hrel : openLookup d k p path = .error e)
      (habs : openLookup d k p abs = .error e)
  | found (dir inode : Word) (v : Vfs) (h0 : dir ≠ 0)
      (hrel : openLookup d k p path = .ok (some (dir, inode), v))
      (habs : openLookup d k p abs = .ok (some (0, inode), v))
      (hdir : inode = 0 → getdirHelper d { k with vfs := v } p abs = .ok (dir, v))

theorem SameLookup.sysOpen_eq {abs : Text} (h : SameLookup d k p path abs) (hs : d.Serves T)
    (hbase : basename path = basename abs) (hroot : k.vfs.rootFs ≠ 0)
    (hlen : path.length < PATH_MAX) (hlen' : abs.length < PATH_MAX) (flags : Word) :
    sysOpen d k p path flags = sysOpen d k p abs flags := by
  have hplan : openPlan d k p path flags = openPlan d k p abs flags := by
    unfold openPlan
    rw [if_neg hroot, if_neg hroot, if_neg (by omega), if_neg (by omega)]
    cases h with
    | stops e hrel habs => rw [hrel, habs]
    | found dir inode v h0 hrel habs hdir =>
      rw [hrel, habs]
      dsimp only
      rw [if_neg h0, if_pos (rfl : (0 : Word) = 0)]
      by_cases hi : inode = 0
      · rw [hdir hi]
      · simp only [hi, false_and, if_false]
  have hnew (v : Vfs) (dir : Word) :
      vfsNewInode d v dir path 0x8000 = vfsNewInode d v dir abs 0x8000 := by
    unfold vfsNewInode
    rw [hs.create _ path abs _ hbase]
  unfold sysOpen
  simp only [hplan, hnew]

theorem openLookup_relative (hr : path.head? ≠ some slash) : openLookup d k p path =
    (getdirHelper d k p path).bind fun r =>
      if r.1 = 0 then .ok (none, r.2)
      else (vfsSearch d r.2 r.1 path).map fun s => (some (r.1, s.1), s.2) := by
  unfold openLookup
  rw [if_neg hr]
  cases getdirHelper d k p path with
  | error e => rfl
  | ok r =>
    show (if r.1 = 0 then _ else _) = if r.1 = 0 then _ else _
    split_ifs
    · rfl
    · cases vfsSearch d r.2 r.1 path <;> rfl

theorem openLookup_absolute (habs : path.head? = some slash) (hc : Cached k.vfs) :
    openLookup d k p path =
      (follow d k.vfs (route (tokname d.stack path))).map fun r => (some (0, r.1), r.2) := by
  unfold openLookup
  rw [if_pos habs, vfsSearch_root hc]
  cases follow d k.vfs (route (tokname d.stack path)) <;> rfl

theorem joined_absolute (habs : cwd.head? = some slash) (path : Text) :
    (joined cwd path).head? = some slash := by
  rw [joined, List.head?_append, habs]
  rfl

theorem sameLookup_of_sameRoute (hs : d.Serves T) (hc : Cached k.vfs) (hm : Mirrors T k.vfs)
    (hcwd : k.cwd p = cwd) (hdir : IsDirectory T cwd) (habs : cwd.head? = some slash)
    (hr : Relative path) (hlen : (joined cwd path).length < 256)
    (hsame : relativeRoute id cwd path = route (joined cwd path))
    (hplace : route (openDir cwd path) = route (openDir cwd (joined cwd path))) :
    SameLookup d k p path (joined cwd path) := by
  obtain ⟨A, n, hA, hn, hni, hns⟩ := hdir
  have hB := openDir_route hr hA hsame
  have habs' := joined_absolute habs path
  obtain ⟨hd1, hd2⟩ := openDir_short hlen hr
  have hpath : path.length < 256 := by
    rw [length_joined] at hlen
    omega
  have hne := nil_notMem_route hA
  have hget : getdirHelper d k p path = walk d k.vfs k.vfs.rootFs A := by
    rw [getdirHelper_route hc, hcwd, tokname_short hd1, hB]
    rfl
  have hfollow : openLookup d k p (joined cwd path) =
      (walk d k.vfs k.vfs.rootFs (A ++ components path)).map fun r => (some (0, r.1), r.2) := by
    rw [openLookup_absolute habs' hc, tokname_short hlen, route_joined hr hA]
    rfl
  cases hw : walk d k.vfs k.vfs.rootFs A with
  | error e =>
    refine .stops e ?_ ?_
    · rw [openLookup_relative hr.head, hget, hw]
      rfl
    · rw [hfollow, walk_append, hw]
      rfl
  | ok r =>
    obtain ⟨dir, v1⟩ := r
    rw [hw] at hget
    obtain ⟨hc1, he1, hfound, hagain⟩ := walk_spec hs.honest hc hc.root hne hw
    obtain ⟨hm1, hres⟩ := walk_resolves hs hc hc.root hne hm trivial (T.within_whole _ _) hw
    rw [hm.root, hn] at hres
    obtain ⟨h0, hno⟩ := Vfs.number_eq_some.mp hres.symm
    obtain ⟨hdm, hlater⟩ := hfound h0
    have hacts := hm1.acts dir hdm trivial
    rw [hno] at hacts
    have hrel : vfsSearch d v1 dir path = walk d v1 dir (components path) := by
      rw [vfsSearch_relative (hacts ▸ hni) (hacts ▸ hns) hr, tokname_short hpath]
    -- both calls walk from the directory along the names of the path
    have hlookup : openLookup d k p path =
        (walk d v1 dir (components path)).map fun s => (some (dir, s.1), s.2) := by
      rw [openLookup_relative hr.head, hget]
      show (if dir = 0 then _ else _) = _
      rw [if_neg h0, hrel]
    have hlookup' : openLookup d k p (joined cwd path) =
        (walk d v1 dir (components path)).map fun s => (some (0, s.1), s.2) := by
      rw [hfollow, walk_append, hw]
    cases hw' : walk d v1 dir (components path) with
    | error e =>
      refine .stops e ?_ ?_
      · rw [hlookup, hw']
        rfl
      · rw [hlookup', hw']
        rfl
    | ok r =>
      obtain ⟨inode, v2⟩ := r
      refine .found dir inode v2 h0 ?_ ?_ fun _ => ?_
      · rw [hlookup, hw']
        rfl
      · rw [hlookup', hw']
        rfl
      · obtain ⟨hc2, he2, -, -⟩ := walk_spec hs.honest hc1 hdm (nil_notMem_components _) hw'
        rw [getdirHelper_route hc2, show Kernel.cwd _ p = cwd from hcwd, tokname_short hd2,
          ← hplace, hB]
        have hl := hlater v2 hc2 he2
        show walk d v2 v2.rootFs A = _
        rwa [(he1.trans he2).rootFs]

end Lookup
end TapiOS.Task
