import TapiOS.Task.OpenAgree
import TapiOS.Task.TreeLookup
import TapiOS.Util.Strings

/-!
# The current directory, `_chdir` and `_exec`

`cwd` is an array of PATH_MAX bytes in `struct process`. `_chdir` copies the path of the
caller into it as it is; `_exec` rebuilds it from argv[0]. What setcwd_dirname writes behind
the array is kept here as bytes that nothing reads.
-/
namespace TapiOS.Task

open Lib Util Fs

def EIO : Int := 5
def ENOTDIR : Int := 20

/-- f_act->stat of the node with a number: NULL, or its return value and the mode it writes. -/
abbrev Stat := Word → Option (Int × Word)

def S_ISDIR (mode : Word) : Bool := mode &&& 0xF000 = 0x4000

def statDir (stat : Stat) (n : Word) : Bool :=
  match stat n with
  | some (ret, mode) => 0 ≤ ret && S_ISDIR mode
  | none => false

def setcwd (cwd : Chars) (path : Text) : Chars := strncpy cwd (chars path fun _ => 0) PATH_MAX

/-- The loop of setcwd_dirname from index `i` on, over the tokens that are left. -/
def dirnameLoop : List Text → Nat → Chars → Chars
  | ptr :: nextptr :: rest, i, cwd =>
    let cwd := Chars.writeAt (fun s => s.next.cons slash) i cwd
    let len := ptr.length + 1
    let cwd := Chars.writeAt (fun s => strncpy s (chars ptr fun _ => 0) len) (i + 1) cwd
    dirnameLoop (nextptr :: rest) (i + 1 + len) cwd
  | _, _, cwd => cwd

/-- A path that fills `buf` leaves no room for the NUL, and strtok goes on in `behind`. -/
def setcwdDirname (cwd : Chars) (executable behind : Text) : Chars :=
  let buf := if executable.length < PATH_MAX then executable
    else executable.take PATH_MAX ++ behind
  dirnameLoop (components buf) 0 cwd

structure CwdMachine where
  kernel : Kernel
  cwd : Nat → Chars

namespace CwdMachine

def cwdText (s : CwdMachine) (p : Nat) : Text := (s.cwd p).text PATH_MAX

/-- The kernel as a call finds it, with the blocks kmalloc may return. -/
def enter (s : CwdMachine) (supply : List Word) : Kernel :=
  { s.kernel.withSupply supply with cwd := s.cwdText }

def setCwd (s : CwdMachine) (p : Nat) (cwd : Chars) : CwdMachine :=
  { s with cwd := fun q => if q = p then cwd else s.cwd q }

end CwdMachine

def sysFstat (stat : Stat) (k : Kernel) (p : Nat) (i : Fd) : Except Stop (Int × Word) :=
  if k.fds p i = 0 then .ok (-EBADF, 0)
  else
    let inode := (k.vfs.files (k.fds p i)).inode
    if inode = 0 then .error .fault
    else .ok ((stat (k.vfs.inodes inode).inodeNo).getD (-EBADF, 0))

/-- A failed `_fstat` leaves the descriptor open. -/
def sysChdir (d : Driver) (stat : Stat) (s : CwdMachine) (p : Nat) (supply : List Word)
    (path : Text) : Except Stop (Int × CwdMachine) :=
  if PATH_MAX ≤ path.length then .ok (-ENAMETOOLONG, s)
  else match sysOpen d (s.enter supply) p path 0 with
  | .error e => .error e
  | .ok (fd, k) =>
    if fd < 0 then .ok (-ENOENT, { s with kernel := k })
    else match descriptor fd with
    | .error e => .error e
    | .ok i =>
      match sysFstat stat k p i with
      | .error e => .error e
      | .ok (ret, mode) =>
        if ret < 0 then .ok (- EIO, { s with kernel := k })
        else match sysClose k p i with
        | .error e => .error e
        | .ok (_, k) =>
          let s := { s with kernel := k }
          if S_ISDIR mode then .ok (0, s.setCwd p (setcwd (s.cwd p) path)) else .ok (-ENOTDIR, s)

/-- `_exec`, as far as it concerns `cwd`; `loads` says whether the program could be read and
mapped. It does not return to its caller, and the descriptor stays open. -/
def sysExec (d : Driver) (s : CwdMachine) (p : Nat) (supply : List Word) (path : Text)
    (argv : List Text) (loads : Bool) (behind : Text) : Except Stop (Int × CwdMachine) :=
  match sysOpen d (s.enter supply) p path 0 with
  | .error e => .error e
  | .ok (fd, k) =>
    let s := { s with kernel := k }
    if fd < 0 then .ok (fd, s)
    else if !loads then .error .fault
    else match argv with
    | [] => .error .fault
    | executable :: _ => .ok (0, s.setCwd p (setcwdDirname (s.cwd p) executable behind))

inductive CwdCall where
  | chdir (p : Nat) (supply : List Word) (path : CString)
  | exec (p : Nat) (supply : List Word) (path : CString) (argv : List CString) (loads : Bool)
      (behind : Text)

def cwdStep (d : Driver) (stat : Stat) (s : CwdMachine) : CwdCall → Except Stop (Int × CwdMachine)
  | .chdir p supply path => sysChdir d stat s p supply path.text
  | .exec p supply path argv loads behind =>
    sysExec d s p supply path.text (argv.map (·.text)) loads behind

section Buffers
variable {cwd : Chars} {t c next executable : Text} {rest tokens : List Text} {i : Nat}

variable (cwd) in
theorem setcwd_spells {path : CString} (h : path.text.length < PATH_MAX) :
    Spells (setcwd cwd path.text) path.text :=
  (chars_spells path.clean _).strncpy _ h

/-- Behind the NUL the loop can write what it likes. -/
theorem dirnameLoop_spells (h : Spells cwd t) (hi : t.length < i) :
    Spells (dirnameLoop tokens i cwd) t := by
  induction tokens generalizing cwd i with
  | nil => exact h
  | cons ptr tokens ih =>
    cases tokens with
    | nil => exact h
    | cons nextptr rest =>
      exact ih ((h.writeAt _ hi).writeAt _ (by omega)) (by omega)

variable (cwd next rest) in
/-- The index counts the NUL of the first component, so the text ends there. -/
theorem dirnameLoop_first (hc : 0 ∉ c) :
    Spells (dirnameLoop (c :: next :: rest) 0 cwd) (slash :: c) := by
  unfold dirnameLoop
  refine dirnameLoop_spells ⟨rfl, by decide, ?_⟩ (by rw [List.length_cons]; omega)
  exact (chars_spells hc _).strncpy _ (Nat.lt_succ_self _)

/-- All components but the last one, joined. -/
def executableDir (executable : Text) : Text :=
  slash :: [slash].intercalate (components executable).dropLast

variable (cwd) in
/-- setcwd_dirname is right about two components, and about fewer if nothing has to change. -/
theorem setcwdDirname_spells {exe : CString} (behind : Text) (hlen : exe.text.length < PATH_MAX)
    (h : (components exe.text).length = 2 ∨
      (components exe.text).length ≤ 1 ∧ Spells cwd [slash]) :
    Spells (setcwdDirname cwd exe.text behind) (executableDir exe.text) ∧
      (executableDir exe.text).length ≤ PATH_MAX := by
  unfold setcwdDirname executableDir
  dsimp only
  rw [if_pos hlen]
  rcases h with h | ⟨h, hs⟩
  · obtain ⟨c, next, hcs⟩ := List.length_eq_two.mp h
    have hsub : c.Sublist exe.text := sublist_of_mem_components (by rw [hcs]; simp)
    have hle := hsub.length_le
    rw [hcs]
    constructor
    · have hsp := dirnameLoop_first cwd next [] fun h0 => exe.clean (hsub.subset h0)
      simpa using hsp
    · simp
      omega
  · have hloop : dirnameLoop (components exe.text) 0 cwd = cwd ∧
        (components exe.text).dropLast = [] := by
      cases hcs : components exe.text with
      | nil => exact ⟨rfl, rfl⟩
      | cons c rest =>
        rw [hcs, List.length_cons] at h
        rw [List.eq_nil_of_length_eq_zero (by omega : rest.length = 0)]
        exact ⟨rfl, rfl⟩
    rw [hloop.1, hloop.2]
    exact ⟨hs, by decide⟩

end Buffers

/-- A search from the root that has memory finds the node with number `n`. -/
def LeadsTo (d : Driver) (v : Vfs) (path : Text) (n : Word) : Prop :=
  ∀ supply, Stocked { v with supply := supply } (tokname d.stack path).length →
    ∃ node v', vfsSearch d { v with supply := supply } v.rootFs path = .ok (node, v') ∧
      node ≠ 0 ∧ (v'.inodes node).inodeNo = n

/-- The path of a call leads to a node, which is open now. -/
structure OpenedPath (T : Tree) (d : Driver) (k k' : Kernel) (p : Nat) (path : Text) (ret : Int)
    (dir inode : Word) (v : Vfs) : Prop where
  lookup : openLookup d k p path = .ok (some (dir, inode), v)
  ne_zero : inode ≠ 0
  found : FoundPath T (tokname d.stack) (k.cwd p) path v dir inode
  installs : Installs { k with vfs := v } k' p inode ret

/-- The node that `_open` looks up for a path. -/
def target (T : Tree) (d : Driver) (cwd path : Text) : Option Word :=
  (searched (tokname d.stack) cwd path).bind (T.resolve T.root)

section Calls
variable {T : Tree} {d : Driver} {stat : Stat} {P : Part} {k k' : Kernel} {v : Vfs}
  {s s' : CwdMachine} {p : Nat} {ret : Int} {path : Text} {supply : List Word} {dir inode : Word}

theorem OpenedPath.target_eq (h : OpenedPath T d k k' p path ret dir inode v) :
    target T d (k.cwd p) path = some (v.inodes inode).inodeNo := by
  rw [target, h.found.resolved, Vfs.number_ne h.ne_zero]

theorem OpenedPath.handed (h : OpenedPath T d k k' p path ret dir inode v) : Handed k' p ret :=
  h.installs.handed (h.found.found h.ne_zero).1 (h.found.found h.ne_zero).2

/-- `_open` for reading creates nothing. -/
theorem openPlan_reads {r : Plan} (h : openPlan d k p path 0 = .ok (r, v)) :
    (∃ ret < 0, r = .fail ret ∧ (v = k.vfs ∨ openLookup d k p path = .ok (none, v))) ∨
      ∃ dir inode, r = .node inode ∧ openLookup d k p path = .ok (some (dir, inode), v) := by
  unfold openPlan at h
  split_ifs at h
  · cases h
    exact .inl ⟨_, by decide, rfl, .inl rfl⟩
  split at h
  · cases h
  next hl =>
    cases h
    exact .inl ⟨_, by decide, rfl, .inr hl⟩
  next hl =>
    rw [if_neg (fun hx => absurd hx.2 (by decide)), if_neg (fun hx => absurd hx.2 (by decide))] at h
    cases h
    exact .inr ⟨_, _, rfl, hl⟩

theorem sysOpen_reads (h : Shown T d P k.vfs) (hop : ∀ i flags, d.opening i flags = (0, i.acts))
    (hin : Inside T P (tokname d.stack) (k.cwd p) path)
    (ho : sysOpen d k p path 0 = .ok (ret, k')) : Shown T d P k'.vfs ∧
      (0 ≤ ret → ∃ dir inode v, OpenedPath T d k k' p path ret dir inode v) := by
  unfold sysOpen at ho
  cases hplan : openPlan d k p path 0 with
  | error e =>
    rw [hplan] at ho
    cases ho
  | ok x =>
    obtain ⟨r, v⟩ := x
    rw [hplan] at ho
    rcases openPlan_reads hplan with ⟨ret', hneg, rfl, hv⟩ | ⟨dir, inode, rfl, hl⟩
    · cases ho
      refine ⟨?_, fun h0 => absurd h0 (by omega)⟩
      rcases hv with rfl | hl
      · exact h
      · exact (h.lookup hin hl).1
    · obtain ⟨hv, -, hf⟩ := h.lookup hin hl
      by_cases h0 : inode = 0
      · dsimp only at ho
        unfold openInstall at ho
        rw [if_pos h0] at ho
        cases ho
        exact ⟨hv, fun h0 => absurd h0 (by decide)⟩
      · have hi := openInstall_installs (fun i => hop i 0) h0 ho
        exact ⟨hv.trimmed (.of_inodes hi.inodes hi.blocks hi.rootFs),
          fun _ => ⟨dir, inode, v, hl, h0, hf, hi⟩⟩

/-- The mode that `_fstat` reads is that of the node the path led to. -/
theorem OpenedPath.fstat {i : Fd} {st : Int × Word} (h : OpenedPath T d k k' p path ret dir inode v)
    (h0 : 0 ≤ ret) (hi : descriptor ret = .ok i) (hs : sysFstat stat k' p i = .ok st) :
    st = (stat (v.inodes inode).inodeNo).getD (-EBADF, 0) := by
  obtain ⟨j, hj, -, hfd, hnode⟩ := h.installs.opened h0
  rw [hj, descriptor_val] at hi
  cases hi
  unfold sysFstat at hs
  rw [if_neg hfd, hnode, if_neg h.ne_zero, h.installs.inodes] at hs
  exact (Except.ok.inj hs).symm

theorem Shown.leadsTo {n : Word} (h : Shown T d P v)
    (hin : (route (tokname d.stack path)).all (T.within P T.root))
    (hn : (route (tokname d.stack path)).bind (T.resolve T.root) = some n) :
    LeadsTo d v path n := by
  intro supply hst
  have hs : Shown T d P { v with supply := supply } := h.trimmed (.of_inodes rfl rfl rfl)
  obtain ⟨node, v', hf⟩ := hs.follow_total hst
  obtain ⟨-, -, -, hres⟩ := hs.follow hin hf
  rw [hn] at hres
  exact ⟨node, v', by rw [← hf]; exact vfsSearch_root hs.cached path,
    Vfs.number_eq_some.mp hres.symm⟩

/-- What `_chdir` can do: fail and leave all current directories, or enter the directory
that the path leads to. -/
theorem sysChdir_cases (h : Shown T d P s.kernel.vfs)
    (hop : ∀ i flags, d.opening i flags = (0, i.acts))
    (hin : Inside T P (tokname d.stack) (s.cwdText p) path)
    (hc : sysChdir d stat s p supply path = .ok (ret, s')) : Shown T d P s'.kernel.vfs ∧
      (ret ≠ 0 ∧ s'.cwd = s.cwd ∨
        path.length < PATH_MAX ∧ s'.cwd = (s.setCwd p (setcwd (s.cwd p) path)).cwd ∧
          ∃ k fd dir inode v, OpenedPath T d (s.enter supply) k p path fd dir inode v ∧
            statDir stat (v.inodes inode).inodeNo) := by
  unfold sysChdir at hc
  split_ifs at hc with hlen
  · cases hc
    exact ⟨h, .inl ⟨by decide, rfl⟩⟩
  split at hc
  · cases hc
  next fd k ho =>
    have hs : Shown T d P (s.enter supply).vfs := h.trimmed (.of_inodes rfl rfl rfl)
    obtain ⟨hk, hopened⟩ := sysOpen_reads hs hop hin ho
    split_ifs at hc with hfd
    · cases hc
      exact ⟨hk, .inl ⟨by decide, rfl⟩⟩
    have h0 : 0 ≤ fd := by omega
    obtain ⟨dir, inode, v, hpath⟩ := hopened h0
    split at hc
    · cases hc
    next i hi =>
      split at hc
      · cases hc
      next r mode hst =>
        have hmode := hpath.fstat h0 hi hst
        by_cases hr : r < 0
        · rw [if_pos hr] at hc
          cases hc
          exact ⟨hk, .inl ⟨by decide, rfl⟩⟩
        rw [if_neg hr] at hc
        split at hc
        · cases hc
        next x k1 hcl =>
          obtain ⟨v1, ht, ht1⟩ := sysClose_handed hk.cached hpath.handed h0 hi hcl
          have hk1 : Shown T d P k1.vfs := (hk.trimmed ht).trimmed ht1
          dsimp only at hc
          split_ifs at hc with hdir
          · cases hc
            refine ⟨hk1, .inr ⟨by omega, rfl, k, fd, dir, inode, v, hpath, ?_⟩⟩
            unfold statDir
            cases hn : stat (v.inodes inode).inodeNo with
            | none =>
              rw [hn] at hmode
              cases hmode
              exact absurd (show (-EBADF : Int) < 0 by decide) hr
            | some y =>
              rw [hn] at hmode
              cases hmode
              simp [hdir]
              omega
          · cases hc
            exact ⟨hk1, .inl ⟨by decide, rfl⟩⟩

/-- What `_exec` can do: fail, or name the directory of argv[0]. -/
theorem sysExec_cases {argv : List Text} {loads : Bool} {behind : Text}
    (h : Shown T d P s.kernel.vfs) (hop : ∀ i flags, d.opening i flags = (0, i.acts))
    (hin : Inside T P (tokname d.stack) (s.cwdText p) path)
    (hc : sysExec d s p supply path argv loads behind = .ok (ret, s')) :
    Shown T d P s'.kernel.vfs ∧ (ret < 0 ∧ s'.cwd = s.cwd ∨
      target T d (s.cwdText p) path ≠ none ∧ ∃ executable ∈ argv.head?,
        s'.cwd = (s.setCwd p (setcwdDirname (s.cwd p) executable behind)).cwd) := by
  unfold sysExec at hc
  split at hc
  · cases hc
  next fd k ho =>
    have hs : Shown T d P (s.enter supply).vfs := h.trimmed (.of_inodes rfl rfl rfl)
    obtain ⟨hk, hopened⟩ := sysOpen_reads hs hop hin ho
    dsimp only at hc
    split_ifs at hc with hfd
    · cases hc
      exact ⟨hk, .inl ⟨hfd, rfl⟩⟩
    obtain ⟨dir, inode, v, hpath⟩ := hopened (by omega)
    cases argv with
    | nil => cases hc
    | cons executable rest =>
      cases hc
      refine ⟨hk, .inr ⟨?_, executable, rfl, rfl⟩⟩
      have ht := hpath.target_eq
      change target T d (s.cwdText p) path = _ at ht
      rw [ht]
      exact Option.some_ne_none _

end Calls

/-- The condition on a call. Its path leads to no mount. A path for `_chdir` begins with '/' or
names no directory. An argv[0] has two components, or at most one when the current directory
is "/" already. -/
def CwdCall.Allowed (T : Tree) (P : Part) (d : Driver) (stat : Stat) (s : CwdMachine) :
    CwdCall → Prop
  | .chdir p _ path => Inside T P (tokname d.stack) (s.cwdText p) path.text ∧
    (path.text.head? = some slash ∨
      (target T d (s.cwdText p) path.text).any (statDir stat) = false)
  | .exec p _ path argv _ _ => Inside T P (tokname d.stack) (s.cwdText p) path.text ∧
    (target T d (s.cwdText p) path.text = none ∨
      ∀ exe ∈ argv.head?, exe.text.length < PATH_MAX ∧
        ((components exe.text).length = 2 ∨
          (components exe.text).length ≤ 1 ∧ s.cwdText p = [slash]))

instance (T : Tree) (P : Part) (d : Driver) (stat : Stat) (s : CwdMachine) (c : CwdCall) :
    Decidable (c.Allowed T P d stat s) :=
  match c with
  | .chdir _ _ _ => inferInstanceAs (Decidable ((_ ∧ _) ∧ (_ ∨ _)))
  | .exec _ _ _ _ _ _ => inferInstanceAs (Decidable ((_ ∧ _) ∧ (_ ∨ _)))

/-- `cwd` names the directory that the call was about: the one that a successful `_chdir`
looked up, or the one of the executable. -/
def NamesDir (d : Driver) (stat : Stat) (x : Transition CwdMachine CwdCall Int) : Prop :=
  match x.input with
  | .chdir p supply path => x.output = 0 → ∃ dir inode v,
    openLookup d (x.pre.enter supply) p path.text = .ok (some (dir, inode), v) ∧ inode ≠ 0 ∧
      statDir stat (v.inodes inode).inodeNo ∧
      LeadsTo d x.post.kernel.vfs (x.post.cwdText p) (v.inodes inode).inodeNo
  | .exec p _ _ argv _ _ =>
    0 ≤ x.output → ∀ exe ∈ argv.head?, x.post.cwdText p = executableDir exe.text

structure Settled (T : Tree) (P : Part) (d : Driver) (s : CwdMachine) : Prop where
  shown : Shown T d P s.kernel.vfs
  cwd : ∀ q, ∃ t, Spells (s.cwd q) (slash :: t) ∧ (slash :: t).length ≤ PATH_MAX

section Runs
variable {T : Tree} {P : Part} {d : Driver} {stat : Stat} {s s' : CwdMachine} {p : Nat}
  {cwd : Chars} {t : Text}

theorem Settled.absolute (h : Settled T P d s) (q : Nat) : (s.cwdText q).head? = some slash := by
  obtain ⟨t, ht, hlen⟩ := h.cwd q
  rw [CwdMachine.cwdText, ht.text_eq hlen]
  rfl

theorem cwdText_set (hs : s'.cwd = (s.setCwd p cwd).cwd) (ht : Spells cwd t)
    (hlen : t.length ≤ PATH_MAX) : s'.cwdText p = t := by
  unfold CwdMachine.cwdText
  rw [hs]
  show (if p = p then cwd else s.cwd p).text PATH_MAX = t
  rw [if_pos rfl]
  exact ht.text_eq hlen

theorem Settled.keep (h : Settled T P d s) (hv : Shown T d P s'.kernel.vfs)
    (hs : s'.cwd = s.cwd) : Settled T P d s' :=
  ⟨hv, fun q => by rw [hs]; exact h.cwd q⟩

theorem Settled.set (h : Settled T P d s) (hv : Shown T d P s'.kernel.vfs)
    (hs : s'.cwd = (s.setCwd p cwd).cwd) (ht : Spells cwd (slash :: t))
    (hlen : (slash :: t).length ≤ PATH_MAX) : Settled T P d s' := by
  refine ⟨hv, fun q => ?_⟩
  rw [hs]
  by_cases hq : q = p
  · refine ⟨t, ?_, hlen⟩
    show Spells (if q = p then cwd else s.cwd q) _
    rw [if_pos hq]
    exact ht
  · obtain ⟨u, hu, hul⟩ := h.cwd q
    refine ⟨u, ?_, hul⟩
    show Spells (if q = p then cwd else s.cwd q) _
    rw [if_neg hq]
    exact hu

/-- Under the condition `_chdir` enters absolute paths only. -/
theorem Settled.chdir {supply : List Word} {path : CString} {ret : Int} (h : Settled T P d s)
    (hop : ∀ i flags, d.opening i flags = (0, i.acts))
    (ha : (CwdCall.chdir p supply path).Allowed T P d stat s)
    (hc : sysChdir d stat s p supply path.text = .ok (ret, s')) :
    Settled T P d s' ∧ NamesDir d stat ⟨s, .chdir p supply path, ret, s'⟩ := by
  obtain ⟨hv, ⟨hret, hs⟩ | ⟨hlen, hs, k, fd, dir, inode, v, hpath, hdir⟩⟩ :=
    sysChdir_cases h.shown hop ha.1 hc
  · exact ⟨h.keep hv hs, fun h0 => absurd h0 hret⟩
  have htarget : target T d (s.cwdText p) path.text = some (v.inodes inode).inodeNo :=
    hpath.target_eq
  have habs : path.text.head? = some slash := by
    refine ha.2.resolve_right fun hno => ?_
    rw [htarget] at hno
    exact absurd hdir (by simpa using hno)
  obtain ⟨t, ht⟩ : ∃ t, path.text = slash :: t := by
    cases hp : path.text with
    | nil =>
      rw [hp] at habs
      cases habs
    | cons c t =>
      rw [hp] at habs
      exact ⟨t, by rw [Option.some.inj habs]⟩
  have hsp := setcwd_spells (s.cwd p) hlen
  constructor
  · exact h.set hv hs (ht ▸ hsp) (ht ▸ hlen.le)
  · intro _
    refine ⟨dir, inode, v, hpath.lookup, hpath.ne_zero, hdir, ?_⟩
    rw [cwdText_set hs hsp hlen.le]
    have hin : (searched (tokname d.stack) (s.cwdText p) path.text).all (T.within P T.root) :=
      ha.1.2
    rw [searched, if_pos habs] at hin
    rw [target, searched, if_pos habs] at htarget
    exact hv.leadsTo hin htarget

theorem Settled.exec {supply : List Word} {path : CString} {argv : List CString} {loads : Bool}
    {behind : Text} {ret : Int} (h : Settled T P d s)
    (hop : ∀ i flags, d.opening i flags = (0, i.acts))
    (ha : (CwdCall.exec p supply path argv loads behind).Allowed T P d stat s)
    (hc : sysExec d s p supply path.text (argv.map (·.text)) loads behind = .ok (ret, s')) :
    Settled T P d s' ∧ NamesDir d stat ⟨s, .exec p supply path argv loads behind, ret, s'⟩ := by
  obtain ⟨hv, ⟨hret, hs⟩ | ⟨htarget, executable, hmem, hs⟩⟩ :=
    sysExec_cases h.shown hop ha.1 hc
  · exact ⟨h.keep hv hs, fun h0 => absurd h0 (by show ¬0 ≤ ret; omega)⟩
  cases argv with
  | nil => cases hmem
  | cons exe rest =>
    obtain rfl : exe.text = executable := Option.some.inj hmem
    obtain ⟨hlen, hcs⟩ := ha.2.resolve_left htarget exe rfl
    have hroot : s.cwdText p = [slash] → Spells (s.cwd p) [slash] := by
      intro he
      have hsp := spells_text (s := s.cwd p) (n := PATH_MAX)
        (by show (s.cwdText p).length < _; rw [he]; decide)
      exact he ▸ hsp
    obtain ⟨hsp, hle⟩ := setcwdDirname_spells (s.cwd p) behind hlen
      (hcs.imp_right fun hone => ⟨hone.1, hroot hone.2⟩)
    constructor
    · exact h.set hv hs hsp hle
    · intro _ e he
      cases he
      exact cwdText_set hs hsp hle

/-- In every run of `_chdir` and `_exec` that begins in "/" and whose calls meet the
condition, `cwd` is absolute, a successful `_chdir` leaves the path of the directory it
looked up, and `_exec` that of the executable's directory. -/
theorem current_directory_named {calls : List CwdCall}
    {tr : List (Transition CwdMachine CwdCall Int)} (hd : d.Serves T)
    (hop : ∀ i flags, d.opening i flags = (0, i.acts)) (hc : Cached s.kernel.vfs)
    (hm : Mirrors T s.kernel.vfs P) (h0 : ∀ q, s.cwdText q = [slash])
    (hrun : run (cwdStep d stat) s calls = some tr)
    (hall : ∀ x ∈ tr, x.input.Allowed T P d stat x.pre) :
    (∀ before after, tr = before ++ after → ∀ q,
      ((lastState s before).cwdText q).head? = some slash) ∧
    ∀ x ∈ tr, NamesDir d stat x := by
  have hs : Settled T P d s := by
    refine ⟨⟨hd, hc, hm⟩, fun q => ⟨[], ?_, by decide⟩⟩
    rw [← h0 q]
    exact spells_text (by show (s.cwdText q).length < _; rw [h0]; decide)
  have hstep : ∀ x : Transition CwdMachine CwdCall Int, Settled T P d x.pre →
      x.input.Allowed T P d stat x.pre → cwdStep d stat x.pre x.input = .ok (x.output, x.post) →
      Settled T P d x.post ∧ NamesDir d stat x := by
    intro x hx ha hc
    obtain ⟨pre, call, ret, post⟩ := x
    cases call with
    | chdir p supply path => exact hx.chdir hop ha hc
    | exec p supply path argv loads behind => exact hx.exec hop ha hc
  have hinv := run_history_under (R := fun s _ => Settled T P d s)
    (C := fun _ x => x.input.Allowed T P d stat x.pre)
    (fun x _ hx ha hc => (hstep x hx ha hc).1) hrun hs
    (fun before x after he => hall x (by rw [he]; simp))
  refine ⟨fun before after he => (hinv before after he).absolute, fun x hx => ?_⟩
  obtain ⟨before, after, he⟩ := List.append_of_mem hx
  have hpre := hinv before (x :: after) he
  rw [← (run_around (he ▸ hrun)).2.1] at hpre
  exact (hstep x hpre (hall x hx) (run_step hrun x hx)).2

end Runs

/-! A file system with the file /usr/bin/ls. -/

def usr : Text := [0x75, 0x73, 0x72]
def bin : Text := [0x62, 0x69, 0x6E]
def ls : Text := [0x6C, 0x73]

def usrTree : Tree := lineTree [usr, bin, ls]

def usrStat : Stat := fun n => some (0, if n = 3 then 0x81FF else 0x41FF)

def usrStart : CwdMachine := ⟨bareKernel usrTree [], fun _ => chars [slash] fun _ => 0⟩

def chdirCall (supply : List Word) (path : Text) (h : 0 ∉ path) : CwdCall :=
  .chdir 0 supply ⟨path, h⟩

/-- `_exec` of a file, with argv[0] as given. -/
def execCall (supply : List Word) (path executable : Text) (h : 0 ∉ path) (h' : 0 ∉ executable) :
    CwdCall :=
  .exec 0 supply ⟨path, h⟩ [⟨executable, h'⟩] true []

def usrBin : Text := slash :: usr ++ slash :: bin
def usrBinLs : Text := usrBin ++ slash :: ls

theorem usrStart_valid : (treeDriver usrTree).Serves usrTree ∧ Cached usrStart.kernel.vfs ∧
    Mirrors usrTree usrStart.kernel.vfs ∧ ∀ q, usrStart.cwdText q = [slash] := by
  have hw := bareKernel_world usrTree (fun _ => rfl) []
  refine ⟨hw.serves, hw.cached, hw.mirrors, fun q => ?_⟩
  exact (chars_spells (by decide) _).text_eq (by decide)

/-- "/usr/bin" is entered, a program is run as "usr/ls", "/" is entered, and the program
is run as "ls". -/
theorem current_directory_named_usrBin :
    ∃ tr, run (cwdStep (treeDriver usrTree) usrStat) usrStart
        [chdirCall [2, 3, 4] usrBin (by decide),
          execCall [10, 11] usrBinLs (usr ++ slash :: ls) (by decide) (by decide),
          chdirCall [20] [slash] (by decide),
          execCall [30] usrBinLs ls (by decide) (by decide)] = some tr ∧
      tr.map (fun x => (x.output, x.post.cwdText 0)) =
        [(0, usrBin), (0, slash :: usr), (0, [slash]), (0, [slash])] ∧
      ∀ x ∈ tr, NamesDir (treeDriver usrTree) usrStat x := by
  obtain ⟨hd, hc, hm, h0⟩ := usrStart_valid
  exact run_test (fun tr => tr.map (fun x => (x.output, x.post.cwdText 0)) =
      [(0, usrBin), (0, slash :: usr), (0, [slash]), (0, [slash])] ∧
    ∀ x ∈ tr, x.input.Allowed usrTree .whole (treeDriver usrTree) usrStat x.pre) (by decide)
    fun tr htr ht =>
      ⟨ht.1, (current_directory_named hd (fun _ _ => rfl) hc hm h0 htr ht.2).2⟩

/-- Two relative calls leave "bin", which is not absolute and leads nowhere from the root,
and a path with three components leaves only its first. -/
theorem relative_chdir_lost : (treeDriver usrTree).Serves usrTree ∧
    Cached usrStart.kernel.vfs ∧ Mirrors usrTree usrStart.kernel.vfs ∧
    (∀ q, usrStart.cwdText q = [slash]) ∧
    ∃ tr, run (cwdStep (treeDriver usrTree) usrStat) usrStart
        [chdirCall [2, 3] usr (by decide), chdirCall [10, 11] bin (by decide),
          execCall [20, 21] usrBinLs usrBinLs (by decide) (by decide)] = some tr ∧
      tr.map (fun x => (x.output, x.post.cwdText 0)) = [(0, usr), (0, bin), (0, slash :: usr)] ∧
      (route bin).bind (usrTree.resolve usrTree.root) = none ∧ executableDir usrBinLs = usrBin := by
  obtain ⟨hd, hc, hm, h0⟩ := usrStart_valid
  refine ⟨hd, hc, hm, h0, run_test (fun tr => tr.map (fun x => (x.output, x.post.cwdText 0)) =
    [(0, usr), (0, bin), (0, slash :: usr)]) (by decide) fun tr _ ht => ⟨ht, ?_⟩⟩
  exact ⟨by decide, by decide⟩

end TapiOS.Task
