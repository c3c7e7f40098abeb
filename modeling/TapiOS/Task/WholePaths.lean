import TapiOS.Task.OpenAgree
import TapiOS.Util.Strtok

/-!
# Long paths, walk_path_do of fs/vfs.c

The path is copied to an array of 256 bytes on the stack and cut there by strtok. A path
without a NUL among its first 256 bytes goes on with what the stack holds behind the array.
-/
namespace TapiOS.Task

open Lib Util Fs

/-- The string at `p`. -/
def stringAt (buf : List Byte) (p : Nat) : Text := (buf.drop p).takeWhile (· != 0)

/-- walk_path_do: `name` are the bytes from the path's first one on, `stack` those behind
`tokname`, and `lastp` is what an earlier use of strtok has left. -/
def walkPathDo (d : Driver) (v : Vfs) (wnode : Word) (name stack : List Byte)
    (lastp : Option Nat) : Except Stop (Word × Vfs) :=
  if name.take 2 = [slash, 0] then .ok (v.rootFs, v)
  else
    match strtokAll (name.take 256 ++ stack) lastp slash with
    | none => .error .fault
    | some ([], _) => .ok (0, v)
    | some (ps, tokname) => walk d v wnode (ps.map (stringAt tokname))

/-- vfs_search on the root, which is a directory. -/
def searchRoot (d : Driver) (v : Vfs) (name stack : List Byte) (lastp : Option Nat) :
    Except Stop (Word × Vfs) :=
  if (v.inodes v.rootFs).acts.search then walkPathDo d v v.rootFs name stack lastp
  else .ok (0, v)

/-- The node that the names lead to, NULL without a name. -/
def walkNames (d : Driver) (v : Vfs) (wnode : Word) : List Text → Except Stop (Word × Vfs)
  | [] => .ok (0, v)
  | names => walk d v wnode names

/-- In every tree, the path leads where all its components lead, whatever stands behind its
NUL and on the stack. -/
def ResolvesWhole (path : Text) : Prop :=
  ∀ (d : Driver) (v : Vfs) (behind stack : List Byte) (lastp : Option Nat),
    (v.inodes v.rootFs).acts.search → 256 ≤ path.length + 1 + behind.length → 0 ∈ stack →
      searchRoot d v (path ++ 0 :: behind) stack lastp = walkNames d v v.rootFs (components path)

section Paths
variable {d : Driver} {v : Vfs} {path : Text}

theorem stringAt_eq {buf : List Byte} {p : Nat} {w : Text} (h : TextAt buf p w) (h0 : 0 ∉ w) :
    stringAt buf p = w := by
  obtain ⟨z, hz⟩ := h
  rw [List.append_assoc] at hz
  rw [stringAt, ← hz]
  refine takeWhile_stop (fun b hb => ?_) (by simp)
  simpa using fun he : b = 0 => h0 (he ▸ hb)

theorem map_stringAt {buf : List Byte} {ps : List Nat} {ws : List Text}
    (h : List.Forall₂ (TextAt buf) ps ws) (h0 : ∀ w ∈ ws, 0 ∉ w) : ps.map (stringAt buf) = ws := by
  induction h with
  | nil => rfl
  | cons ht _ ih =>
    obtain ⟨hw, hws⟩ := List.forall_mem_cons.mp h0
    rw [List.map_cons, stringAt_eq ht hw, ih hws]

/-- The names are those of the string that `tokname` holds. -/
theorem walkPathDo_eq {stack behind : List Byte} {u post : List Byte} (node : Word)
    (lastp : Option Nat) (h0 : 0 ∉ path) (hroot : path ≠ [slash])
    (hu : (path ++ 0 :: behind).take 256 ++ stack = u ++ 0 :: post) (hu0 : 0 ∉ u) :
    walkPathDo d v node (path ++ 0 :: behind) stack lastp = walkNames d v node (components u) := by
  have hname : (path ++ 0 :: behind).take 2 ≠ [slash, 0] := by
    intro h
    match path with
    | [] => exact absurd (List.cons.inj h).1 (by decide)
    | [c] => exact hroot (by rw [(List.cons.inj h).1])
    | c :: c' :: rest =>
      have hc := (List.cons.inj (List.cons.inj h).2).1
      exact h0 (hc ▸ by simp)
  obtain ⟨ps, u', hl, -, htext⟩ := strtokLoop_spec (d := slash) (by decide)
    ((u ++ 0 :: post).length + 1) [] u post lastp (some 0)
    (by rw [List.length_append]; omega) hu0 rfl
  rw [List.nil_append] at hl
  have hnames : ps.map (stringAt (u' ++ 0 :: post)) = components u :=
    map_stringAt htext fun w hw h => hu0 ((sublist_of_mem_components hw).subset h)
  unfold walkPathDo strtokAll
  rw [if_neg hname, hu, hl, ← hnames]
  cases ps <;> rfl

theorem searchRoot_eq {stack behind : List Byte} {u post : List Byte} (lastp : Option Nat)
    (hs : (v.inodes v.rootFs).acts.search) (h0 : 0 ∉ path) (hroot : path ≠ [slash])
    (hu : (path ++ 0 :: behind).take 256 ++ stack = u ++ 0 :: post) (hu0 : 0 ∉ u) :
    searchRoot d v (path ++ 0 :: behind) stack lastp = walkNames d v v.rootFs (components u) := by
  rw [searchRoot, if_pos hs, walkPathDo_eq _ lastp h0 hroot hu hu0]

theorem short_bytes {behind : List Byte} (stack : List Byte) (hlen : path.length < 256) :
    (path ++ 0 :: behind).take 256 ++ stack =
      path ++ 0 :: (behind.take (255 - path.length) ++ stack) := by
  rw [List.take_append, List.take_of_length_le hlen.le,
    show 256 - path.length = 255 - path.length + 1 by omega, List.take_succ_cons,
    List.append_assoc, List.cons_append]

/-- The walk by names is that of the array and strtok, with the string that the driver's
stack has behind the array. -/
theorem walkPath_eq_walkPathDo (node : Word) (behind post : List Byte) (lastp : Option Nat)
    (h0 : 0 ∉ path) (hs0 : 0 ∉ d.stack path) : walkPath d v node path =
      walkPathDo d v node (path ++ 0 :: behind) (d.stack path ++ 0 :: post) lastp := by
  by_cases hroot : path = [slash]
  · subst hroot
    rfl
  have hnames : walkPath d v node path =
      walkNames d v node (components (tokname d.stack path)) := by
    rw [walkPath, if_neg hroot]
    cases components (tokname d.stack path) <;> rfl
  rw [hnames]
  by_cases hlen : path.length < 256
  · rw [tokname_short hlen]
    exact (walkPathDo_eq node lastp h0 hroot (short_bytes _ hlen) h0).symm
  · have hu : (path ++ 0 :: behind).take 256 ++ (d.stack path ++ 0 :: post) =
        tokname d.stack path ++ 0 :: post := by
      rw [tokname, if_neg hlen, List.take_append_of_le_length (by omega), List.append_assoc]
    have hu0 : 0 ∉ tokname d.stack path := by
      rw [tokname, if_neg hlen, List.mem_append, not_or]
      exact ⟨fun h => h0 (List.mem_of_mem_take h), hs0⟩
    exact (walkPathDo_eq node lastp h0 hroot hu hu0).symm

theorem walkNames_line {M L : List Text} (hM : M.length < 2000) (hne : [] ∉ L) (hL : L <+: M)
    (h0 : L ≠ []) : ∃ node v', walkNames (treeDriver (lineTree M)) (bareKernel (lineTree M) []).vfs
      (bareKernel (lineTree M) []).vfs.rootFs L = .ok (node, v') ∧ node ≠ 0 ∧
      (v'.inodes node).inodeNo = BitVec.ofNat 32 L.length := by
  have hworld := bareKernel_world (lineTree M) (fun _ => rfl) []
  have hle := hL.length_le
  obtain ⟨node, v', hw, -, -, hr⟩ := hworld.walk (m := 0) hworld.cached.root hne (by omega)
  have hres := resolve_line (M := M) (i := 0) (by omega) (by omega) L
  rw [List.drop_zero, Nat.zero_add] at hres
  rw [if_pos hL] at hres
  refine ⟨node, v', ?_, Vfs.number_eq_some.mp (hr.symm.trans hres)⟩
  rw [← hw]
  cases L with
  | nil => exact absurd rfl h0
  | cons name rest => rfl

/-- One more name leads to another node. -/
theorem walkNames_ne (names : List Text) (hne : [] ∉ names) (hlen : names.length ≤ 256) :
    ∃ d v, (v.inodes v.rootFs).acts.search ∧
      walkNames d v v.rootFs names ≠ walkNames d v v.rootFs (names ++ [[0x61]]) := by
  have hM : (names ++ [[0x61]]).length = names.length + 1 := List.length_append
  obtain ⟨n1, v1, hw1, hn1, hi1⟩ := walkNames_line (M := names ++ [[0x61]]) (by omega)
    (by simp [hne]) List.prefix_rfl (by simp)
  refine ⟨treeDriver (lineTree (names ++ [[0x61]])), (bareKernel (lineTree (names ++ [[0x61]])) []).vfs,
    (bareKernel_world _ (fun _ => rfl) []).cached.rootActs.2, fun he => ?_⟩
  rw [hw1] at he
  by_cases h0 : names = []
  · subst h0
    exact hn1 (Prod.mk.inj (Except.ok.inj he)).1.symm
  · obtain ⟨n2, v2, hw2, -, hi2⟩ := walkNames_line (M := names ++ [[0x61]]) (by omega) hne
      (List.prefix_append _ _) h0
    rw [hw2] at he
    cases he
    have hk := congrArg BitVec.toNat (hi1.symm.trans hi2)
    rw [hM, BitVec.toNat_ofNat, BitVec.toNat_ofNat] at hk
    omega

/-- A path that fills the array goes on with the stack's bytes. -/
theorem not_resolvesWhole (h0 : 0 ∉ path) (hroot : path ≠ [slash]) (hlen : 256 ≤ path.length) :
    ¬ResolvesWhole path := by
  intro h
  have htake (behind stack : List Byte) :
      (path ++ 0 :: behind).take 256 ++ stack = path.take 256 ++ stack := by
    rw [List.take_append_of_le_length (by omega)]
  have h0' : 0 ∉ path.take 256 := fun h => h0 (List.mem_of_mem_take h)
  obtain ⟨d, v, hs, hne⟩ := walkNames_ne (components (path.take 256)) (nil_notMem_components _)
    ((length_components _).trans (by simp))
  have hone := h d v [] [0] none hs (by omega) (by simp)
  rw [searchRoot_eq none hs h0 hroot (htake [] [0]) h0'] at hone
  -- the stack goes on with a slash and a name
  have htwo := h d v [] [slash, 0x61, 0] none hs (by omega) (by simp)
  have hbytes : (path ++ 0 :: []).take 256 ++ [slash, 0x61, 0] =
      path.take 256 ++ slash :: [0x61] ++ 0 :: [] := by
    rw [htake]
    simp
  rw [searchRoot_eq none hs h0 hroot hbytes (by simpa [slash] using h0'), components_append] at htwo
  exact hne (hone.trans htwo.symm)

end Paths

/-- Paths are resolved whole exactly if they and their NUL fit the array. -/
theorem path_resolves_whole_iff (path : Text) (h0 : 0 ∉ path) (hroot : path ≠ [slash]) :
    ResolvesWhole path ↔ path.length < 256 := by
  constructor
  · intro h
    by_contra hlen
    exact not_resolvesWhole h0 hroot (by omega) h
  · intro hlen d v behind stack lastp hs hbehind _
    exact searchRoot_eq lastp hs h0 hroot (short_bytes stack hlen) h0

theorem path_resolves_whole_one : ResolvesWhole [0x61] :=
  (path_resolves_whole_iff [0x61] (by decide) (by decide)).mpr (by decide)

/-- 256 times the letter a. -/
theorem long_path_runs_on : ¬ResolvesWhole (List.replicate 256 0x61) :=
  not_resolvesWhole (fun h => absurd (List.eq_of_mem_replicate h) (by decide))
    (fun h => absurd (congrArg List.length h) (by rw [List.length_replicate]; decide))
    (by rw [List.length_replicate])

end TapiOS.Task
