import TapiOS.Task.DirectoryCalls

/-!
# Names stay different

A creation keeps the names of a directory different when the three readings of the path
agree: the walk that found nothing went to the directory of dirname and looked there for
the name of basename. Neither `_open` nor `_mkdir` checks this.
-/
namespace TapiOS.Task

open Lib Util Fs
open Ext2 (BlockEntries Geometry NotNull Plain Typed dirEntry freshSeed smallGeometry smallLayout
  usedNames)

/-- A creation with the last part of the path as a name in directory `n`: ext2_new_inode has
room for it, and it is in none of the blocks that ext2_search does not look at. -/
structure NewName (L : Geometry) (m : Mem) (n : Word) (path : Text) (flags : Word) : Prop where
  nonempty : basename path ≠ []
  length : (basename path).length ≤ 255
  proper : (Ext2.Call.newInode n path flags).Proper L.toLayout m
  allowed : (Ext2.Call.newInode n path flags).Allowed L.toLayout m
  elsewhere : ∀ x es, L.Holds m n.toNat 0 x → x ≠ Ext2.firstBlock L.toLayout m n.toNat →
    BlockEntries L.toLayout m x es → basename path ∉ usedNames es

section Create
variable {L : Geometry} {M : Word → Text → Bool} {s : Machine} {v : Vfs}
  {node dir n flags : Word} {path : Text} (hp : Plain L) (hnull : NotNull L)
  (h : Sound L M s)

include hp hnull h

theorem Sound.search_none (hn : NewName L s.image n path flags)
    (hno : (imageTree s.image L.sb).child n (basename path) = none) :
    Ext2.ext2Search s.image L.sb (BitVec.ofNat 32 n.toNat) (basename path) = .ok none ∧
      ∀ x es, L.Holds s.image n.toNat 0 x → BlockEntries L s.image x es →
        basename path ∉ usedNames es := by
  have hdir : Ext2.IsDirectory L s.image n.toNat := hn.proper
  have hholds := hdir.holds h.orderly
  obtain ⟨fs, hfs⟩ := h.orderly.blocks _ _ hdir hholds
  have hsearch := Ext2.search_directory hp h.consistent.describes hnull hdir
    (h.consistent.held_zone hdir.1 hholds).1 hfs (basename path)
  have hsearch' := hsearch
  rw [BitVec.ofNat_toNat, BitVec.setWidth_eq] at hsearch'
  rw [imageTree_child hsearch', Option.map_eq_none_iff] at hno
  refine ⟨by rw [hsearch, hno], fun x es hx hes => ?_⟩
  by_cases hxf : x = Ext2.firstBlock L s.image n.toNat
  · subst hxf
    rw [hes.unique hfs, usedNames, List.mem_map]
    rw [List.find?_eq_none] at hno
    intro hmem
    obtain ⟨e, he, hname⟩ := hmem
    exact hno e (List.mem_of_mem_filter he) (by simpa using hname)
  · exact hn.elsewhere x es hx hxf hes

/-- What is cached is still in the tree when the image got a new name. -/
theorem Sound.mirrors_grown {m' : Mem} {j : Nat} (hn : NewName L s.image n path flags)
    (hno : (imageTree s.image L.sb).child n (basename path) = none)
    (hg : Ext2.Grows L s.image m' n.toNat j (basename path)) :
    Mirrors (imageTree m' L.sb) s.kernel.vfs (imagePart L M m') := by
  -- the number of the new inode is free, and so is not that of a mounted one
  have hown : ∀ a ∈ s.kernel.vfs.inodeBlocks,
      (imagePart L M m').own (s.kernel.vfs.inodes a).inodeNo →
      (imagePart L M s.image).own (s.kernel.vfs.inodes a).inodeNo := fun a ha hao =>
    (h.mirrors.nodes a ha).resolve_right fun hno => hno hao.1.1
  refine ⟨h.mirrors.root, hg.typed hp h.mirrors.top,
    fun _ _ _ => imageTree_below hp hnull hg.consistent
      (hg.orderly hp h.consistent h.orderly hn.proper),
    fun a ha => (h.mirrors.nodes a ha).imp_left (hg.typed hp),
    fun a ha hao => h.mirrors.acts a ha (hown a ha hao), fun a ha hao ss hk c hc hcn => ?_⟩
  have hold := h.mirrors.child a ha (hown a ha hao) ss hk c hc hcn
  have hne : (s.kernel.vfs.inodes a).inodeNo.toNat ≠ n.toNat ∨
      (s.kernel.vfs.inodes c).name ≠ basename path := by
    by_contra hboth
    obtain ⟨hi, hname⟩ := not_or.mp hboth
    rw [BitVec.eq_of_toNat_eq (not_not.mp hi), not_not.mp hname, hno] at hold
    cases hold
  have hsame := hg.search_other hp h.consistent h.orderly hn.proper hnull (hown a ha hao)
    hne
  rw [BitVec.ofNat_toNat, BitVec.setWidth_eq] at hsame
  rw [← hold]
  simp only [imageTree, hsame]

theorem Sound.create (hd : dir ∈ s.kernel.vfs.inodeBlocks)
    (hn : NewName L s.image (s.kernel.vfs.inodes dir).inodeNo path flags)
    (hflags : flags = 0x8000#32 ∨ flags = 0x4000#32)
    (hno : (imageTree s.image L.sb).child (s.kernel.vfs.inodes dir).inodeNo (basename path) = none)
    (hin : M (s.kernel.vfs.inodes dir).inodeNo (basename path) = false)
    (hv : vfsNewInode (ext2Driver s L.sb) s.kernel.vfs dir path flags = .ok (node, v)) :
    Sound L M ⟨{ s.kernel with vfs := v },
        imageAfter s.image L.sb (s.kernel.vfs.inodes dir) path flags, s.stack⟩ ∧
      Extends s.kernel.vfs v ∧ node ∈ v.inodeBlocks ∧ Placed v node ∧
      Typed L (imageAfter s.image L.sb (s.kernel.vfs.inodes dir) path flags)
        (v.inodes node).inodeNo.toNat := by
  obtain ⟨ss, hl⟩ := h.cached.lists dir hd
  have hdir : Ext2.IsDirectory L s.image (s.kernel.vfs.inodes dir).inodeNo.toNat := hn.proper
  have hown : (imagePart L M s.image).own (s.kernel.vfs.inodes dir).inodeNo :=
    ⟨hdir.1, fun _ => hdir⟩
  rcases vfsNewInode_added hd hl hv with ⟨-, -, hcr⟩ | ⟨info, hcreate, ha⟩
  · rw [h.mirrors.acts dir hd hown] at hcr
    cases hcr
  simp only [ext2Driver] at hcreate
  split at hcreate
  next r m' hm' =>
    obtain ⟨i, hr, rfl⟩ := Option.map_eq_some_iff.mp hcreate
    obtain ⟨j, rfl, hg⟩ := Ext2.ext2NewInode_grows h.consistent hp hnull hn.proper hn.allowed
      hn.length hflags hm' hr
    obtain ⟨hnone, hfree⟩ := h.search_none hp hnull hn hno
    rw [BitVec.ofInt_natCast, List.take_of_length_le (by have hlen := hn.length; omega)] at ha
    have himage : imageAfter s.image L.sb (s.kernel.vfs.inodes dir) path flags = m' := by
      rw [imageAfter, hm']
    have hchild := hg.search_new hp h.consistent h.orderly hn.proper hnull hnone
    rw [BitVec.ofNat_toNat] at hchild
    have hnew : basename path ∉ namesOf s.kernel.vfs ss := by
      intro hmem
      obtain ⟨c, hc, hname⟩ := List.mem_map.mp hmem
      have hold := h.mirrors.child dir hd hown ss hl.kids c hc (hname ▸ hin)
      rw [hname, hno] at hold
      cases hold
    rw [himage]
    refine ⟨⟨?_, ?_, ?_, ?_, ?_⟩, ha.extends h.cached hd hl, ?_, ?_, ?_⟩
    · exact hg.consistent
    · exact hg.orderly hp h.consistent h.orderly hn.proper
    · exact hg.unique hp h.consistent h.orderly hn.proper h.unique hn.nonempty hfree
    · exact ha.cached h.cached hd hl hn.nonempty hnew
    · exact ha.mirrors h.cached hd hl (h.mirrors_grown hp hnull hn hno hg) (hg.typed hp hown) rfl
        (imageTree_child hchild)
    · rw [ha.blocks]
      exact .head _
    · refine .inr ?_
      rw [ha.record, ha.blocks]
      exact .tail _ hd
    · rw [ha.record, hg.ofNat_toNat]
      exact hg.typed_new
  next => cases hcreate

end Create

/-- The directory in which a call would create a file, and what its path leads to. -/
def parentOf (m : Mem) (sb : Word) (cwd path : Text) : Option Word :=
  (route (openDir cwd path)).bind ((imageTree m sb).resolve 2)

def targetOf (m : Mem) (sb : Word) (cwd path : Text) : Option Word :=
  (searched id cwd path).bind ((imageTree m sb).resolve 2)

/-- The walk looked for the name of basename in the directory of dirname, and the name can
be created there. -/
def Creatable (L : Geometry) (m : Mem) (cwd path : Text) (n flags : Word) : Prop :=
  searched id cwd path = (route (openDir cwd path)).map (· ++ [basename path]) ∧
    NewName L m n path flags

variable {L : Geometry}

theorem Creatable.child {M : Word → Text → Bool} {m : Mem} {cwd path : Text} {n flags : Word}
    (h : Creatable L m cwd path n flags) (hd : Direct L M m cwd path)
    (hpar : parentOf m L.sb cwd path = some n) (htar : targetOf m L.sb cwd path = none) :
    (imageTree m L.sb).child n (basename path) = none ∧ M n (basename path) = false := by
  obtain ⟨A, hA, hn⟩ := Option.bind_eq_some_iff.mp hpar
  have hin := hd.2.2
  rw [h.1, hA] at hin
  change (imageTree m L.sb).within (imagePart L M m) 2 (A ++ [basename path]) = true at hin
  rw [Tree.within_append, hn, Bool.and_eq_true] at hin
  refine ⟨?_, by simpa [imagePart] using (Bool.and_eq_true_iff.mp hin.2).1⟩
  rw [targetOf, h.1, hA] at htar
  change (imageTree m L.sb).resolve 2 (A ++ [basename path]) = none at htar
  rw [Tree.resolve_append, hn] at htar
  change (imageTree m L.sb).resolve n [basename path] = none at htar
  simp only [Tree.resolve] at htar
  cases hc : (imageTree m L.sb).child n (basename path) with
  | none => rfl
  | some c =>
    rw [hc] at htar
    cases htar

section Open
variable {L : Geometry} {M : Word → Text → Bool} {s s' : Machine} {k' : Kernel} {v : Vfs}
  {p : Nat} {ret : Int} {path : Text} {node flags sb : Word} {r : Plan}

/-- The end of `_open`: only a full table makes it fail. -/
theorem Sound.install {t : Machine} (h : Sound L M s) (hn : node ∈ s.kernel.vfs.inodeBlocks)
    (hpl : Placed s.kernel.vfs node)
    (hown : Typed L s.image (s.kernel.vfs.inodes node).inodeNo.toNat)
    (ho : openInstall (ext2Driver t sb) s.kernel p node flags = .ok (ret, k')) :
    Sound L M { s with kernel := k' } ∧ Extends s.kernel.vfs k'.vfs ∧ Handed k' p ret ∧
      (ret < 0 → ∀ i, s.kernel.fds p i ≠ 0) := by
  have hi := openInstall_installs (fun _ => rfl) (h.cached.ne_zero hn) ho
  refine ⟨h.trimmed (.of_inodes hi.inodes hi.blocks hi.rootFs),
    .of_inodes hi.inodes hi.blocks hi.rootFs, hi.handed hn hpl, fun hneg => ?_⟩
  refine (hi.refused hneg).resolve_left fun hop => ?_
  rw [h.mirrors.acts node hn hown] at hop
  cases hop

/-- The ways through `_open`. -/
inductive Opens (sb : Word) (s : Machine) (p : Nat) (path : Text) (flags : Word) :
    Int → Machine → Prop where
  | failed {ret : Int} {v : Vfs}
      (hp : openPlan (ext2Driver s sb) s.kernel p path flags = .ok (.fail ret, v)) :
      Opens sb s p path flags ret (s.withVfs v)
  | existing {inode : Word} {v : Vfs} {ret : Int} {k : Kernel}
      (hp : openPlan (ext2Driver s sb) s.kernel p path flags = .ok (.node inode, v))
      (hi : openInstall (ext2Driver s sb) (s.withVfs v).kernel p inode flags = .ok (ret, k)) :
      Opens sb s p path flags ret { s with kernel := k }
  | created {dir node : Word} {v v' : Vfs} {ret : Int} {k : Kernel}
      (hp : openPlan (ext2Driver s sb) s.kernel p path flags = .ok (.create dir, v))
      (hn : vfsNewInode (ext2Driver s sb) v dir path 0x8000 = .ok (node, v'))
      (hi : openInstall (ext2Driver s sb) (s.withVfs v').kernel p node flags = .ok (ret, k)) :
      Opens sb s p path flags ret ⟨k, imageAfter s.image sb (v.inodes dir) path 0x8000, s.stack⟩

theorem openFile_opens (h : s.openFile sb p path flags = .ok (ret, s')) :
    Opens sb s p path flags ret s' := by
  unfold Machine.openFile createDir sysOpen at h
  dsimp only at h
  cases hplan : openPlan (ext2Driver s sb) s.kernel p path flags with
  | error e =>
    rw [hplan] at h
    cases h
  | ok x =>
    obtain ⟨r, v⟩ := x
    rw [hplan] at h
    cases r with
    | fail ret =>
      cases h
      exact .failed hplan
    | node inode =>
      split at h
      · cases h
      next hi =>
        cases h
        exact .existing hplan hi
    | create dir =>
      split at h
      · cases h
      next ho =>
        cases h
        dsimp only at ho
        split at ho
        · cases ho
        next hn => exact .created hplan hn ho

/-- What the lookups of `_open` say about the image. -/
def Planned (L : Geometry) (m : Mem) (cwd path : Text) (flags : Word) (v : Vfs) : Plan → Prop
  | .fail ret => ret < 0 ∧ (path.length < PATH_MAX → parentOf m L.sb cwd path ≠ none →
      targetOf m L.sb cwd path ≠ none ∧ flags &&& (O_CREAT ||| O_EXCL) = (O_CREAT ||| O_EXCL))
  | .node inode =>
    if inode = 0 then flags &&& O_CREAT = 0 ∧ targetOf m L.sb cwd path = none
    else inode ∈ v.inodeBlocks ∧ Placed v inode ∧
      targetOf m L.sb cwd path = some (v.inodes inode).inodeNo
  | .create dir => path.length < PATH_MAX ∧ flags &&& O_CREAT ≠ 0 ∧ dir ∈ v.inodeBlocks ∧
    parentOf m L.sb cwd path = some (v.inodes dir).inodeNo ∧ targetOf m L.sb cwd path = none

/-- Why `_open` fails: for a missing directory or an existing file that must not exist, for a
missing file that it may not create, or because the table is full. -/
def OpenFails (L : Geometry) (s s' : Machine) (p : Nat) (path : Text) (flags : Word) : Prop :=
  (path.length < PATH_MAX → parentOf s.image L.sb (s.kernel.cwd p) path ≠ none →
    targetOf s.image L.sb (s.kernel.cwd p) path ≠ none ∧
      flags &&& (O_CREAT ||| O_EXCL) = (O_CREAT ||| O_EXCL)) ∨
  s'.image = s.image ∧ flags &&& O_CREAT = 0 ∧
    targetOf s.image L.sb (s.kernel.cwd p) path = none ∨
  (∀ i, s.kernel.fds p i ≠ 0) ∧
    (targetOf s.image L.sb (s.kernel.cwd p) path ≠ none ∨ flags &&& O_CREAT ≠ 0)

end Open

section Opened
variable {L : Geometry} {M : Word → Text → Bool} {s s' : Machine} {p : Nat} {ret : Int}
  {path : Text} {n flags : Word} (hp : Plain L) (hnull : NotNull L) (h : Sound L M s)
  (hdirect : path.length < PATH_MAX → Direct L M s.image (s.kernel.cwd p) path)
include h hdirect

theorem Sound.plan {r : Plan} {v : Vfs}
    (hplan : openPlan (ext2Driver s L.sb) s.kernel p path flags = .ok (r, v)) :
    Sound L M (s.withVfs v) ∧ Extends s.kernel.vfs v ∧ Planned L s.image (s.kernel.cwd p) path flags v r := by
  unfold openPlan at hplan
  split_ifs at hplan with hroot hlong
  · cases hplan
    exact ⟨h, .refl _, by decide, fun hlen => by omega⟩
  have hlen := not_le.mp hlong
  have hdir := hdirect hlen
  have hsh := hdir.1
  split at hplan
  · cases hplan
  next v hl =>
    cases hplan
    obtain ⟨hv, he, hr⟩ := h.shown.lookup (hsh.inside hdir.2) hl
    rw [tokname_short hsh.2] at hr
    exact ⟨h.of_shown hv, he, by decide, fun _ hne => absurd hr hne⟩
  next dir inode v hl =>
    obtain ⟨hv, he, hf⟩ := h.shown.lookup (hsh.inside hdir.2) hl
    have hs := h.of_shown hv
    have htar : targetOf s.image L.sb (s.kernel.cwd p) path = v.number inode := by
      rw [targetOf, ← hsh.searched]
      exact hf.resolved
    split at hplan
    next hx =>
      cases hplan
      rw [Vfs.number_ne hx.1] at htar
      exact ⟨hs, he, by decide, fun _ _ => ⟨by rw [htar]; exact Option.some_ne_none _, hx.2⟩⟩
    split at hplan
    next hc =>
      rw [Vfs.number_eq_none.mpr hc.1] at htar
      by_cases hz : dir = 0
      · -- an absolute path: the directory is looked up now
        rw [if_pos hz] at hplan
        split at hplan
        · cases hplan
        next dir' v' hd =>
          obtain ⟨hs', he', hfound, hres⟩ := hs.getdir hdir hd
          by_cases hd0 : dir' = 0
          · rw [if_pos hd0] at hplan
            cases hplan
            exact ⟨hs', he.trans he', by decide, fun _ hne =>
              absurd (hres.trans (Vfs.number_eq_none.mpr hd0)) hne⟩
          · rw [if_neg hd0] at hplan
            rw [Vfs.number_ne hd0] at hres
            cases hplan
            exact ⟨hs', he.trans he', hlen, hc.2, (hfound hd0).1, hres, htar⟩
      · rw [if_neg hz] at hplan
        dsimp only at hplan
        rw [if_neg hz] at hplan
        cases hplan
        obtain ⟨hm, hres⟩ := hf.relative fun habs => hz (hf.absolute habs)
        rw [tokname_short hsh.2] at hres
        exact ⟨hs, he, hlen, hc.2, hm, hres, htar⟩
    next hc =>
      cases hplan
      refine ⟨hs, he, ?_⟩
      show if inode = 0 then _ else _
      split_ifs with h0
      · rw [Vfs.number_eq_none.mpr h0] at htar
        exact ⟨not_not.mp fun hne => hc ⟨h0, hne⟩, htar⟩
      · rw [Vfs.number_ne h0] at htar
        obtain ⟨hm, hpl⟩ := hf.found h0
        exact ⟨hm, hpl, htar⟩

variable (ho : Opens L.sb s p path flags ret s')
include hp hnull ho

/-- `_open` when the path of a file it creates reads as one. -/
theorem Sound.opens (hok : ∀ n, path.length < PATH_MAX → flags &&& O_CREAT ≠ 0 →
      parentOf s.image L.sb (s.kernel.cwd p) path = some n →
      targetOf s.image L.sb (s.kernel.cwd p) path = none →
      Creatable L s.image (s.kernel.cwd p) path n 0x8000) :
    Sound L M s' ∧ Extends s.kernel.vfs s'.kernel.vfs ∧ Handed s'.kernel p ret ∧
      (ret < 0 → OpenFails L s s' p path flags) := by
  cases ho with
  | failed hplan =>
    obtain ⟨hs, he, hneg, hfail⟩ := h.plan hdirect hplan
    exact ⟨hs, he, handed_of_neg hneg, fun _ => .inl hfail⟩
  | @existing inode v _ k hplan hi =>
    obtain ⟨hs, he, hr⟩ := h.plan hdirect hplan
    change if inode = 0 then _ else _ at hr
    by_cases h0 : inode = 0
    · unfold openInstall at hi
      rw [if_pos h0] at hi hr
      cases hi
      exact ⟨hs, he, handed_of_neg (by decide), fun _ => .inr (.inl ⟨rfl, hr⟩)⟩
    · rw [if_neg h0] at hr
      obtain ⟨hs1, he1, hh, hfull⟩ := hs.install hr.1 hr.2.1 (h.typed hr.2.2) hi
      have htar : targetOf s.image L.sb (s.kernel.cwd p) path ≠ none := by
        rw [hr.2.2]
        exact Option.some_ne_none _
      exact ⟨hs1, he.trans he1, hh, fun hneg => .inr (.inr ⟨hfull hneg, .inl htar⟩)⟩
  | created hplan hn hi =>
    obtain ⟨hs1, he1, hlen, hc, hm, hpar, htar⟩ := h.plan hdirect hplan
    have hcr := hok _ hlen hc hpar htar
    obtain ⟨hno, hin⟩ := hcr.child (hdirect hlen) hpar htar
    obtain ⟨hs2, he2, hnm, hpl, ht⟩ := hs1.create hp hnull hm hcr.2 (.inl rfl) hno hin hn
    obtain ⟨hs3, he3, hh, hfull⟩ := hs2.install hnm hpl ht hi
    exact ⟨hs3, (he1.trans he2).trans he3, hh, fun hneg => .inr (.inr ⟨hfull hneg, .inr hc⟩)⟩

end Opened

theorem Sound.close {M : Word → Text → Bool} {s : Machine} {k : Kernel} {p : Nat} {fd : Int}
    {i : Fd} {r : Int × List Freed} (h : Sound L M s) (hh : Handed s.kernel p fd) (h0 : 0 ≤ fd)
    (hd : descriptor fd = .ok i) (hc : sysClose s.kernel p i = .ok (r, k)) :
    Sound L M { s with kernel := k } := by
  obtain ⟨v, hv, hk⟩ := sysClose_handed h.cached hh h0 hd hc
  exact Sound.trimmed (s := s.withVfs v) (h.trimmed hv) hk

/-- The condition on a call: the path and that of its directory have less than 256 bytes and
lead to no mount, and a path that would create something reads as a new name in its directory.
For `_mkdir` also nothing but a missing path may make `_open` fail. -/
def NameCall.Proper (L : Geometry) (M : Word → Text → Bool) (s : Machine) (c : NameCall) :
    Prop :=
  c.path.length < PATH_MAX → Direct L M s.image c.cwd c.path ∧
    ∀ n, parentOf s.image L.sb c.cwd c.path = some n →
    match c.kind with
    | .openFile flags => flags &&& O_CREAT ≠ 0 → targetOf s.image L.sb c.cwd c.path = none →
        Creatable L s.image c.cwd c.path n 0x8000
    | .mkdir mode =>
      (targetOf s.image L.sb c.cwd c.path ≠ none →
        mode &&& (O_CREAT ||| O_EXCL) ≠ (O_CREAT ||| O_EXCL)) ∧
      ((targetOf s.image L.sb c.cwd c.path ≠ none ∨ mode &&& O_CREAT ≠ 0) →
        ∃ i, s.kernel.fds c.p i = 0) ∧
      (targetOf s.image L.sb c.cwd c.path = none →
        Creatable L s.image c.cwd c.path n (if mode &&& O_CREAT ≠ 0 then 0x8000 else 0x4000))

section Steps
variable {L : Geometry} {M : Word → Text → Bool} {s s' : Machine} {c : NameCall} {ret : Int}
  (hp : Plain L) (hnull : NotNull L) (h : Sound L M s)
include h

theorem Sound.enter (c : NameCall) : Sound L M (s.enter c) :=
  h.trimmed (k := (s.enter c).kernel) (.of_inodes rfl rfl rfl)

include hp hnull

theorem Sound.mkdir {p : Nat} {path : Text} {mode : Word}
    (hok : NameCall.Proper L M s ⟨p, s.kernel.cwd p, [], s.stack, path, .mkdir mode⟩)
    (hm : s.mkdir L.sb p path mode = .ok (ret, s')) : Sound L M s' := by
  unfold Machine.mkdir at hm
  split_ifs at hm with hlen
  · cases hm
    exact h
  split at hm
  · cases hm
  next dir v hg =>
    obtain ⟨hdir, hok⟩ := hok (not_le.mp hlen)
    obtain ⟨hs1, he1, hfound, hpar⟩ := h.getdir hdir hg
    dsimp only at hm
    split_ifs at hm with hd0
    · cases hm
      exact hs1
    split at hm
    · cases hm
    next fd s2 ho =>
      have hopens := openFile_opens ho
      rw [Vfs.number_ne hd0] at hpar
      obtain ⟨hx, hroom, hnew⟩ := hok _ hpar
      obtain ⟨hs2, he2, hh, hfail⟩ := hs1.opens hp hnull (fun _ => hdir) hopens
        fun n _ hc hn htar => by
          cases hpar.symm.trans hn
          have hcr := hnew htar
          rwa [if_pos hc] at hcr
      unfold mkdirFinish at hm
      split_ifs at hm with hfd
      · split at hm
        · cases hm
        next i hi =>
          split at hm
          · cases hm
          next r k hc =>
            cases hm
            exact hs2.close hh hfd hi hc
      · obtain ⟨himg, hc0, htar⟩ : s2.image = s.image ∧ mode &&& O_CREAT = 0 ∧
            targetOf s.image L.sb (s.kernel.cwd p) path = none := by
          rcases hfail (by omega) with hexcl | hno | ⟨hfull, hor⟩
          · obtain ⟨ht, he⟩ := hexcl (not_le.mp hlen) fun hn => nomatch hpar.symm.trans hn
            exact absurd he (hx ht)
          · exact hno
          · obtain ⟨i, hi⟩ := hroom hor
            exact absurd hi (hfull i)
        have hcr' := hnew htar
        rw [if_neg (fun hne => hne hc0)] at hcr'
        split at hm
        · cases hm
        next node v' hn =>
          cases hm
          have hdm := (hfound hd0).1
          have hno := (he2.record dir hdm).1
          have hnew := hcr'.child hdir hpar htar
          refine (hs2.create hp hnull (he2.blocks dir hdm) ?_ (.inr rfl) ?_ ?_ hn).1
          · rw [himg, hno]
            exact hcr'.2
          · rw [himg, hno]
            exact hnew.1
          · rw [hno]
            exact hnew.2

theorem Sound.step (hok : c.Proper L M s) (hs : nameStep L.sb s c = .ok (ret, s')) :
    Sound L M s' := by
  have hcwd : (s.enter c).kernel.cwd c.p = c.cwd := if_pos rfl
  have he := h.enter c
  unfold nameStep at hs
  cases hk : c.kind with
  | openFile flags =>
    rw [hk] at hs
    refine (he.opens hp hnull (fun hlen => hcwd ▸ (hok hlen).1) (openFile_opens hs)
      fun n hlen hc hpar htar => ?_).1
    rw [hcwd] at hpar htar ⊢
    have hn := (hok hlen).2 n hpar
    rw [hk] at hn
    exact hn hc htar
  | mkdir mode =>
    rw [hk] at hs
    refine he.mkdir hp hnull ?_ hs
    rw [hcwd]
    intro hlen
    refine ⟨(hok hlen).1, fun n hpar => ?_⟩
    have hn := (hok hlen).2 n hpar
    rw [hk] at hn
    exact hn

end Steps

/-- The names of every directory of the image and of every cached children list are
pairwise different and not empty. -/
structure NamesUnique (L : Geometry) (s : Machine) : Prop where
  image : Ext2.UniqueNames L.toLayout s.image
  cache : ∀ a ∈ s.kernel.vfs.inodeBlocks, ∃ ss, Kids s.kernel.vfs a ss ∧
    (namesOf s.kernel.vfs ss).Nodup ∧ [] ∉ namesOf s.kernel.vfs ss

theorem Sound.namesUnique {M : Word → Text → Bool} {s : Machine} (h : Sound L M s) :
    NamesUnique L s := by
  refine ⟨h.unique, fun a ha => ?_⟩
  obtain ⟨ss, hl⟩ := h.cached.lists a ha
  exact ⟨ss, hl.kids, hl.nodup, hl.nonempty⟩

/-- In every run of proper calls all names stay different and not empty. -/
theorem names_stay_unique {L : Geometry} (hp : Plain L.toLayout)
    (hnull : NotNull L.toLayout) {M : Word → Text → Bool} {s : Machine} (h : Sound L M s)
    {calls : List NameCall}
    {tr : List (Transition Machine NameCall Int)} (hr : run (nameStep L.sb) s calls = some tr)
    (hok : ∀ x ∈ tr, x.input.Proper L M x.pre) : ∀ x ∈ tr, NamesUnique L x.post := by
  have hinv := run_invariant (I := Sound L M) (C := fun s c => c.Proper L M s)
    (fun s c o t hs hc ht => hs.step hp hnull hc ht) hr h hok
  exact fun x hx => (hinv x hx).2.namesUnique

/-! A mounted image of which only the root is cached. -/

def rootOnly : Machine where
  kernel := ⟨⟨fun _ => ⟨2, [], ext2Acts, 0, 0, 0⟩, fun _ => ⟨0, 0, 0⟩, 0x1000, [0x1000], [], []⟩, 1,
    fun _ _ => 0, fun _ => [slash]⟩
  image := freshSeed.image
  stack := fun _ => []

theorem freshSeed_directory {n : Nat}
    (h : Ext2.IsDirectory smallLayout freshSeed.image n) : n = 2 := by
  have hbit : ∀ n < 65, 2 < n → smallLayout.inodeBit freshSeed.image
      (smallLayout.inodeGroup n) (smallLayout.inodeIndex n) = false := by decide +kernel
  have hkind : freshSeed.image.half (smallLayout.recordAddr 1) &&& 0xF000#16 ≠ 0x4000#16 := by
    decide +kernel
  obtain ⟨⟨⟨h1, h64⟩, hb⟩, hk⟩ := h
  change n ≤ 1 * 64 at h64
  by_contra hne
  rcases Nat.lt_or_gt_of_ne hne with hlt | hgt
  · obtain rfl : n = 1 := by omega
    exact hkind hk
  · rw [hbit n (by omega) hgt] at hb
    cases hb

theorem freshSeed_entries : BlockEntries smallLayout freshSeed.image 8
    [⟨2#32, [dot]⟩, ⟨2#32, [dot, dot]⟩] := by
  have h0 : Ext2.entrySize freshSeed.image 0xC0204000#32 = 12#16 := by decide +kernel
  have h1 : Ext2.entrySize freshSeed.image 0xC020400C#32 = 2036#16 := by decide +kernel
  have e0 : dirEntry freshSeed.image 0xC0204000#32 = ⟨2#32, [dot]⟩ := by decide +kernel
  have e1 : dirEntry freshSeed.image 0xC020400C#32 = ⟨2#32, [dot, dot]⟩ := by decide
  rw [← e0, ← e1]
  refine .cons rfl (by decide +kernel) (by rw [h0]; decide) ?_
  refine .cons rfl (by decide) (by rw [h1]; decide) ?_
  exact .nil 2048

theorem freshSeed_typed : Typed smallLayout freshSeed.image 2 :=
  ⟨⟨⟨by decide, by decide⟩, by decide⟩, fun _ =>
    ⟨⟨⟨by decide, by decide⟩, by decide⟩, by decide⟩⟩

theorem freshSeed_block {n x : Nat} {es : List Ext2.DirEntry}
    (h : Ext2.IsDirectory smallLayout freshSeed.image n)
    (hx : smallLayout.Holds freshSeed.image n 0 x)
    (hes : BlockEntries smallLayout freshSeed.image x es) :
    x = 8 ∧ es = [⟨2#32, [dot]⟩, ⟨2#32, [dot, dot]⟩] := by
  obtain ⟨-, -, rfl⟩ := freshSeed.image_holds h.1.1 hx
  exact ⟨rfl, BlockEntries.unique (L := smallGeometry) hes freshSeed_entries⟩

theorem smallGeometry_notNull : NotNull smallGeometry.toLayout := by
  intro x hx h0
  have hlow : ∀ x < 64, 2048 ≤ (0#32 - smallLayout.blockAddr x).toNat := by decide
  have hmem : (0#32 - smallLayout.blockAddr x).toNat < 2048 := h0
  exact absurd (hlow x hx.1) (by omega)

theorem freshSeed_orderly : Ext2.Orderly smallLayout freshSeed.image := by
  refine ⟨fun n hn => ?_, fun n x hn hx => ?_, fun n es hn hes e he => ?_⟩
  · obtain rfl := freshSeed_directory hn
    decide
  · obtain ⟨-, -, rfl⟩ := freshSeed.image_holds hn.1.1 hx
    exact ⟨_, freshSeed_entries⟩
  · obtain rfl := freshSeed_directory hn
    rw [BlockEntries.unique (L := smallGeometry) hes freshSeed_entries] at he
    simp only [List.mem_cons, List.not_mem_nil, or_false] at he
    rcases he with rfl | rfl
    · exact freshSeed_typed
    · exact freshSeed_typed

/-- Something may be mounted on "/dev". -/
def onDev (n : Word) (name : Text) : Bool := n == 2 && name == [0x64, 0x65, 0x76]

theorem rootOnly_sound : Sound smallGeometry onDev rootOnly where
  consistent := freshSeed.image_consistent (by decide)
  orderly := freshSeed_orderly
  unique := by
    refine ⟨fun n x es hn hx hes => ?_, fun n x y es fs hn hx hy hxy hes hfs => ?_⟩
    · rw [(freshSeed_block hn hx hes).2]
      decide
    · exact absurd ((freshSeed_block hn hx hes).1.trans (freshSeed_block hn hy hfs).1.symm) hxy
  cached := by
    refine ⟨by decide, by decide, by decide, rfl, ⟨rfl, rfl⟩, fun a ha => ⟨[], ?_⟩⟩
    exact ⟨rfl, List.forall_mem_nil _, List.nodup_nil, List.not_mem_nil⟩
  mirrors := by
    refine ⟨rfl, freshSeed_typed, fun _ _ _ => imageTree_below (L := smallGeometry)
      Ext2.smallGeometry_plain smallGeometry_notNull (freshSeed.image_consistent (by decide))
      freshSeed_orderly, fun _ _ => .inl freshSeed_typed, fun _ _ _ => rfl,
      fun a _ _ ss hk c hc => ?_⟩
    have h0 : Kids rootOnly.kernel.vfs a [] := rfl
    rw [Chain.unique hk h0] at hc
    cases hc

/-- `_mkdir` in the root directory. -/
def mkdirCall (path : Text) : NameCall :=
  ⟨0, [slash], [0x2000, 0x3000], fun _ => [], path, .mkdir 0⟩

theorem mkdirX_proper : (mkdirCall [slash, 0x78]).Proper smallGeometry onDev rootOnly := by
  refine fun _ => ⟨⟨⟨by decide, by decide⟩, by decide, by decide⟩, fun n hn => ?_⟩
  have hroot : parentOf rootOnly.image 0xC0200400 [slash] [slash, 0x78] = some 2#32 := by decide
  have hnone : targetOf rootOnly.image 0xC0200400 [slash] [slash, 0x78] = none := by decide
  obtain rfl : 2#32 = n := Option.some.inj (hroot.symm.trans hn)
  refine ⟨fun hne => absurd hnone hne, fun _ => ⟨0, rfl⟩, fun _ => ⟨by decide, ?_⟩⟩
  refine ⟨by decide, by decide, Ext2.freshSeed_proper, Ext2.freshSeed_allowed,
    fun x es hx hne _ => ?_⟩
  obtain ⟨-, -, rfl⟩ := freshSeed.image_holds freshSeed_typed.1.1 hx
  exact absurd (by decide) hne

theorem names_stay_unique_mkdir : Sound smallGeometry onDev rootOnly ∧
    ∃ tr, run (nameStep 0xC0200400) rootOnly [mkdirCall [slash, 0x78]] = some tr ∧
      tr.map (·.output) = [0] ∧ ∀ x ∈ tr, NamesUnique smallGeometry x.post := by
  refine ⟨rootOnly_sound, run_test (fun tr => tr.map (·.output) = [0]) (by decide +kernel)
    fun tr hr ho => ⟨ho, names_stay_unique (L := smallGeometry) Ext2.smallGeometry_plain
      smallGeometry_notNull rootOnly_sound hr fun x hx => ?_⟩⟩
  obtain ⟨o, t, rest, -, hrest, rfl⟩ := run_cons hr
  rw [run_nil hrest, List.mem_singleton] at hx
  rw [hx]
  exact mkdirX_proper

/-- `_mkdir("/x/")` finds no file "x", goes to the directory "/" and creates the name "". -/
theorem mkdir_empty_name : Sound smallGeometry onDev rootOnly ∧
    ∃ x, run (nameStep 0xC0200400) rootOnly [mkdirCall [slash, 0x78, slash]] = some [x] ∧
      x.output = 0 ∧ (imageTree x.post.image 0xC0200400).child 2#32 [] = some 3#32 ∧
      ¬NamesUnique smallGeometry x.post := by
  have h : (run (nameStep 0xC0200400) rootOnly [mkdirCall [slash, 0x78, slash]]).map
      (fun tr => tr.map fun x => decide (x.output = 0 ∧
        (imageTree x.post.image 0xC0200400).child 2#32 [] = some 3#32 ∧
        0x1000 ∈ x.post.kernel.vfs.inodeBlocks ∧
        (x.post.kernel.vfs.inodes 0x1000).children = 0x2000 ∧
        (x.post.kernel.vfs.inodes 0x2000).name = [])) = some [true] := by decide +kernel
  obtain ⟨tr, hr, ho⟩ := Option.map_eq_some_iff.mp h
  obtain ⟨o, t, rest, -, hrest, rfl⟩ := run_cons hr
  rw [run_nil hrest] at hr ho
  obtain ⟨ho, hs, hb, hc, hn⟩ := of_decide_eq_true (List.cons.inj ho).1
  refine ⟨rootOnly_sound, _, hr, ho, hs, fun hu => ?_⟩
  obtain ⟨ss, hk, -, hne⟩ := hu.cache 0x1000 hb
  unfold Kids at hk
  rw [hc] at hk
  cases ss with
  | nil =>
    have h0 : (0x2000 : Word) = 0 := hk
    exact absurd h0 (by decide)
  | cons a ss =>
    obtain ⟨rfl, -⟩ := hk
    exact hne (List.mem_map.mpr ⟨_, .head _, hn⟩)

end TapiOS.Task
