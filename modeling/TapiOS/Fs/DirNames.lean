import TapiOS.Fs.Ext2Isolation

/-!
# The names in the directories of an image

A directory lists its entries in its data blocks; ext2_search and do_insert look at the
first one only. Creating an inode whose name is not in the directory appends one entry to
that block, and a new directory lists itself under '.' and '..'. So the names of every
directory stay different.
-/
namespace TapiOS.Fs.Ext2

open Util
open BitVec (ofNat)

variable {x q : Nat} {es : List DirEntry}

/-- The inode is a directory in use. -/
def IsDirectory (L : Layout) (m : Mem) (n : Nat) : Prop :=
  L.Live m n ∧ m.half (L.recordAddr n) &&& 0xF000#16 = 0x4000#16

/-- The entries of a data block. -/
def BlockEntries (L : Layout) (m : Mem) (x : Nat) (es : List DirEntry) : Prop :=
  Entries m (L.blockAddr x) 0 L.blockSize es

/-- The names of the entries that are in use. -/
def usedNames (es : List DirEntry) : List Text :=
  (es.filter fun e => decide (e.inode ≠ 0#32)).map (·.name)

/-- In every directory, over all of its blocks, the names are not empty and pairwise
different. -/
structure UniqueNames (L : Layout) (m : Mem) : Prop where
  within : ∀ n x es, IsDirectory L m n → L.Holds m n 0 x → BlockEntries L m x es →
    (usedNames es).Nodup ∧ [] ∉ usedNames es
  across : ∀ n x y es fs, IsDirectory L m n → L.Holds m n 0 x → L.Holds m n 0 y → x ≠ y →
    BlockEntries L m x es → BlockEntries L m y fs → ∀ name ∈ usedNames es, name ∉ usedNames fs

/-- An inode in use that ISDIR takes for a directory only if it is one. -/
def Typed (L : Layout) (m : Mem) (n : Nat) : Prop :=
  L.Live m n ∧ (isDir m (L.recordAddr n) → IsDirectory L m n)

/-- Directories as the kernel reads them: each has a first block, its blocks are tiled by
entries, and the entries of the first block lead to files and directories in use. -/
structure Orderly (L : Layout) (m : Mem) : Prop where
  first : ∀ n, IsDirectory L m n → entry m (inodeBlocks (L.recordAddr n)) 0 ≠ 0#32
  blocks : ∀ n x, IsDirectory L m n → L.Holds m n 0 x → ∃ es, BlockEntries L m x es
  entries : ∀ n es, IsDirectory L m n → BlockEntries L m (firstBlock L m n) es →
    ∀ e ∈ es, Typed L m e.inode.toNat

/-- No data block contains the address NULL. -/
def NotNull (L : Layout) : Prop := ∀ x, L.HasZone (.data x) → 0#32 ∉ L.zone (.data x)

/-- A directory whose only block lists it under '.' and '..'. -/
structure NewDirectory (L : Layout) (m : Mem) (n : Nat) : Prop where
  directory : IsDirectory L m n
  first : entry m (inodeBlocks (L.recordAddr n)) 0 ≠ 0#32
  one : ∀ l x, L.Holds m n l x → x = firstBlock L m n
  entries : BlockEntries L m (firstBlock L m n)
    [⟨ofNat 32 n, [dot]⟩, ⟨ofNat 32 n, [dot, dot]⟩]

/-- Inode `n` is new and has the name `name` in directory `p`. -/
structure Grows (L : Layout) (m m' : Mem) (p n : Nat) (name : Text) : Prop where
  consistent : Consistent L m'
  dead : ¬L.Live m n
  live : ∀ q, L.Live m' q ↔ L.Live m q ∨ q = n
  record : ∀ q, L.Live m q → Set.EqOn m' m (L.zone (.record q))
  holds : ∀ q l x, L.Live m q → (L.Holds m' q l x ↔ L.Holds m q l x)
  kept : ∀ q x, L.Live m q → L.Holds m q 0 x → x ≠ firstBlock L m p →
    Set.EqOn m' m (L.zone (.data x))
  named : ∀ es, BlockEntries L m (firstBlock L m p) es →
    BlockEntries L m' (firstBlock L m p) (es ++ [⟨ofNat 32 n, name⟩])
  kind : isDir m' (L.recordAddr n) = false ∨ NewDirectory L m' n

section Read
variable {L : Geometry} {m m' : Mem} {n : Nat} (hp : Plain L)

theorem IsDirectory.isDir (h : IsDirectory L m n) : Ext2.isDir m (L.recordAddr n) := by
  have hk : ∀ k : BitVec 16, k &&& 0xF000#16 = 0x4000#16 → (k &&& 0x4000#16 != 0#16) := by
    intro k hk
    have hand : k &&& 0x4000#16 = k &&& 0xF000#16 &&& 0x4000#16 := by
      rw [BitVec.and_assoc]
      rfl
    rw [hand, hk]
    decide
  exact hk _ h.2

theorem IsDirectory.holds (h : IsDirectory L m n) (ho : Orderly L m) :
    L.Holds m n 0 (firstBlock L m n) := by
  refine ⟨?_, 0, by decide, ho.first n h, rfl, rfl⟩
  rw [hasBlocks, h.2]
  decide

theorem BlockEntries.unique {fs : List DirEntry} (h : BlockEntries L m x es)
    (h' : BlockEntries L m x fs) : es = fs := Entries.unique h h'

include hp

theorem BlockEntries.congr (h : BlockEntries L m x es) (he : Set.EqOn m' m (L.zone (.data x))) :
    BlockEntries L m' x es := by
  have hbs := hp.blockSize
  exact Entries.congr_block h (by omega) he

theorem record_head {n : Nat} (h : Set.EqOn m' m (L.zone (.record n))) :
    m'.half (L.recordAddr n) = m.half (L.recordAddr n) :=
  half_of_eqOn h (hp.start_subset rfl (by simp [Layout.zoneSize]))

theorem firstBlock_congr {n : Nat} (h : Set.EqOn m' m (L.zone (.record n))) :
    firstBlock L m' n = firstBlock L m n := by
  rw [firstBlock, (hp.record_fields h).2 0 (by decide), firstBlock]

variable (hd : Describes L m)
include hd

/-- ext2_search does not look into files. -/
theorem search_file (hn : L.IsInode n) (hk : isDir m (L.recordAddr n) = false) (name : Text) :
    ext2Search m L.sb (ofNat 32 n) name = .ok none := by
  simp [ext2Search, hd.readInode_eq hp hn, hk]

theorem search_directory (hnull : NotNull L) (hn : IsDirectory L m n)
    (hz : L.HasZone (.data (firstBlock L m n))) (hes : BlockEntries L m (firstBlock L m n) es)
    (name : Text) :
    ext2Search m L.sb (ofNat 32 n) name = .ok (es.find? fun e => decide (e.name = name)) := by
  have hsize := hd.blockSize_toNat hp
  have hblock : getBlock m L.sb (entry m (inodeBlocks (L.recordAddr n)) 0) =
      L.blockAddr (firstBlock L m n) := by
    rw [← hd.getBlock_eq, firstBlock, BitVec.ofNat_toNat, BitVec.setWidth_eq]
  have hes' : Entries m (L.blockAddr (firstBlock L m n)) 0 (BLOCKSIZE m L.sb).toNat es := by
    rw [hsize]
    exact hes
  have hlen := hes'.length_le
  have hsearch := hes'.search (by rw [hsize]; exact hnull _ hz) name
    (n := (BLOCKSIZE m L.sb).toNat + 1) (by omega)
  rw [BitVec.add_zero] at hsearch
  simp only [ext2Search, hd.readInode_eq hp hn.1.1, hn.isDir, hblock, hsearch]
  rfl

end Read

/-- A name in a file or directory leads to one. -/
theorem Typed.search {L : Geometry} {m : Mem} {n : Nat} {name : Text} {e : DirEntry}
    (h : Typed L m n) (hp : Plain L) (hnull : NotNull L) (hc : Consistent L m) (ho : Orderly L m)
    (hs : ext2Search m L.sb (ofNat 32 n) name = .ok (some e)) : Typed L m e.inode.toNat := by
  by_cases hk : isDir m (L.recordAddr n)
  · have hdir := h.2 hk
    obtain ⟨es, hes⟩ := ho.blocks n _ hdir (hdir.holds ho)
    rw [search_directory hp hc.describes hnull hdir (hc.held_zone h.1 (hdir.holds ho)).1 hes] at hs
    exact ho.entries n es hdir hes e (List.mem_of_find?_eq_some (Except.ok.inj hs))
  · rw [Bool.not_eq_true] at hk
    rw [search_file hp hc.describes h.1.1 hk] at hs
    cases Except.ok.inj hs

theorem usedNames_append (es : List DirEntry) {n : Word} (hn : n ≠ 0#32) (name : Text) :
    usedNames (es ++ [⟨n, name⟩]) = usedNames es ++ [name] := by
  simp [usedNames, hn]

section Grow
variable {L : Geometry} {m m' : Mem} {p n : Nat} {name : Text}
  (hg : Grows L m m' p n name) (hp : Plain L)
include hg

theorem Grows.ofNat_toNat : (ofNat 32 n).toNat = n := by
  have h := ((hg.live n).mpr (.inr rfl)).1.2
  have hfit := L.inodes_fit
  rw [toNat_ofNat_of_lt (by omega)]

theorem Grows.ofNat_ne_zero : ofNat 32 n ≠ 0#32 := by
  intro h0
  have h := ((hg.live n).mpr (.inr rfl)).1.1
  have he := congrArg BitVec.toNat h0
  rw [hg.ofNat_toNat] at he
  exact absurd he (by simp; omega)

theorem Grows.typed_new : Typed L m' n := by
  refine ⟨(hg.live n).mpr (.inr rfl), fun hk => ?_⟩
  exact (hg.kind.resolve_left (by rw [hk]; decide)).directory

include hp

theorem Grows.directory_iff (hq : L.Live m q) : IsDirectory L m' q ↔ IsDirectory L m q := by
  unfold IsDirectory
  rw [record_head hp (hg.record q hq), hg.live q]
  simp [hq]

theorem Grows.typed (hq : Typed L m q) : Typed L m' q := by
  refine ⟨(hg.live q).mpr (.inl hq.1), fun hk => (hg.directory_iff hp hq.1).mpr (hq.2 ?_)⟩
  rwa [isDir, record_head hp (hg.record q hq.1)] at hk

theorem Grows.directory_cases (hq : IsDirectory L m' q) :
    IsDirectory L m q ∨ q = n ∧ NewDirectory L m' n := by
  rcases (hg.live q).mp hq.1 with h | rfl
  · exact .inl ((hg.directory_iff hp h).mp hq)
  · exact .inr ⟨rfl, hg.kind.resolve_left (by rw [hq.isDir]; decide)⟩

variable (hc : Consistent L m) (ho : Orderly L m)
  (hdir : IsDirectory L m p)
include hc ho hdir

/-- The block of the directory has one more entry, all others are as before. -/
theorem Grows.block_cases {es' : List DirEntry} (hq : IsDirectory L m q) (hx : L.Holds m q 0 x)
    (hes' : BlockEntries L m' x es') :
    ∃ es, BlockEntries L m x es ∧ (x ≠ firstBlock L m p ∧ es' = es ∨
      q = p ∧ x = firstBlock L m p ∧ es' = es ++ [⟨ofNat 32 n, name⟩]) := by
  obtain ⟨es, hes⟩ := ho.blocks q x hq hx
  refine ⟨es, hes, ?_⟩
  by_cases hxd : x = firstBlock L m p
  · subst hxd
    exact .inr ⟨(hc.one_owner q 0 p 0 _ hq.1 hdir.1 hx (hdir.holds ho)).1, rfl,
      hes'.unique (hg.named es hes)⟩
  · exact .inl ⟨hxd, hes'.unique (hes.congr hp (hg.kept q x hq.1 hx hxd))⟩

theorem Grows.orderly : Orderly L m' where
  first q hq := by
    rcases hg.directory_cases hp hq with h | ⟨rfl, hnew⟩
    · rw [(hp.record_fields (hg.record q h.1)).2 0 (by decide)]
      exact ho.first q h
    · exact hnew.first
  blocks q x hq hx := by
    rcases hg.directory_cases hp hq with h | ⟨rfl, hnew⟩
    · have hx' := (hg.holds q 0 x h.1).mp hx
      obtain ⟨es, hes⟩ := ho.blocks q x h hx'
      by_cases hxd : x = firstBlock L m p
      · subst hxd
        exact ⟨_, hg.named es hes⟩
      · exact ⟨es, hes.congr hp (hg.kept q x h.1 hx' hxd)⟩
    · rw [hnew.one 0 x hx]
      exact ⟨_, hnew.entries⟩
  entries q es' hq hes' e he := by
    rcases hg.directory_cases hp hq with h | ⟨rfl, hnew⟩
    · rw [firstBlock_congr hp (hg.record q h.1)] at hes'
      obtain ⟨es, hes, ⟨-, rfl⟩ | ⟨rfl, -, rfl⟩⟩ := hg.block_cases hp hc ho hdir h (h.holds ho) hes'
      · exact hg.typed hp (ho.entries q es' h hes e he)
      · rcases List.mem_append.mp he with he | he
        · exact hg.typed hp (ho.entries q es h hes e he)
        · rw [List.mem_singleton.mp he, hg.ofNat_toNat]
          exact hg.typed_new
    · rw [hes'.unique hnew.entries] at he
      simp only [List.mem_cons, List.not_mem_nil, or_false] at he
      rcases he with rfl | rfl
      · rw [hg.ofNat_toNat]
        exact hg.typed_new
      · rw [hg.ofNat_toNat]
        exact hg.typed_new

/-- A name that the directory does not have keeps its names different. -/
theorem Grows.unique (hu : UniqueNames L m) (hname : name ≠ [])
    (hfree : ∀ x es, L.Holds m p 0 x → BlockEntries L m x es → name ∉ usedNames es) :
    UniqueNames L m' where
  within q x es' hq hx hes' := by
    rcases hg.directory_cases hp hq with h | ⟨rfl, hnew⟩
    · have hx' := (hg.holds q 0 x h.1).mp hx
      obtain ⟨es, hes, ⟨-, rfl⟩ | ⟨rfl, -, rfl⟩⟩ := hg.block_cases hp hc ho hdir h hx' hes'
      · exact hu.within q x es' h hx' hes
      · obtain ⟨hnd, hne⟩ := hu.within q x es h hx' hes
        have hnew := hfree x es hx' hes
        rw [usedNames_append es hg.ofNat_ne_zero, List.nodup_append, List.mem_append, not_or,
          List.mem_singleton]
        refine ⟨⟨hnd, List.nodup_singleton _, fun a ha b hb hab => ?_⟩, hne, hname.symm⟩
        rw [List.mem_singleton.mp hb] at hab
        exact hnew (hab ▸ ha)
    · rw [hnew.one 0 x hx] at hes'
      rw [hes'.unique hnew.entries, ← List.singleton_append,
        usedNames_append [⟨ofNat 32 q, [dot]⟩] hg.ofNat_ne_zero, ← List.nil_append [_],
        usedNames_append [] hg.ofNat_ne_zero]
      decide
  across q x y es' fs' hq hx hy hxy hes' hfs' := by
    rcases hg.directory_cases hp hq with h | ⟨rfl, hnew⟩
    · have hx' := (hg.holds q 0 x h.1).mp hx
      have hy' := (hg.holds q 0 y h.1).mp hy
      obtain ⟨es, hes, hcx⟩ := hg.block_cases hp hc ho hdir h hx' hes'
      obtain ⟨fs, hfs, hcy⟩ := hg.block_cases hp hc ho hdir h hy' hfs'
      have hdis := hu.across q x y es fs h hx' hy' hxy hes hfs
      -- at most one of the two blocks is the one that got the entry
      rcases hcx with ⟨hxd, rfl⟩ | ⟨rfl, hxd, rfl⟩
      · rcases hcy with ⟨-, rfl⟩ | ⟨rfl, -, rfl⟩
        · exact hdis
        · intro a ha
          rw [usedNames_append fs hg.ofNat_ne_zero, List.mem_append, not_or, List.mem_singleton]
          exact ⟨hdis a ha, fun he => hfree x es' hx' hes (he ▸ ha)⟩
      · rcases hcy with ⟨-, rfl⟩ | ⟨-, hyd, -⟩
        · intro a ha
          rw [usedNames_append es hg.ofNat_ne_zero, List.mem_append, List.mem_singleton] at ha
          rcases ha with ha | rfl
          · exact hdis a ha
          · exact hfree y fs' hy' hfs
        · exact absurd (hxd.trans hyd.symm) hxy
    · exact absurd ((hnew.one 0 x hx).trans (hnew.one 0 y hy).symm) hxy

variable (hnull : NotNull L)
include hnull

theorem Grows.search_other {name' : Text} (hq : Typed L m q) (hne : q ≠ p ∨ name' ≠ name) :
    ext2Search m' L.sb (ofNat 32 q) name' =
      ext2Search m L.sb (ofNat 32 q) name' := by
  have hd := hc.describes
  have hd' := hg.consistent.describes
  have hrec := hg.record q hq.1
  by_cases hk : isDir m (L.recordAddr q)
  · have h := hq.2 hk
    have h' := (hg.directory_iff hp hq.1).mpr h
    have hz := (hc.held_zone hq.1 (h.holds ho)).1
    obtain ⟨es', hes'⟩ := (hg.orderly hp hc ho hdir).blocks q _ h'
      (h'.holds (hg.orderly hp hc ho hdir))
    have hfirst := firstBlock_congr hp hrec
    rw [search_directory hp hd' hnull h' (hfirst ▸ hz) hes']
    rw [hfirst] at hes'
    obtain ⟨es, hes, hcase⟩ := hg.block_cases hp hc ho hdir h (h.holds ho) hes'
    rw [search_directory hp hd hnull h hz hes]
    rcases hcase with ⟨-, rfl⟩ | ⟨rfl, -, rfl⟩
    · rfl
    · have hn : name ≠ name' := (hne.resolve_left fun hqp => hqp rfl).symm
      rw [List.find?_append]
      simp [hn]
  · rw [Bool.not_eq_true] at hk
    have hk' : isDir m' (L.recordAddr q) = false := by
      rw [isDir, record_head hp hrec]
      exact hk
    rw [search_file hp hd' hq.1.1 hk', search_file hp hd hq.1.1 hk]

theorem Grows.search_new (hno : ext2Search m L.sb (ofNat 32 p) name = .ok none) :
    ext2Search m' L.sb (ofNat 32 p) name = .ok (some ⟨ofNat 32 n, name⟩) := by
  have h' := (hg.directory_iff hp hdir.1).mpr hdir
  have hz := (hc.held_zone hdir.1 (hdir.holds ho)).1
  have hfirst := firstBlock_congr hp (hg.record p hdir.1)
  obtain ⟨es, hes⟩ := ho.blocks p _ hdir (hdir.holds ho)
  rw [search_directory hp hc.describes hnull hdir hz hes] at hno
  have hes' := hg.named es hes
  rw [← hfirst] at hes'
  rw [search_directory hp hg.consistent.describes hnull h' (hfirst ▸ hz) hes', List.find?_append,
    Except.ok.inj hno]
  simp

end Grow

section Create
variable {L : Geometry} {m m₁ m' : Mem} {p n b : Nat} {name : Text} {flags : Word}
  (hc : Consistent L m) (hp : Plain L) (hnull : NotNull L)
include hc hp hnull

theorem Creates.grows (hcr : Creates L m m' n (firstBlock L m p))
    (hins : Inserted L m m' n (firstBlock L m p) name flags)
    (hz : L.HasZone (.data (firstBlock L m p))) (hlen : name.length ≤ 255)
    (hk : isDir m' (L.recordAddr n) = false) :
    Grows L m m' p n name where
  consistent := hcr.consistent hc hp
  dead := (hcr.inode hc).2.2.2
  live := hcr.live_iff hc hp
  record q hq := hcr.record_kept hc hp hq
  holds q l x hq := hcr.holds_iff hc hp hq
  kept q x hq hx hne := hcr.keeps hc hp (hc.held_zone hq hx).1 (by simp [hne])
  named es hes := hins.entries es (hnull _ hz) hlen hes
  kind := .inl hk

theorem Attaches.grows (h2 : L.blockSize = 2048) (hcr : Creates L m m₁ n (firstBlock L m p))
    (hins : Inserted L m m₁ n (firstBlock L m p) name flags) (hat : Attaches L m₁ m' n b)
    (hfill : Filled L m₁ m' n b) (hl : L.Live m p) (hd : L.Holds m p 0 (firstBlock L m p))
    (hlen : name.length ≤ 255) (hflags : flags.setWidth 16 = 0x4000#16) :
    Grows L m m' p n name := by
  have hc₁ := hcr.consistent hc hp
  have hdead := (hcr.inode hc).2.2.2
  have hlive : ∀ q, L.Live m q → L.Live m₁ q := fun q hq => (hcr.live_iff hc hp q).mpr (.inl hq)
  have hsame : ∀ q, L.Live m q → SameFile L m₁ m' q := fun q hq =>
    hat.sameFile hc₁ hp h2 (hlive q hq) fun he => hdead (he ▸ hq)
  have hheld : ∀ q l x, L.Live m q → L.Holds m q l x → Set.EqOn m' m₁ (L.zone (.data x)) :=
    fun q l x hq hx => hat.held_kept hc₁ hp h2 (hlive q hq) ((hcr.holds_iff hc hp hq).mpr hx)
  have hzone := (hc₁.clear_bit h2 hat.lt hat.free).2.1
  have hb0 : b ≠ 0 := fun he => hzone.2 ⟨.system 0, by simp only [Layout.HasRole]; omega, he.symm⟩
  have hfit := L.blocks_fit
  have hb : (ofNat 32 b).toNat = b := by
    have hlt := hzone.1
    rw [h2] at hfit
    rw [toNat_ofNat_of_lt (by omega)]
  have hfirst : firstBlock L m' n = b := by rw [firstBlock, hat.first, hb]
  refine ⟨hat.consistent hc₁ hp h2, hdead, fun q => ?_, fun q hq => ?_, fun q l x hq => ?_,
    fun q x hq hx hne => ?_, fun es hes => ?_, .inr ⟨⟨?_, ?_⟩, ?_, fun l x hx => ?_, ?_⟩⟩
  · rw [hat.live_iff hc₁ hp h2]
    exact hcr.live_iff hc hp q
  · exact (hsame q hq).record.trans (hcr.record_kept hc hp hq)
  · rw [hp.holds_of_sameFile (hsame q hq)]
    exact hcr.holds_iff hc hp hq
  · exact (hheld q 0 x hq hx).trans (hcr.keeps hc hp (hc.held_zone hq hx).1 (by simp [hne]))
  · have hes₁ := hins.entries es (hnull _ (hc.held_zone hl hd).1) hlen hes
    exact BlockEntries.congr hp hes₁ (hheld p 0 _ hl hd)
  · rw [hat.live_iff hc₁ hp h2]
    exact (hcr.live_iff hc hp n).mpr (.inr rfl)
  · rw [hfill.kind, hins.kind, hflags]
    decide
  · rw [hat.first]
    intro h0
    rw [h0] at hb
    exact hb0 hb.symm
  · rw [hfirst]
    rcases hat.holds_cases hc₁ hp h2 ((hcr.live_iff hc hp n).mpr (.inr rfl)) hx with h | h
    · exact absurd h (hcr.holds_none l x)
    · exact h.2.2
  · rw [hfirst]
    exact hfill.entries

theorem ext2NewInode_grows {dir : Word} {path : Text} {r : NewInode} {i : Int}
    (hv : (Call.newInode dir path flags).Proper L m)
    (ha : (Call.newInode dir path flags).Allowed L m) (hlen : (basename path).length ≤ 255)
    (hflags : flags = 0x8000#32 ∨ flags = 0x4000#32)
    (h : ext2NewInode m L.sb dir path flags = .ok (r, m')) (hr : r.inodeNo = some i) :
    ∃ n : Nat, i = (n : Int) ∧ Grows L m m' dir.toNat n (basename path) := by
  have hholds := (Call.Allowed.nameFits hv ha).holds
  have hz := (hc.held_zone hv.1 hholds).1
  obtain ⟨n, m₁, hcr, hins, hcases⟩ := newInode_cases hc hp hv ha h
  rcases hcases with ⟨-, rfl, ⟨hfile, hno⟩ | hno⟩ | ⟨h2, hdir, b, -, hno, hat, hfill⟩
  · refine ⟨n, Option.some.inj (hr.symm.trans hno), hcr.grows hc hp hnull hins hz hlen ?_⟩
    rcases hflags with rfl | rfl
    · rw [isDir, hins.kind]
      decide
    · exact absurd hfile (by decide)
  · exact absurd (hr.symm.trans hno) (by simp)
  · refine ⟨n, Option.some.inj (hr.symm.trans hno), ?_⟩
    rcases hflags with rfl | rfl
    · exact absurd (by decide) hdir
    · exact hat.grows hc hp hnull h2 hcr hins hfill hv.1 hholds hlen rfl

end Create

end TapiOS.Fs.Ext2
