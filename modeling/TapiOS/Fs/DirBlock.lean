import TapiOS.Fs.Directory

/-!
# The entries of a directory block

ext2_search walks over the entries of a block, advance_to_last to the last one. `Entries`
says which entries a block holds: they tile it, and each is at least as large as
calculate_dir_size wants. Inserting a name that fits appends one entry to the list.
-/
namespace TapiOS.Fs.Ext2

open Util
open BitVec (ofNat)

variable {d sb : Word} {n : Nat}

structure DirEntry where
  inode : Word
  name : Text
  deriving DecidableEq, Repr

variable {e : DirEntry}

def nameLength (m : Mem) (d : Word) : Nat := (m (d + 6#32)).toNat

def entryName (m : Mem) (d : Word) : Text := bytesAt m (d + 8#32) (nameLength m d)

def dirEntry (m : Mem) (d : Word) : DirEntry := ⟨m.word d, entryName m d⟩

/-- The loop of ext2_search: the first entry with the name; `none` when the walk stands
still. -/
def searchLoop (m : Mem) (base size : Word) (name : Text) : Nat → Word → Option (Option DirEntry)
  | 0, _ => none
  | n + 1, d =>
    if insideDir d base size then
      if name.length = nameLength m d ∧ entryName m d = name then some (some (dirEntry m d))
      else searchLoop m base size name n (advance m d)
    else some none

/-- ext2_search: the entry that the new struct inode is filled from. -/
def ext2Search (m : Mem) (sb inodeNo : Word) (name : Text) : Except Stop (Option DirEntry) :=
  match readInode m sb inodeNo with
  | .error e => .error e
  | .ok inode =>
    if !isDir m inode then .ok none
    else
      let bdir := getBlock m sb (entry m (inodeBlocks inode) 0)
      match searchLoop m bdir (BLOCKSIZE m sb) name ((BLOCKSIZE m sb).toNat + 1) bdir with
      | none => .error .endless
      | some found => .ok found

/-- The entries between two offsets of the block at `base`. -/
inductive Entries (m : Mem) (base : Word) : Nat → Nat → List DirEntry → Prop where
  | nil (o : Nat) : Entries m base o o []
  | cons {o hi : Nat} {d : Word} {es : List DirEntry} (hd : d = base + ofNat 32 o)
      (hmin : (calculateDirSize m d).toNat ≤ (entrySize m d).toNat)
      (h4 : 4 ∣ (entrySize m d).toNat)
      (hrest : Entries m base (o + (entrySize m d).toNat) hi es) :
      Entries m base o hi (dirEntry m d :: es)

/-- The same for entries of any size but zero, whatever their names take. -/
inductive Tiles (m : Mem) (base : Word) : Nat → Nat → List DirEntry → Prop where
  | nil (o : Nat) : Tiles m base o o []
  | cons {o hi : Nat} {d : Word} {es : List DirEntry} (hd : d = base + ofNat 32 o)
      (hpos : 0 < (entrySize m d).toNat)
      (hrest : Tiles m base (o + (entrySize m d).toNat) hi es) :
      Tiles m base o hi (dirEntry m d :: es)

theorem calculateDirSize_bounds (m : Mem) (d : Word) :
    8 + nameLength m d ≤ (calculateDirSize m d).toNat ∧ 12 ≤ (calculateDirSize m d).toNat ∧
      (calculateDirSize m d).toNat ≤ max 12 (nameLength m d + 11) ∧
      4 ∣ (calculateDirSize m d).toNat := by
  unfold calculateDirSize nameLength
  generalize m (d + 6#32) = length
  revert length
  decide

section Entries
variable {m m' : Mem} {base : Word} {lo mid hi : Nat} {es fs : List DirEntry}

theorem Entries.length_le (h : Entries m base lo hi es) : lo + 12 * es.length ≤ hi := by
  induction h with
  | nil o => simp
  | @cons o hi d es hd hmin h4 hrest ih =>
    have hb := (calculateDirSize_bounds m d).2.1
    rw [List.length_cons]
    omega

theorem Entries.tiles (h : Entries m base lo hi es) : Tiles m base lo hi es := by
  induction h with
  | nil o => exact .nil o
  | @cons o hi d es hd hmin h4 hrest ih =>
    have hb := (calculateDirSize_bounds m d).2.1
    exact .cons hd (by omega) ih

theorem Tiles.length_le (h : Tiles m base lo hi es) : lo + es.length ≤ hi := by
  induction h with
  | nil o => exact Nat.le_refl _
  | cons hd hpos hrest ih =>
    rw [List.length_cons]
    omega

theorem Tiles.append (h : Tiles m base lo mid es) (h' : Tiles m base mid hi fs) :
    Tiles m base lo hi (es ++ fs) := by
  induction h with
  | nil o => exact h'
  | cons hd hpos hrest ih => exact .cons hd hpos (ih h')

theorem Entries.ne_nil (h : Entries m base lo hi es) (hlt : lo < hi) : es ≠ [] := by
  cases h with
  | nil => exact absurd hlt (Nat.lt_irrefl lo)
  | cons => exact List.cons_ne_nil _ _

theorem Entries.append (h : Entries m base lo mid es) (h' : Entries m base mid hi fs) :
    Entries m base lo hi (es ++ fs) := by
  induction h with
  | nil o => exact h'
  | cons hd hmin h4 hrest ih => exact .cons hd hmin h4 (ih h')

theorem Entries.split (h : Entries m base lo hi (es ++ fs)) :
    ∃ mid, Entries m base lo mid es ∧ Entries m base mid hi fs := by
  induction es generalizing lo with
  | nil => exact ⟨lo, .nil lo, h⟩
  | cons e es ih =>
    cases h with
    | cons hd hmin h4 hrest =>
      obtain ⟨mid, h1, h2⟩ := ih hrest
      exact ⟨mid, .cons hd hmin h4 h1, h2⟩

/-- The list is read off the bytes. -/
theorem Entries.unique (h : Entries m base lo hi es) (h' : Entries m base lo hi fs) : es = fs := by
  induction h generalizing fs with
  | nil o =>
    have hlen := h'.length_le
    exact (List.eq_nil_of_length_eq_zero (by omega)).symm
  | @cons o hi d es hd hmin h4 hrest ih =>
    cases h' with
    | nil =>
      have hlen := hrest.length_le
      have hb := (calculateDirSize_bounds m d).2.1
      omega
    | cons hd' _ _ hrest' =>
      subst hd hd'
      rw [ih hrest']

theorem Entries.single (h : Entries m base lo hi [e]) :
    ∃ d, d = base + ofNat 32 lo ∧ e = dirEntry m d ∧ hi = lo + (entrySize m d).toNat ∧
      (calculateDirSize m d).toNat ≤ (entrySize m d).toNat ∧ 4 ∣ (entrySize m d).toNat := by
  cases h with
  | cons hd hmin h4 hrest =>
    cases hrest
    exact ⟨_, hd, rfl, rfl, hmin, h4⟩

theorem dirEntry_congr (h : Set.EqOn m' m (span d (8 + nameLength m d))) :
    dirEntry m' d = dirEntry m d ∧ entrySize m' d = entrySize m d ∧
      calculateDirSize m' d = calculateDirSize m d := by
  have hlt : nameLength m d < 256 := (m (d + 6#32)).isLt
  have hpart : ∀ o n, o + n ≤ 8 + nameLength m d →
      span (d + ofNat 32 o) n ⊆ span d (8 + nameLength m d) :=
    fun o n hn => span_add_subset d hn (by omega)
  have h0 := hpart 0 4 (by omega)
  rw [BitVec.add_zero] at h0
  have h6 : m' (d + 6#32) = m (d + 6#32) := h (add_mem_span (i := 6) d (by omega) (by omega))
  have hlen : nameLength m' d = nameLength m d := by rw [nameLength, h6, nameLength]
  refine ⟨?_, half_of_eqOn h (hpart 4 2 (by omega)), by rw [calculateDirSize, h6, calculateDirSize]⟩
  rw [dirEntry, word_of_eqOn h h0, entryName, hlen]
  refine congrArg (DirEntry.mk _) (bytesAt_congr fun i hi => ?_)
  rw [show d + 8#32 + ofNat 32 i = d + ofNat 32 (8 + i) from add_ofNat_add d 8 i]
  exact h (add_mem_span d (by omega) (by omega))

theorem Entries.congr (h : Entries m base lo hi es) (hhi : hi < 2 ^ 32)
    (he : Set.EqOn m' m (span (base + ofNat 32 lo) (hi - lo))) :
    Entries m' base lo hi es := by
  induction h with
  | nil o => exact .nil o
  | @cons o hi d es hd hmin h4 hrest ih =>
    have hlen := hrest.length_le
    obtain ⟨hb, -, -, -⟩ := calculateDirSize_bounds m d
    have hsub : span d (8 + nameLength m d) ⊆ span (base + ofNat 32 o) (hi - o) := by
      rw [hd]
      exact span_subset base (Nat.le_refl o) (by rw [← hd]; omega) (by omega)
    obtain ⟨hent, hsize, hcalc⟩ := dirEntry_congr (he.mono hsub)
    rw [← hent]
    refine .cons hd (by rwa [hcalc, hsize]) (by rwa [hsize]) ?_
    rw [hsize]
    refine ih hhi (he.mono (span_subset base (by omega) (by omega) (by omega)))

theorem Entries.congr_block (h : Entries m base 0 hi es) (hhi : hi < 2 ^ 32)
    (he : Set.EqOn m' m (span base hi)) : Entries m' base 0 hi es := by
  refine h.congr hhi ?_
  rwa [BitVec.add_zero, Nat.sub_zero]

end Entries

section Walk
variable {m : Mem} {base size : Word} {lo : Nat} {es : List DirEntry}

variable (hnull : 0#32 ∉ span base size.toNat)
include hnull

/-- Inside of a block that does not contain NULL. -/
theorem insideDir_iff {o : Nat} (ho : o < 2 ^ 32) :
    insideDir (base + ofNat 32 o) base size ↔ o < size.toNat := by
  have he : base + ofNat 32 o - base = ofNat 32 o := by
    rw [BitVec.add_comm, BitVec.add_sub_cancel]
  rw [insideDir, he, Bool.and_eq_true, bne_iff_ne, decide_eq_true_iff, BitVec.lt_def,
    toNat_ofNat_of_lt ho, and_iff_right_iff_imp]
  intro hlt h0
  have hmem := add_mem_span base hlt size.isLt.le
  rw [h0] at hmem
  exact hnull hmem

omit hnull in
theorem advance_eq {o : Nat} (hd : d = base + ofNat 32 o) :
    advance m d = base + ofNat 32 (o + (entrySize m d).toNat) := by
  have hw : (entrySize m d).setWidth 32 = ofNat 32 (entrySize m d).toNat := by
    apply BitVec.eq_of_toNat_eq
    rw [BitVec.toNat_setWidth, BitVec.toNat_ofNat]
  rw [advance, hw, ← add_ofNat_add, ← hd]

/-- An entry of the list is inside of the block, the end of it is not. -/
theorem Tiles.inside (h : Tiles m base lo size.toNat es) :
    insideDir (base + ofNat 32 lo) base size ↔ es ≠ [] := by
  have hlen := h.length_le
  rw [insideDir_iff hnull (by have := size.isLt; omega)]
  cases h with
  | nil => simp
  | @cons o hi d es hd hpos hrest =>
    rw [List.length_cons] at hlen
    exact ⟨fun _ => List.cons_ne_nil _ _, fun _ => by omega⟩

theorem Entries.inside (h : Entries m base lo size.toNat es) :
    insideDir (base + ofNat 32 lo) base size ↔ es ≠ [] :=
  h.tiles.inside hnull

theorem Tiles.search (h : Tiles m base lo size.toNat es)
    (name : Text) (hn : es.length < n) : searchLoop m base size name n (base + ofNat 32 lo) =
      some (es.find? fun e => decide (e.name = name)) := by
  induction es generalizing lo n with
  | nil =>
    obtain ⟨n, rfl⟩ := Nat.exists_eq_succ_of_ne_zero (by omega : n ≠ 0)
    rw [searchLoop, if_neg (by simp [h.inside hnull])]
    rfl
  | cons e es ih =>
    obtain ⟨n, rfl⟩ := Nat.exists_eq_succ_of_ne_zero (by omega : n ≠ 0)
    rw [searchLoop, if_pos (by simp [h.inside hnull])]
    cases h with
    | @cons _ _ d _ hd hpos hrest =>
      rw [List.length_cons] at hn
      rw [← hd, advance_eq hd, ih hrest (by omega)]
      have hname : (dirEntry m d).name = entryName m d := rfl
      by_cases he : entryName m d = name
      · rw [if_pos ⟨by rw [← he, entryName, bytesAt_length], he⟩]
        simp [hname, he]
      · rw [if_neg fun hh => he hh.2]
        simp [hname, he]

theorem Entries.search (h : Entries m base lo size.toNat es)
    (name : Text) (hn : es.length < n) : searchLoop m base size name n (base + ofNat 32 lo) =
      some (es.find? fun e => decide (e.name = name)) :=
  h.tiles.search hnull name hn

omit hnull in
theorem searchLoop_name {name : Text} (h : searchLoop m base size name n d = some (some e)) :
    e.name = name := by
  induction n generalizing d with
  | zero => cases h
  | succ n ih =>
    unfold searchLoop at h
    split_ifs at h with hin hname
    · cases h
      exact hname.2
    · exact ih h
    · cases h

omit hnull in
theorem ext2Search_name {inodeNo : Word} {name : Text}
    (h : ext2Search m sb inodeNo name = .ok (some e)) : e.name = name := by
  unfold ext2Search at h
  split at h
  · cases h
  · split_ifs at h
    · cases h
    · dsimp only at h
      split at h
      · cases h
      next hs =>
        cases h
        exact searchLoop_name hs

theorem Entries.last {mid : Nat} (h : Entries m base lo mid es)
    (he : Entries m base mid size.toNat [e]) (hn : es.length + 1 < n) (d2 : Word) :
    lastEntry m base size n (base + ofNat 32 lo) d2 = some (base + ofNat 32 mid) := by
  induction es generalizing lo n d2 with
  | nil =>
    obtain ⟨n, rfl⟩ : ∃ k, n = k + 2 := ⟨n - 2, by simp at hn; omega⟩
    cases h
    rw [lastEntry, if_pos (by simp [he.inside hnull])]
    cases he with
    | @cons _ _ d _ hd hmin h4 hrest =>
      rw [← hd, advance_eq hd, lastEntry, if_neg (by simp [hrest.inside hnull])]
  | cons e' es ih =>
    rw [List.length_cons] at hn
    obtain ⟨n, rfl⟩ : ∃ k, n = k + 1 := ⟨n - 1, by omega⟩
    have hall := h.append he
    rw [lastEntry, if_pos (by simp [hall.inside hnull])]
    cases h with
    | @cons _ _ d _ hd hmin h4 hrest =>
      rw [advance_eq rfl, ← hd]
      exact ih hrest (by omega) d

theorem Entries.advanceToLast {mid : Nat} (h : Entries m base 0 mid es)
    (he : Entries m base mid size.toNat [e]) :
    advanceToLast m base size = some (base + ofNat 32 mid) := by
  have hlen := (h.append he).length_le
  rw [List.length_append, List.length_singleton] at hlen
  have hl := h.last hnull he (n := size.toNat + 1) (by omega) base
  rwa [BitVec.add_zero] at hl

theorem Entries.at_last (h : Entries m base 0 size.toNat es) (hne : es ≠ []) :
    ∃ xs x mid d, es = xs ++ [x] ∧ Entries m base 0 mid xs ∧ Entries m base mid size.toNat [x] ∧
      d = base + ofNat 32 mid ∧ Ext2.advanceToLast m base size = some d ∧
      mid + (entrySize m d).toNat = size.toNat ∧
      (calculateDirSize m d).toNat ≤ (entrySize m d).toNat ∧ 4 ∣ (entrySize m d).toNat := by
  obtain ⟨xs, x, rfl⟩ := (List.eq_nil_or_concat' es).resolve_left hne
  obtain ⟨mid, hxs, hx⟩ := h.split
  obtain ⟨d, hd, -, hhi, hmin, h4⟩ := hx.single
  have hlast := hxs.advanceToLast hnull hx
  rw [← hd] at hlast
  exact ⟨xs, x, mid, d, rfl, hxs, hx, hd, hlast, hhi.symm, hmin, h4⟩

end Walk

section Insert
variable {m : Mem} {base : Word} {name : Text}

/-- calculate_dir_size of an entry whose name has this length. -/
def neededSize (length : Byte) : BitVec 16 := calculateDirSize (fun _ => length) 0#32

theorem calculateDirSize_eq (m : Mem) (d : Word) :
    calculateDirSize m d = neededSize (m (d + 6#32)) := rfl

theorem neededSize_bounds (hlen : name.length ≤ 255) :
    8 + name.length ≤ (neededSize (ofNat 8 name.length)).toNat ∧
      12 ≤ (neededSize (ofNat 8 name.length)).toNat ∧
      (neededSize (ofNat 8 name.length)).toNat ≤ max 12 (name.length + 11) ∧
      4 ∣ (neededSize (ofNat 8 name.length)).toNat := by
  have h := calculateDirSize_bounds (fun _ => ofNat 8 name.length) 0#32
  have hn : nameLength (fun _ => ofNat 8 name.length) 0#32 = name.length := by
    rw [nameLength, toNat_ofNat_of_lt (by omega)]
  rw [hn] at h
  exact h

/-- The last entry has the space that calculate_dir_size wants for the new one. -/
def SlackFits (m : Mem) (dir size : Word) (name : Text) : Prop :=
  ∃ d, advanceToLast m dir size = some d ∧
    (calculateDirSize m d).toNat + (neededSize (ofNat 8 name.length)).toNat ≤
      (entrySize m d).toNat

theorem nameBytes_eq (hlen : name.length ≤ 255) : nameBytes name = name ++ [0#8] := by
  rw [nameBytes, Nat.min_eq_left (by omega)]
  exact List.take_of_length_le (by simp)

/-- An entry from its fields, with all of the space up to `hi`. -/
theorem entry_of_fields {mid : Nat} {inodeNo : Word} {size : BitVec 16}
    (hd : d = base + ofNat 32 mid) (hword : m.word d = inodeNo)
    (hsize : m.half (d + 4#32) = size) (hlen : nameLength m d = name.length)
    (hname : bytesAt m (d + 8#32) name.length = name) (h4 : 4 ∣ size.toNat)
    (hfit : (neededSize (ofNat 8 name.length)).toNat ≤ size.toNat) :
    Entries m base mid (mid + size.toNat) [⟨inodeNo, name⟩] := by
  have hent : dirEntry m d = ⟨inodeNo, name⟩ := by rw [dirEntry, entryName, hlen, hname, hword]
  have hs : entrySize m d = size := hsize
  have hc : calculateDirSize m d = neededSize (ofNat 8 name.length) := by
    rw [calculateDirSize_eq, ← hlen, nameLength, BitVec.ofNat_toNat, BitVec.setWidth_eq]
  rw [← hent]
  refine .cons hd ?_ (by rwa [hs]) ?_
  · rw [hs, hc]
    exact hfit
  · rw [hs]
    exact .nil _

theorem putEntry_header (m : Mem) (d inodeNo : Word) (name : Text) (size : BitVec 16) :
    ChangesOnly (span d 8) (m.setBytes (d + 8#32) (nameBytes name))
      (putEntry m d inodeNo name size) := by
  have hpart : ∀ o n, o + n ≤ 8 → span (d + ofNat 32 o) n ⊆ span d 8 :=
    fun o n hn => span_add_subset d hn (by decide)
  have h0 := hpart 0 4 (by decide)
  rw [BitVec.add_zero] at h0
  have h2 := ((ChangesOnly.refl (span d 8) (m.setBytes (d + 8#32) (nameBytes name))).set
    (v := 2#8) (hpart 7 1 (by decide))).set (v := ofNat 8 (min name.length 256))
    (hpart 6 1 (by decide))
  exact (h2.setWord h0).setHalf (hpart 4 2 (by decide))

theorem putEntry_length (m : Mem) (d inodeNo : Word) (size : BitVec 16)
    (hlen : name.length ≤ 255) : nameLength (putEntry m d inodeNo name size) d = name.length := by
  have hd : ∀ o n, o + n ≤ 6 → Disjoint (span (d + ofNat 32 6) 1)
      (span (d + ofNat 32 o) n) :=
    fun o n hn => span_disjoint d (by omega) (by decide) (by omega)
  have h0 := hd 0 4 (by decide)
  rw [BitVec.add_zero] at h0
  have hmem : d + 6#32 ∈ span (d + ofNat 32 6) 1 := by
    rw [mem_span, BitVec.sub_self]
    decide
  unfold nameLength putEntry
  rw [(Mem.setHalf_changes _ _ _).keeps (hd 4 2 (by decide)) hmem,
    (Mem.setWord_changes _ _ _).keeps h0 hmem, Mem.set_same, Nat.min_eq_left (by omega),
    toNat_ofNat_of_lt (by omega)]

theorem putEntry_entries {mid : Nat} {size : BitVec 16} (m : Mem) (inodeNo : Word)
    (hd : d = base + ofNat 32 mid) (hlen : name.length ≤ 255) (h4 : 4 ∣ size.toNat)
    (hfit : (neededSize (ofNat 8 name.length)).toNat ≤ size.toNat) :
    Entries (putEntry m d inodeNo name size) base mid (mid + size.toNat) [⟨inodeNo, name⟩] := by
  have hword : (putEntry m d inodeNo name size).word d = inodeNo := by
    have hd := span_disjoint (o := 0) (n := 4) (p := 4) (k := 2) d (by decide) (by decide)
      (by decide)
    rw [BitVec.add_zero] at hd
    unfold putEntry
    rw [word_of_eqOn ((Mem.setHalf_changes _ _ _).keeps hd) (Set.Subset.refl _), Mem.word_setWord]
  have hbytes : bytesAt (putEntry m d inodeNo name size) (d + 8#32) name.length = name := by
    have hd : Disjoint (span (d + ofNat 32 8) (name.length + 1)) (span d 8) := by
      have h := span_disjoint (o := 8) (n := name.length + 1) (p := 0) (k := 8) d (by omega)
        (by omega) (by decide)
      rwa [BitVec.add_zero] at h
    have hkeep := (putEntry_header m d inodeNo name size).keeps hd
    refine List.ext_getElem (by simp) fun i h1 h2 => ?_
    simp only [bytesAt, List.getElem_map, List.getElem_range]
    rw [hkeep (add_mem_span _ (by omega) (by omega)), nameBytes_eq hlen,
      Mem.setBytes_byte _ _ _ (by simp; omega) (by simp; omega), List.getElem_append_left h2]
  exact entry_of_fields hd hword (Mem.half_setHalf _ _ _) (putEntry_length m d inodeNo size hlen)
    hbytes h4 hfit

theorem setSize_entry (m : Mem) (d : Word) (size : BitVec 16) :
    dirEntry (m.setHalf (d + 4#32) size) d = dirEntry m d ∧
      nameLength (m.setHalf (d + 4#32) size) d = nameLength m d := by
  have hch : ChangesOnly (span (d + ofNat 32 4) 2) m (m.setHalf (d + 4#32) size) :=
    Mem.setHalf_changes _ _ _
  have hkeep : ∀ o n, o + n ≤ 4 ∨ 6 ≤ o → o + n ≤ 2 ^ 32 →
      Set.EqOn (m.setHalf (d + 4#32) size) m (span (d + ofNat 32 o) n) :=
    fun o n ho hn => hch.keeps (span_disjoint d (by omega) hn (by decide))
  have h0 := hkeep 0 4 (by decide) (by decide)
  rw [BitVec.add_zero] at h0
  have hlen : nameLength (m.setHalf (d + 4#32) size) d = nameLength m d := by
    have hmem : d + 6#32 ∈ span (d + ofNat 32 6) 1 := by
      rw [mem_span, BitVec.sub_self]
      decide
    rw [nameLength, hkeep 6 1 (by decide) (by decide) hmem, nameLength]
  refine ⟨?_, hlen⟩
  rw [dirEntry, word_of_eqOn h0 (Set.Subset.refl _), entryName, hlen]
  have hlt : nameLength m d < 256 := (m (d + 6#32)).isLt
  exact congrArg (DirEntry.mk _) (bytesAt_congr fun i hi =>
    hkeep 8 (nameLength m d) (by omega) (by omega) (add_mem_span _ hi (by omega)))

theorem Entries.cut {mid hi : Nat} {x : DirEntry} (h : Entries m base mid hi [x])
    (hd : d = base + ofNat 32 mid) :
    Entries (m.setHalf (d + 4#32) (calculateDirSize m d)) base mid
      (mid + (calculateDirSize m d).toNat) [x] := by
  obtain ⟨d₁, hd₁, rfl, -, hmin, h4⟩ := h.single
  obtain rfl : d₁ = d := hd₁.trans hd.symm
  obtain ⟨hent, hlen⟩ := setSize_entry m d₁ (calculateDirSize m d₁)
  have hcalc : calculateDirSize (m.setHalf (d₁ + 4#32) (calculateDirSize m d₁)) d₁ =
      calculateDirSize m d₁ := by
    rw [calculateDirSize, BitVec.eq_of_toNat_eq hlen, calculateDirSize]
  have hsize : entrySize (m.setHalf (d₁ + 4#32) (calculateDirSize m d₁)) d₁ =
      calculateDirSize m d₁ := Mem.half_setHalf _ _ _
  rw [← hent]
  refine .cons hd (by rw [hcalc, hsize]) ?_ ?_
  · rw [hsize]
    exact (calculateDirSize_bounds m d₁).2.2.2
  · rw [hsize]
    exact .nil _

theorem putEntry_span (m : Mem) (d inodeNo : Word) (size : BitVec 16)
    (hlen : name.length ≤ 255) :
    ChangesOnly (span d (9 + name.length)) m (putEntry m d inodeNo name size) := by
  have hroom : 0 + 8 + (nameBytes name).length ≤ (ofNat 32 (9 + name.length)).toNat := by
    rw [nameBytes_eq hlen, BitVec.toNat_ofNat, List.length_append, List.length_singleton]
    omega
  have hput := putEntry_changes d m inodeNo size hroom
  rwa [BitVec.add_zero, toNat_ofNat_of_lt (by omega)] at hput

section DoInsert
variable {es : List DirEntry} (inodeNo : Word) (hnull : 0#32 ∉ span base (BLOCKSIZE m sb).toNat)
  (h : Entries m base 0 (BLOCKSIZE m sb).toNat es) (hne : es ≠ []) (hlen : name.length ≤ 255)
include hnull h hne hlen

/-- do_insert appends the new entry to those of the block if the last entry has the space
for it. The copied name may end with its terminator just behind the block. -/
theorem doInsert_appends (hfit : SlackFits m base (BLOCKSIZE m sb) name) :
    ∃ m', doInsert m sb base inodeNo name = .ok m' ∧
      ChangesOnly (span base ((BLOCKSIZE m sb).toNat + 1)) m m' ∧
      Entries m' base 0 (BLOCKSIZE m sb).toNat (es ++ [⟨inodeNo, name⟩]) := by
  obtain ⟨xs, x, mid, d, rfl, hxs, hx, hd, hlast, hhi, hmin, h4⟩ := h.at_last hnull hne
  obtain ⟨d', hd', hle⟩ := hfit
  cases hlast.symm.trans hd'
  refine ⟨_, by rw [doInsert, hlast], ?_⟩
  have hcut := hx.cut hd
  obtain ⟨hn8, -, -, hn4⟩ := neededSize_bounds hlen
  obtain ⟨-, hb12, -, hc4⟩ := calculateDirSize_bounds m d
  have hset : ChangesOnly (span (d + ofNat 32 4) 2) m
      (m.setHalf (d + 4#32) (calculateDirSize m d)) := Mem.setHalf_changes _ _ _
  have hadv : advance (m.setHalf (d + 4#32) (calculateDirSize m d)) d =
      base + ofNat 32 (mid + (calculateDirSize m d).toNat) := by
    rw [advance_eq hd, entrySize, Mem.half_setHalf]
  have hsub : (entrySize m d - calculateDirSize m d).toNat =
      (entrySize m d).toNat - (calculateDirSize m d).toNat := BitVec.toNat_sub_of_le hmin
  rw [hadv]
  generalize m.setHalf (d + 4#32) (calculateDirSize m d) = m₁ at *
  have hput := putEntry_span m₁ (base + ofNat 32 (mid + (calculateDirSize m d).toNat))
    inodeNo (entrySize m d - calculateDirSize m d) hlen
  have hnew := putEntry_entries m₁ inodeNo
    (rfl : base + ofNat 32 (mid + (calculateDirSize m d).toNat) = _) hlen
    (by rw [hsub]; omega) (by rw [hsub]; omega)
  rw [hsub, show mid + (calculateDirSize m d).toNat + ((entrySize m d).toNat -
    (calculateDirSize m d).toNat) = (BLOCKSIZE m sb).toNat by omega] at hnew
  rw [hd, add_ofNat_add] at hset
  constructor
  · exact (hset.mono (span_add_subset _ (by omega) (by omega))).trans
      (hput.mono (span_add_subset _ (by omega) (by omega)))
  · -- everything in front of the new entry is as after the cut
    have hfirst : Entries m₁ base 0 mid xs :=
      hxs.congr (by omega) (hset.keeps (span_disjoint base (by omega) (by omega) (by omega)))
    have hold := (hfirst.append hcut).congr (by omega) (hput.keeps
      (span_disjoint base (by omega) (by omega) (by omega)))
    exact hold.append hnew

omit hnull h hne in
/-- There is room for the new entry with its terminator exactly if the last entry has that
much more than it needs itself. -/
theorem entryFits_iff {size : Word} {mid : Nat}
    (hlast : advanceToLast m base size = some d) (hd : d = base + ofNat 32 mid)
    (hhi : mid + (entrySize m d).toNat = size.toNat) : EntryFits m base size name ↔
      (calculateDirSize m d).toNat + 9 + name.length ≤ (entrySize m d).toNat := by
  have hoff : (d - base).toNat = mid := by
    rw [hd, BitVec.add_comm, BitVec.add_sub_cancel, toNat_ofNat_of_lt (by omega)]
  unfold EntryFits
  rw [nameBytes_eq hlen, List.length_append, List.length_singleton]
  constructor
  · intro hfit
    obtain ⟨d', hd', hle⟩ := hfit
    cases hlast.symm.trans hd'
    omega
  · intro hle
    exact ⟨d, hlast, by omega⟩

theorem doInsert_entries (hfit : EntryFits m base (BLOCKSIZE m sb) name) :
    ∃ m', doInsert m sb base inodeNo name = .ok m' ∧
      Entries m' base 0 (BLOCKSIZE m sb).toNat (es ++ [⟨inodeNo, name⟩]) := by
  obtain ⟨-, -, mid, d, -, -, -, hd, hlast, hhi, -, h4⟩ := h.at_last hnull hne
  obtain ⟨-, -, hmax, hn4⟩ := neededSize_bounds hlen
  have hc4 := (calculateDirSize_bounds m d).2.2.2
  have hle := (entryFits_iff hlen hlast hd hhi).mp hfit
  obtain ⟨m', hins, -, hes⟩ := doInsert_appends inodeNo hnull h hne hlen
    ⟨d, hlast, by omega⟩
  exact ⟨m', hins, hes⟩

end DoInsert

theorem firstEntry_entries (m : Mem) (block inodeIndex : Word) :
    Entries (firstEntry m block inodeIndex) block 0 12 [⟨inodeIndex, [dot]⟩] := by
  have hhalf : (firstEntry m block inodeIndex).half (block + 4#32) = 12#16 := by
    have hd := span_disjoint (o := 4) (n := 2) (p := 0) (k := 4) block (by decide) (by decide)
      (by decide)
    rw [BitVec.add_zero] at hd
    rw [firstEntry, half_of_eqOn ((Mem.setWord_changes _ _ _).keeps hd) (Set.Subset.refl _),
      Mem.half_setHalf]
  refine entry_of_fields (BitVec.add_zero _).symm (Mem.word_setWord _ _ _) hhalf ?_ ?_
    (by decide) (by decide)
  · simp [nameLength, Mem.setWord, Mem.setHalf, Mem.set, BitVec.add_assoc]
  · simp [bytesAt, Mem.setWord, Mem.setHalf, Mem.set, BitVec.add_assoc, dot]

theorem secondEntry_entries (m : Mem) (block inodeIndex : Word) (size : BitVec 16)
    (h4 : 4 ∣ size.toNat) (hfit : 11 ≤ size.toNat) :
    Entries (((secondEntry m block).setHalf (block + 16#32) size).setWord (block + 12#32) inodeIndex)
      block 12 (12 + size.toNat) [⟨inodeIndex, [dot, dot]⟩] := by
  have hpart : ∀ i, block + 12#32 + ofNat 32 i = block + ofNat 32 (12 + i) :=
    fun i => add_ofNat_add block 12 i
  have hhalf : (((secondEntry m block).setHalf (block + 16#32) size).setWord (block + 12#32)
      inodeIndex).half (block + 12#32 + 4#32) = size := by
    have hd := span_disjoint (o := 16) (n := 2) (p := 12) (k := 4) block (by decide) (by decide)
      (by decide)
    rw [hpart 4, half_of_eqOn ((Mem.setWord_changes _ _ _).keeps hd) (Set.Subset.refl _)]
    exact Mem.half_setHalf _ _ _
  have hneed : (neededSize (ofNat 8 [dot, dot].length)).toNat = 12 := by decide
  refine entry_of_fields rfl (Mem.word_setWord _ _ _) hhalf ?_ ?_ h4 (by omega)
  · rw [nameLength, hpart 6]
    simp [secondEntry, Mem.setWord, Mem.setHalf, Mem.set, BitVec.add_assoc]
  · simp [bytesAt, List.range_succ, secondEntry, Mem.setWord, Mem.setHalf, Mem.set,
      BitVec.add_assoc, dot]

/-- The stores of the two entries do not reach the block size. -/
theorem secondEntry_blockSize {block : Word} (m : Mem) (inodeIndex : Word)
    (hsb : Disjoint (span (sb + 24#32) 4) (span block 24)) :
    BLOCKSIZE (secondEntry (firstEntry m block inodeIndex) block) sb = BLOCKSIZE m sb := by
  have hw : (secondEntry (firstEntry m block inodeIndex) block).word (sb + 24#32) =
      m.word (sb + 24#32) :=
    word_of_eqOn ((secondEntry_changes m block inodeIndex).keeps hsb) (Set.Subset.refl _)
  rw [BLOCKSIZE, sbBlockSizeShift, hw, BLOCKSIZE, sbBlockSizeShift]

/-- A new directory lists itself under '.' and '..'. -/
theorem writeDirectoryStructure_entries {block : Word} (m : Mem) (inodeIndex : Word)
    (hsb : Disjoint (span (sb + 24#32) 4) (span block 24)) (hmin : 24 ≤ (BLOCKSIZE m sb).toNat)
    (hmax : (BLOCKSIZE m sb).toNat ≤ 65536) (h4 : 4 ∣ (BLOCKSIZE m sb).toNat) :
    Entries (writeDirectoryStructure m sb block inodeIndex) block 0 (BLOCKSIZE m sb).toNat
      [⟨inodeIndex, [dot]⟩, ⟨inodeIndex, [dot, dot]⟩] := by
  rw [writeDirectoryStructure_eq, secondEntry_blockSize m inodeIndex hsb]
  have hrest : ∀ i n, 12 ≤ i → i + n ≤ 24 →
      span (block + ofNat 32 i) n ⊆ span (block + ofNat 32 12) 12 :=
    fun i n hi hn => span_subset block hi (by omega) (by decide)
  generalize hm₁ : firstEntry m block inodeIndex = m₁
  have hsecond : ChangesOnly (span (block + ofNat 32 12) 12) m₁
      (((secondEntry m₁ block).setHalf (block + 16#32)
        ((BLOCKSIZE m sb - 12#32).setWidth 16)).setWord (block + 12#32) inodeIndex) :=
    (((((((ChangesOnly.refl _ m₁).set (hrest 19 1 (by decide) (by decide))).set
      (hrest 18 1 (by decide) (by decide))).set (hrest 20 1 (by decide) (by decide))).set
      (hrest 21 1 (by decide) (by decide))).setHalf (hrest 16 2 (by decide) (by decide))).setWord
      (hrest 12 4 (by decide) (by decide)))
  have hs : (BitVec.setWidth 16 (BLOCKSIZE m sb - 12#32)).toNat = (BLOCKSIZE m sb).toNat - 12 := by
    have hle : 12#32 ≤ BLOCKSIZE m sb := by
      rw [BitVec.le_def]
      change 12 ≤ _
      omega
    rw [BitVec.toNat_setWidth, BitVec.toNat_sub_of_le hle]
    exact Nat.mod_eq_of_lt (by change _ - 12 < 65536; omega)
  have hlast := secondEntry_entries m₁ block inodeIndex
    ((BLOCKSIZE m sb - 12#32).setWidth 16) (by omega) (by omega)
  rw [hs, show 12 + ((BLOCKSIZE m sb).toNat - 12) = (BLOCKSIZE m sb).toNat by omega] at hlast
  have hdot := firstEntry_entries m block inodeIndex
  rw [hm₁] at hdot
  refine (hdot.congr (by decide) (hsecond.keeps ?_)).append hlast
  exact span_disjoint block (by decide) (by decide) (by decide)

end Insert

end TapiOS.Fs.Ext2
