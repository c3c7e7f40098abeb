import TapiOS.Lib.Access
import TapiOS.Fs.DirListing

/-!
# Which bytes the directory walks read

The walks again, as programs that read the block byte by byte; offset 0 is its start.
`advance` adds a size that it takes from the block, and then reads the inode number at the
place it has got to for its return value, which nobody uses. So a walk that leaves the
block has read behind it.
-/
namespace TapiOS.Fs.Ext2

open Lib Lib.Access Util
open BitVec (ofNat)

/-- The bytes from the start of a block on, also behind its end. -/
abbrev BlockBytes := Nat → Byte

abbrev DirReading := Access Byte

section Programs

/-- dir->inode -/
def inodeField (o : Nat) : DirReading Word := do
  let a ← cell o
  let b ← cell (o + 1)
  let c ← cell (o + 2)
  let d ← cell (o + 3)
  return d ++ c ++ b ++ a

/-- dir->size -/
def sizeField (o : Nat) : DirReading (BitVec 16) := do
  let a ← cell (o + 4)
  let b ← cell (o + 5)
  return b ++ a

/-- dir->name_length_low -/
def lengthField (o : Nat) : DirReading Byte := cell (o + 6)

def advanceReads (o : Nat) : DirReading Nat := do
  let size ← sizeField o
  let _ ← inodeField (o + size.toNat)
  return o + size.toNat

/-- memcmp with `name`, which ends at the first difference. -/
def compareReads : Nat → Text → DirReading Bool
  | _, [] => return true
  | o, c :: cs => do
    let b ← cell o
    if b = c then compareReads (o + 1) cs else return false

/-- memcpy of `n` bytes. -/
def copyReads (o : Nat) : Nat → DirReading (List Byte)
  | 0 => return []
  | n + 1 => do
    let bs ← copyReads o n
    let b ← cell (o + n)
    return bs ++ [b]

/-- The loop of advance_to_last. -/
def lastReads (size : Nat) : Nat → Nat → Nat → DirReading (Option Nat)
  | 0, _, _ => return none
  | n + 1, o, o2 =>
    if o < size then do
      let next ← advanceReads o
      lastReads size n next o
    else return some o2

/-- Whether ext2_search takes the entry: the lengths agree and memcmp returns 0. -/
def matchReads (name : Text) (o : Nat) : DirReading Bool := do
  let length ← lengthField o
  if name.length = length.toNat then compareReads (o + 8) name else return false

/-- The number and the name that are copied from an entry. -/
def entryReads (o : Nat) : DirReading DirEntry := do
  let inode ← inodeField o
  let length ← lengthField o
  let name ← copyReads (o + 8) length.toNat
  return ⟨inode, name⟩

/-- The loop of ext2_search. -/
def searchReads (size : Nat) (name : Text) : Nat → Nat → DirReading (Option (Option DirEntry))
  | 0, _ => return none
  | n + 1, o =>
    if o < size then do
      let found ← matchReads name o
      if found then do
        let e ← entryReads o
        return some (some e)
      else do
        let next ← advanceReads o
        searchReads size name n next
    else return some none

/-- Calls of ext2_readdir until it returns NULL. -/
def listReads (size : Nat) : Nat → Nat → DirReading (Option (List DirEntry))
  | 0, _ => return none
  | n + 1, o =>
    if o < size then do
      let e ← entryReads o
      let next ← advanceReads o
      let rest ← listReads size n next
      return rest.map (e :: ·)
    else return some []

end Programs

section Values

/-! The programs compute what the functions of the model do. -/

/-- The block at `base`. -/
def blockContents (m : Mem) (base : Word) : BlockBytes := fun o => m (base + ofNat 32 o)

variable {m : Mem} {base size : Word} {o n : Nat} {name : Text}

theorem blockContents_add (o i : Nat) :
    blockContents m base (o + i) = m (base + ofNat 32 o + ofNat 32 i) := by
  rw [blockContents, add_ofNat_add]

theorem inodeField_value :
    (inodeField o).value (blockContents m base) = m.word (base + ofNat 32 o) := by
  simp only [inodeField, value_bind, value_cell, value_pure, blockContents_add]
  rfl

theorem sizeField_value :
    (sizeField o).value (blockContents m base) = entrySize m (base + ofNat 32 o) := by
  have h5 : base + ofNat 32 o + 4#32 + 1#32 = base + ofNat 32 o + 5#32 :=
    add_ofNat_add _ 4 1
  simp only [sizeField, value_bind, value_cell, value_pure, blockContents_add]
  rw [entrySize, Mem.half, h5]

theorem lengthField_value :
    ((lengthField o).value (blockContents m base)).toNat =
      nameLength m (base + ofNat 32 o) := by
  rw [lengthField, value_cell, blockContents_add]
  rfl

theorem advanceReads_value : (advanceReads o).value (blockContents m base) =
    o + (entrySize m (base + ofNat 32 o)).toNat := by
  simp [advanceReads, sizeField_value]

theorem copyReads_value : (copyReads o n).value (blockContents m base) =
    bytesAt m (base + ofNat 32 o) n := by
  induction n with
  | zero => rfl
  | succ n ih =>
    rw [copyReads, value_bind, value_bind, value_pure, value_cell, ih, blockContents_add, bytesAt_succ]

theorem compareReads_value : (compareReads o name).value (blockContents m base) =
    decide (bytesAt m (base + ofNat 32 o) name.length = name) := by
  induction name generalizing o with
  | nil => rfl
  | cons c cs ih =>
    have h0 : blockContents m base o = m (base + ofNat 32 o) := rfl
    have h1 : base + ofNat 32 o + 1#32 = base + ofNat 32 (o + 1) :=
      add_ofNat_add base o 1
    rw [compareReads, value_bind, value_ite, value_cell, ih, List.length_cons, bytesAt_cons, h0, h1]
    by_cases hc : m (base + ofNat 32 o) = c
    · rw [if_pos hc, hc]
      simp
    · rw [if_neg hc]
      simp [hc]

theorem matchReads_value : (matchReads name o).value (blockContents m base) =
    decide (name.length = nameLength m (base + ofNat 32 o) ∧
      entryName m (base + ofNat 32 o) = name) := by
  have h8 : base + ofNat 32 o + 8#32 = base + ofNat 32 (o + 8) :=
    add_ofNat_add base o 8
  rw [matchReads, value_bind, value_ite, lengthField_value, compareReads_value]
  by_cases hlen : name.length = nameLength m (base + ofNat 32 o)
  · rw [if_pos hlen, entryName, ← hlen, h8]
    simp
  · rw [if_neg hlen]
    simp [hlen]

theorem entryReads_value :
    (entryReads o).value (blockContents m base) = dirEntry m (base + ofNat 32 o) := by
  have h8 : base + ofNat 32 o + 8#32 = base + ofNat 32 (o + 8) :=
    add_ofNat_add base o 8
  simp only [entryReads, value_bind, value_pure, inodeField_value, lengthField_value,
    copyReads_value]
  rw [dirEntry, entryName, h8]

theorem next_lt (m : Mem) (hsize : size.toNat ≤ 2 ^ 31) (hin : o < size.toNat) :
    o + (entrySize m (base + ofNat 32 o)).toNat < 2 ^ 32 := by
  omega

variable (hnull : 0#32 ∉ span base size.toNat) (hsize : size.toNat ≤ 2 ^ 31)
include hnull hsize

theorem searchReads_value (ho : o < 2 ^ 32) :
    (searchReads size.toNat name n o).value (blockContents m base) =
      searchLoop m base size name n (base + ofNat 32 o) := by
  induction n generalizing o with
  | zero => rfl
  | succ n ih =>
    have hiff := insideDir_iff hnull ho
    rw [searchReads, searchLoop]
    by_cases hin : o < size.toNat
    · rw [if_pos hin, if_pos (hiff.mpr hin), value_bind, matchReads_value, advance_eq rfl,
        ← ih (next_lt m hsize hin)]
      by_cases hmatch : name.length = nameLength m (base + ofNat 32 o) ∧
          entryName m (base + ofNat 32 o) = name
      · rw [if_pos hmatch]
        simp [hmatch, entryReads_value]
      · rw [if_neg hmatch]
        simp [hmatch, advanceReads_value]
    · rw [if_neg hin, if_neg (fun h => hin (hiff.mp h))]
      rfl

theorem lastReads_value (ho : o < 2 ^ 32) (o2 : Nat) :
    ((lastReads size.toNat n o o2).value (blockContents m base)).map
        (fun o => base + ofNat 32 o) =
      lastEntry m base size n (base + ofNat 32 o) (base + ofNat 32 o2) := by
  induction n generalizing o o2 with
  | zero => rfl
  | succ n ih =>
    have hiff := insideDir_iff hnull ho
    rw [lastReads, lastEntry]
    by_cases hin : o < size.toNat
    · rw [if_pos hin, if_pos (hiff.mpr hin), value_bind, advanceReads_value, advance_eq rfl,
        ih (next_lt m hsize hin)]
    · rw [if_neg hin, if_neg (fun h => hin (hiff.mp h))]
      rfl

theorem listReads_value {sb inodeNo node : Word} (hbs : BLOCKSIZE m sb = size) (ho : o < 2 ^ 32)
    (dirent : Dirent) :
    listing m sb inodeNo node n ⟨base, base + ofNat 32 o, node⟩ dirent =
      match (listReads size.toNat n o).value (blockContents m base) with
      | none => .error .endless
      | some es => .ok (dirents dirent es) := by
  induction n generalizing o dirent with
  | zero => rfl
  | succ n ih =>
    have hiff := insideDir_iff hnull ho
    rw [listReads, listing]
    by_cases hin : o < size.toNat
    · rw [if_pos hin, ext2Readdir_next (by rw [hbs]; exact hiff.mpr hin)]
      dsimp only
      rw [advance_eq rfl, ih (next_lt m hsize hin), value_bind, value_bind, value_bind,
        entryReads_value, advanceReads_value]
      cases (listReads size.toNat n _).value (blockContents m base) with
      | none => rfl
      | some es => rfl
    · rw [if_neg hin, ext2Readdir_end (by rw [hbs]; exact fun h => hin (hiff.mp h))]
      rfl

end Values

section Bounds
variable {bytes : BlockBytes} {size o n : Nat} {name : Text}

theorem only_inodeField_iff : (inodeField o).Only bytes (· < size) ↔ o + 4 ≤ size := by
  simp only [inodeField, only_bind_iff, only_cell_iff]
  constructor
  · intro h
    omega
  · intro h
    exact ⟨by omega, by omega, by omega, by omega, only_pure _⟩

theorem only_sizeField_iff : (sizeField o).Only bytes (· < size) ↔ o + 6 ≤ size := by
  simp only [sizeField, only_bind_iff, only_cell_iff]
  constructor
  · intro h
    omega
  · intro h
    exact ⟨by omega, by omega, only_pure _⟩

/-- Where `advance` gets to. -/
def nextOffset (bytes : BlockBytes) (o : Nat) : Nat :=
  o + (bytes (o + 5) ++ bytes (o + 4)).toNat

theorem advanceReads_next : (advanceReads o).value bytes = nextOffset bytes o := rfl

theorem only_advanceReads_iff : (advanceReads o).Only bytes (· < size) ↔
    o + 6 ≤ size ∧ nextOffset bytes o + 4 ≤ size := by
  simp only [advanceReads, only_bind_iff, only_sizeField_iff, only_inodeField_iff]
  constructor
  · intro h
    exact ⟨h.1, h.2.1⟩
  · intro h
    exact ⟨h.1, h.2, only_pure _⟩

/-- The bytes that memcmp looks at before it knows are inside of the block. -/
def Compared (bytes : BlockBytes) (size : Nat) : Nat → Text → Prop
  | _, [] => True
  | o, c :: cs => o < size ∧ (bytes o = c → Compared bytes size (o + 1) cs)

/-- The name stands at the offset. -/
def Matches (bytes : BlockBytes) : Nat → Text → Prop
  | _, [] => True
  | o, c :: cs => bytes o = c ∧ Matches bytes (o + 1) cs

theorem only_compareReads_iff :
    (compareReads o name).Only bytes (· < size) ↔ Compared bytes size o name := by
  induction name generalizing o with
  | nil => exact ⟨fun _ => trivial, fun _ => only_pure _⟩
  | cons c cs ih =>
    rw [compareReads, only_bind_iff, only_cell_iff, value_cell]
    by_cases hc : bytes o = c
    · rw [if_pos hc, ih]
      exact ⟨fun h => ⟨h.1, fun _ => h.2⟩, fun h => ⟨h.1, h.2 hc⟩⟩
    · rw [if_neg hc]
      exact ⟨fun h => ⟨h.1, fun he => absurd he hc⟩, fun h => ⟨h.1, only_pure _⟩⟩

theorem compareReads_iff : (compareReads o name).value bytes ↔ Matches bytes o name := by
  induction name generalizing o with
  | nil => exact ⟨fun _ => trivial, fun _ => rfl⟩
  | cons c cs ih =>
    rw [compareReads, value_bind, value_cell]
    by_cases hc : bytes o = c
    · rw [if_pos hc, ih]
      exact ⟨fun h => ⟨hc, h⟩, fun h => h.2⟩
    · rw [if_neg hc]
      exact ⟨fun h => absurd h (by simp), fun h => absurd h.1 hc⟩

theorem Matches.inside (hm : Matches bytes o name) (h : Compared bytes size o name) :
    ∀ i < name.length, o + i < size := by
  induction name generalizing o with
  | nil =>
    intro i hi
    cases hi
  | cons c cs ih =>
    intro i hi
    cases i with
    | zero => exact h.1
    | succ i =>
      have hrest := ih hm.2 (h.2 hm.1) i (Nat.lt_of_succ_lt_succ hi)
      omega

theorem only_copyReads (h : ∀ i < n, o + i < size) : (copyReads o n).Only bytes (· < size) := by
  induction n with
  | zero => exact only_pure _
  | succ n ih =>
    apply only_bind
    · exact ih (fun i hi => h i (by omega))
    · exact only_bind (only_cell (h n (Nat.lt_succ_self n))) (only_pure _)

theorem only_matchReads_iff : (matchReads name o).Only bytes (· < size) ↔
    o + 7 ≤ size ∧ (name.length = (bytes (o + 6)).toNat → Compared bytes size (o + 8) name) := by
  rw [matchReads, only_bind_iff, lengthField, only_cell_iff, value_cell]
  by_cases hlen : name.length = (bytes (o + 6)).toNat
  · rw [if_pos hlen, only_compareReads_iff]
    exact ⟨fun h => ⟨by omega, fun _ => h.2⟩, fun h => ⟨by omega, h.2 hlen⟩⟩
  · rw [if_neg hlen]
    exact ⟨fun h => ⟨by omega, fun he => absurd he hlen⟩, fun h => ⟨by omega, only_pure _⟩⟩

theorem matchReads_iff : (matchReads name o).value bytes ↔
    name.length = (bytes (o + 6)).toNat ∧ Matches bytes (o + 8) name := by
  rw [matchReads, value_bind, lengthField, value_cell]
  by_cases hlen : name.length = (bytes (o + 6)).toNat
  · rw [if_pos hlen, compareReads_iff]
    exact ⟨fun h => ⟨hlen, h⟩, fun h => h.2⟩
  · rw [if_neg hlen]
    exact ⟨fun h => absurd h (by simp), fun h => absurd h.1 hlen⟩

/-- A walk, by the number of its rounds, ends and reads only inside of the block. -/
def Safe {α : Type} (bytes : BlockBytes) (size : Nat) (walk : Nat → DirReading (Option α)) : Prop :=
  ∃ n, (walk n).value bytes ≠ none ∧ (walk n).Only bytes (· < size)

/-- From offset `o`, the sizes lead to an entry with the name, and all that is looked at on
the way is inside of the block. -/
inductive FoundInside (bytes : BlockBytes) (size : Nat) (name : Text) : Nat → Prop where
  | here {o : Nat} (hfields : o + 7 ≤ size) (hlen : name.length = (bytes (o + 6)).toNat)
      (hin : Compared bytes size (o + 8) name) (hname : Matches bytes (o + 8) name) :
      FoundInside bytes size name o
  | next {o : Nat} (hfields : o + 7 ≤ size)
      (hother : name.length = (bytes (o + 6)).toNat →
        Compared bytes size (o + 8) name ∧ ¬ Matches bytes (o + 8) name)
      (hinode : nextOffset bytes o + 4 ≤ size)
      (hrest : FoundInside bytes size name (nextOffset bytes o)) :
      FoundInside bytes size name o

theorem only_entryReads (hfields : o + 7 ≤ size) (hlen : name.length = (bytes (o + 6)).toNat)
    (hin : Compared bytes size (o + 8) name) (hname : Matches bytes (o + 8) name) :
    (entryReads o).Only bytes (· < size) := by
  have hl : (lengthField o).Only bytes (· < size) := only_cell (by omega)
  apply only_bind (only_inodeField_iff.mpr (by omega))
  apply only_bind hl
  apply only_bind
  · show (copyReads (o + 8) (bytes (o + 6)).toNat).Only bytes (· < size)
    rw [← hlen]
    exact only_copyReads (hname.inside hin)
  · exact only_pure _

/-- A search that ends without reading behind the block found the name. -/
theorem searchReads_found (ho : o < size)
    (hend : (searchReads size name n o).value bytes ≠ none)
    (honly : (searchReads size name n o).Only bytes (· < size)) :
    FoundInside bytes size name o := by
  induction n generalizing o with
  | zero => exact absurd rfl hend
  | succ n ih =>
    rw [searchReads, if_pos ho] at hend honly
    rw [only_bind_iff, only_matchReads_iff] at honly
    rw [value_bind] at hend
    obtain ⟨⟨hfields, hcompared⟩, honly⟩ := honly
    by_cases hfound : (matchReads name o).value bytes
    · obtain ⟨hlen, hname⟩ := matchReads_iff.mp hfound
      exact .here hfields hlen (hcompared hlen) hname
    · rw [if_neg hfound] at hend honly
      rw [only_bind_iff, only_advanceReads_iff] at honly
      obtain ⟨⟨-, hinode⟩, honly⟩ := honly
      apply FoundInside.next hfields _ hinode (ih (by omega) hend honly)
      intro hlen
      exact ⟨hcompared hlen, fun hname => hfound (matchReads_iff.mpr ⟨hlen, hname⟩)⟩

theorem FoundInside.search (h : FoundInside bytes size name o) :
    ∃ n, (searchReads size name n o).value bytes ≠ none ∧
      (searchReads size name n o).Only bytes (· < size) := by
  induction h with
  | @here o hfields hlen hin hname =>
    have hfound := matchReads_iff.mpr ⟨hlen, hname⟩
    refine ⟨1, ?_, ?_⟩
    · rw [searchReads, if_pos (by omega), value_bind, if_pos hfound, value_bind]
      exact Option.some_ne_none _
    · rw [searchReads, if_pos (by omega), only_bind_iff, if_pos hfound]
      exact ⟨only_matchReads_iff.mpr ⟨hfields, fun _ => hin⟩,
        only_bind (only_entryReads hfields hlen hin hname) (only_pure _)⟩
  | @next o hfields hother hinode hrest ih =>
    have hfound : ¬ (matchReads name o).value bytes := by
      intro hm
      obtain ⟨hlen, hname⟩ := matchReads_iff.mp hm
      exact (hother hlen).2 hname
    obtain ⟨n, hend, honly⟩ := ih
    refine ⟨n + 1, ?_, ?_⟩
    · rw [searchReads, if_pos (by omega), value_bind, if_neg hfound]
      exact hend
    · rw [searchReads, if_pos (by omega), only_bind_iff, if_neg hfound, only_bind_iff,
        only_matchReads_iff, only_advanceReads_iff]
      exact ⟨⟨hfields, fun hlen => (hother hlen).1⟩, ⟨by omega, hinode⟩, honly⟩

/-- advance_to_last ends outside of the block, where it has read an inode number. -/
theorem lastReads_unsafe {o2 : Nat} (ho : o < size)
    (hend : (lastReads size n o o2).value bytes ≠ none)
    (honly : (lastReads size n o o2).Only bytes (· < size)) : False := by
  induction n generalizing o o2 with
  | zero => exact hend rfl
  | succ n ih =>
    rw [lastReads, if_pos ho] at hend honly
    rw [only_bind_iff, only_advanceReads_iff] at honly
    rw [value_bind, advanceReads_next] at hend
    obtain ⟨⟨-, hinode⟩, honly⟩ := honly
    exact ih (by omega) hend honly

theorem listReads_unsafe (ho : o < size) (hend : (listReads size n o).value bytes ≠ none)
    (honly : (listReads size n o).Only bytes (· < size)) : False := by
  induction n generalizing o with
  | zero => exact hend rfl
  | succ n ih =>
    rw [listReads, if_pos ho] at hend honly
    rw [only_bind_iff, only_bind_iff, only_bind_iff, only_advanceReads_iff,
      advanceReads_next] at honly
    rw [value_bind, value_bind, value_bind, advanceReads_next] at hend
    obtain ⟨-, ⟨-, hinode⟩, honly, -⟩ := honly
    apply ih (by omega) _ honly
    intro hnone
    rw [hnone] at hend
    exact hend rfl

/-- For every content of a block: ext2_search is safe exactly for the names that it finds
inside of the block, advance_to_last and a full listing never are. -/
theorem walks_safe_iff (hpos : 0 < size) :
    (∀ name, Safe bytes size (fun n => searchReads size name n 0) ↔
      FoundInside bytes size name 0) ∧
    ¬ Safe bytes size (fun n => lastReads size n 0 0) ∧
    ¬ Safe bytes size (fun n => listReads size n 0) := by
  refine ⟨?_, ?_, ?_⟩
  · intro name
    constructor
    · intro h
      obtain ⟨n, hend, honly⟩ := h
      exact searchReads_found hpos hend honly
    · intro h
      exact h.search
  · intro h
    obtain ⟨n, hend, honly⟩ := h
    exact lastReads_unsafe hpos hend honly
  · intro h
    obtain ⟨n, hend, honly⟩ := h
    exact listReads_unsafe hpos hend honly

/-- The second name of the sample block is found behind the first. -/
theorem walks_safe_sample :
    Safe (blockContents sample 0x12000) 1024 (fun n => searchReads 1024 [dot, dot] n 0) := by
  have h := @walks_safe_iff (blockContents sample 0x12000) 1024 (by decide)
  apply (h.1 [dot, dot]).mpr
  apply FoundInside.next (by decide) (fun hlen => absurd hlen (by decide)) (by decide)
  exact .here (by decide) (by decide) ⟨by decide, fun _ => ⟨by decide, fun _ => trivial⟩⟩
    ⟨by decide, by decide, trivial⟩

/-- In a block of zeros the walks stand still at the first entry, of size 0. -/
theorem zero_block_endless (n : Nat) :
    (searchReads 1024 [dot] n 0).value (fun _ => 0) = none ∧
      (lastReads 1024 n 0 0).value (fun _ => 0) = none ∧
      (listReads 1024 n 0).value (fun _ => 0) = none := by
  have hnext : (advanceReads 0).value (fun _ => 0) = 0 := rfl
  induction n with
  | zero => exact ⟨rfl, rfl, rfl⟩
  | succ n ih =>
    obtain ⟨hs, hl, hr⟩ := ih
    refine ⟨?_, ?_, ?_⟩
    · exact hs
    · exact hl
    · rw [listReads, if_pos (by decide), value_bind, value_bind, value_bind, hnext, hr]
      rfl

theorem zero_block_unsafe :
    ¬ Safe (fun _ => 0) 1024 (fun n => searchReads 1024 [dot] n 0) ∧
      ¬ Safe (fun _ => 0) 1024 (fun n => lastReads 1024 n 0 0) ∧
      ¬ Safe (fun _ => 0) 1024 (fun n => listReads 1024 n 0) := by
  refine ⟨?_, ?_, ?_⟩
  · intro h
    obtain ⟨n, hend, -⟩ := h
    exact hend (zero_block_endless n).1
  · intro h
    obtain ⟨n, hend, -⟩ := h
    exact hend (zero_block_endless n).2.1
  · intro h
    obtain ⟨n, hend, -⟩ := h
    exact hend (zero_block_endless n).2.2

end Bounds
end TapiOS.Fs.Ext2
