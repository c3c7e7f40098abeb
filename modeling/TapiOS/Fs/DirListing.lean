import TapiOS.Fs.DirInsert
import TapiOS.Fs.Readdir

/-!
# A listing and a search of the same directory

ext2_readdir is called until it returns NULL, with its place in static variables and the
entry in the global dirent; ext2_search walks the block on its own. For entries of any
nonzero sizes that tile the block both go through the same list.
-/
namespace TapiOS.Fs.Ext2

open Util

/-- struct dirent -/
structure Dirent where
  dIno : Word
  dName : Chars

/-- The number, the copied name and its terminator; the bytes behind it stay. -/
def fillDirent (dirent : Dirent) (e : DirEntry) : Dirent := ⟨e.inode, chars e.name dirent.dName⟩

/-- Calls of ext2_readdir until it returns NULL: the dirent after each of the others. -/
def listing (m : Mem) (sb inodeNo node : Word) : Nat → Cursor → Dirent → Except Stop (List Dirent)
  | 0, _, _ => .error .endless
  | n + 1, s, dirent =>
    match ext2Readdir m sb inodeNo node s with
    | .error e => .error e
    | .ok (none, _) => .ok []
    | .ok (some e, s) =>
      match listing m sb inodeNo node n s (fillDirent dirent e) with
      | .error e => .error e
      | .ok rest => .ok (fillDirent dirent e :: rest)

/-- The dirents that these entries leave one after the other. -/
def dirents : Dirent → List DirEntry → List Dirent
  | _, [] => []
  | dirent, e :: es => fillDirent dirent e :: dirents (fillDirent dirent e) es

/-- A dirent shows the entry, its name ended by NUL. -/
def ShowsEntry (dirent : Dirent) (e : DirEntry) : Prop :=
  dirent.dIno = e.inode ∧ Spells dirent.dName e.name

theorem dirents_show {es : List DirEntry} (h : ∀ e ∈ es, 0 ∉ e.name) (dirent : Dirent) :
    List.Forall₂ ShowsEntry (dirents dirent es) es := by
  induction es generalizing dirent with
  | nil => exact .nil
  | cons e es ih =>
    apply List.Forall₂.cons
    · exact ⟨rfl, chars_spells (h e (.head _)) _⟩
    · exact ih (fun x hx => h x (.tail _ hx)) _

section Listing
variable {m : Mem} {sb inodeNo inode base node : Word} {es : List DirEntry} {s : Cursor} {lo : Nat}

theorem ext2Readdir_next {d : Word} (hin : insideDir d base (BLOCKSIZE m sb)) :
    ext2Readdir m sb inodeNo node ⟨base, d, node⟩ =
      .ok (some (dirEntry m d), ⟨base, advance m d, node⟩) := by
  unfold ext2Readdir
  rw [if_pos rfl, if_pos hin]

theorem ext2Readdir_end {d : Word} (hin : ¬ insideDir d base (BLOCKSIZE m sb)) :
    ext2Readdir m sb inodeNo node ⟨base, d, node⟩ = .ok (none, ⟨0, 0, 0⟩) := by
  unfold ext2Readdir
  rw [if_pos rfl, if_neg hin]

variable (inodeNo node) in
theorem listing_rest (hnull : 0#32 ∉ span base (BLOCKSIZE m sb).toNat)
    (hes : Tiles m base lo (BLOCKSIZE m sb).toNat es) {n : Nat} (hn : es.length < n)
    (dirent : Dirent) :
    listing m sb inodeNo node n ⟨base, base + BitVec.ofNat 32 lo, node⟩ dirent =
      .ok (dirents dirent es) := by
  induction es generalizing lo n dirent with
  | nil =>
    obtain ⟨n, rfl⟩ := Nat.exists_eq_succ_of_ne_zero (by omega : n ≠ 0)
    rw [listing, ext2Readdir_end (fun h => (hes.inside hnull).mp h rfl)]
    rfl
  | cons e es ih =>
    obtain ⟨n, rfl⟩ := Nat.exists_eq_succ_of_ne_zero (by omega : n ≠ 0)
    rw [listing, ext2Readdir_next ((hes.inside hnull).mpr (List.cons_ne_nil e es))]
    cases hes with
    | @cons _ _ d _ hd hpos hrest =>
      rw [List.length_cons] at hn
      rw [← hd, advance_eq hd]
      dsimp only
      rw [ih hrest (by omega)]
      rfl

theorem listing_start (hdir : DirectoryAt m sb inodeNo inode base) (hs : s.prevnode ≠ node)
    (hin : insideDir base base (BLOCKSIZE m sb)) (n : Nat) (dirent : Dirent) :
    listing m sb inodeNo node n s dirent = listing m sb inodeNo node n ⟨base, base, node⟩ dirent := by
  cases n with
  | zero => rfl
  | succ n =>
    have hfirst : ext2Readdir m sb inodeNo node s =
        .ok (some (dirEntry m base), ⟨base, advance m base, node⟩) := by
      unfold ext2Readdir
      rw [if_neg hs, hdir.record]
      dsimp only
      rw [if_neg (by simp [hdir.isDir]), hdir.block, if_pos hin]
    rw [listing, listing, hfirst, ext2Readdir_next hin]

/-- A listing of a directory whose block is tiled shows its entries in order, and
ext2_search finds the first of them with a name, or NULL if there is none. -/
theorem listing_search_agree (hdir : DirectoryAt m sb inodeNo inode base)
    (hnull : 0#32 ∉ span base (BLOCKSIZE m sb).toNat)
    (hes : Tiles m base 0 (BLOCKSIZE m sb).toNat es) (hne : es ≠ [])
    (hnames : ∀ e ∈ es, 0 ∉ e.name) (hs : s.prevnode ≠ node) (dirent : Dirent) :
    (∃ shown, List.Forall₂ ShowsEntry shown es ∧
      ∀ n, es.length < n → listing m sb inodeNo node n s dirent = .ok shown) ∧
    ∀ name, (ext2Search m sb inodeNo name = .ok none ↔ ∀ e ∈ es, e.name ≠ name) ∧
      ∀ before e behind, es = before ++ e :: behind → e.name = name →
        (∀ x ∈ before, x.name ≠ name) → ext2Search m sb inodeNo name = .ok (some e) := by
  have hin := (hes.inside hnull).mpr hne
  rw [BitVec.add_zero] at hin
  constructor
  · refine ⟨dirents dirent es, dirents_show hnames dirent, ?_⟩
    intro n hn
    have hall := listing_rest inodeNo node hnull hes hn dirent
    rw [BitVec.add_zero] at hall
    rw [listing_start hdir hs hin, hall]
  · intro name
    rw [hdir.search hnull hes name]
    constructor
    · simp
    · intro before e behind hsplit he hbefore
      rw [hsplit, List.find?_append, List.find?_eq_none.mpr (by simpa using hbefore)]
      simp [he]

/-- The directory of the sample image. -/
theorem listing_search_agree_sample :
    ext2Search sample 0x10400 1 [dot, dot] = .ok (some ⟨1, [dot, dot]⟩) := by
  have h := @listing_search_agree sample 0x10400 1 0x11000 0x12000 0x5000 _ ⟨0, 0, 0⟩
    sample_directory sample_null sample_entries.tiles (by decide) (by decide) (by decide) ⟨0, fun _ => 0⟩
  exact (h.2 [dot, dot]).2 [⟨1, [dot]⟩] _ [] rfl rfl (by decide)

end Listing
end TapiOS.Fs.Ext2
