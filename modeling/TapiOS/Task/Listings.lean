import TapiOS.Fs.Readdir
import TapiOS.Task.DirectoryRuns

/-!
# Listings of open directories

_readdir next to the calls that open and close files. The openings of files are numbered,
and each number has a sequence of results of its own. The drivers know nothing of these
numbers: a listing is complete when nobody else moves the static variables meanwhile.
-/
namespace TapiOS.Task

open Lib Util Fs
open Fs.Ext2 (DirEntry Cursor Stands ext2Readdir)

/-- `ops` has the i_act->readdir and the superblock of each struct inode; `opening` is the
number of the call that opened the file at an address. -/
structure DirMachine where
  kernel : Kernel
  image : Mem
  ops : Word → Option DirOps
  cursor : Cursor
  devPrev : Word
  calls : Nat
  opening : Word → Nat

/-- _readdir, or a call that works on descriptors and leaves the image and the tables of
the inodes as it says. -/
inductive DirCall where
  | readdir (p : Nat) (fd : Int)
  | kernel (c : Call) (image : Mem) (ops : Word → Option DirOps)

namespace DirMachine

/-- vfs_readdir: the entry, or `none` for NULL. -/
def vfsReaddir (s : DirMachine) (p : Nat) (fd : Fd) :
    Except Fs.Stop (Option DirEntry × DirMachine) :=
  let f := s.kernel.fds p fd
  if f = 0 then .error .fault
  else
    let inode := (s.kernel.vfs.files f).inode
    if inode = 0 then .ok (none, s)
    else
      match s.ops inode with
      | none => .ok (none, s)
      | some (.ext2 sb) =>
        match ext2Readdir s.image sb (s.kernel.vfs.inodes inode).inodeNo inode s.cursor with
        | .error _ => .error .fault
        | .ok (e, cursor) => .ok (e, { s with cursor := cursor })
      | some .devfs =>
        let r := devfsReaddir s.kernel.vfs inode s.devPrev
        .ok (r.1, { s with devPrev := r.2 })

/-- The files that a call opened get its number. -/
def afterCall (s : DirMachine) (k : Kernel) (image : Mem) (ops : Word → Option DirOps) :
    DirMachine :=
  { s with
    kernel := k
    image := image
    ops := ops
    calls := s.calls + 1
    opening := fun f =>
      if f ∉ s.kernel.vfs.fileBlocks ∧ f ∈ k.vfs.fileBlocks then s.calls else s.opening f }

/-- _readdir returns the entry or -1, which is `none`. -/
def step (s : DirMachine) : DirCall → Except Fs.Stop (Option DirEntry × DirMachine)
  | .readdir p fd =>
    if s.kernel.procs ≤ p then .error .noProcess
    else
      match descriptor fd with
      | .error e => .error e
      | .ok i => s.vfsReaddir p i
  | .kernel c image ops =>
    match Task.step s.kernel c with
    | .error e => .error e
    | .ok (_, k) => .ok (none, s.afterCall k image ops)

/-- The opening that a call reads, and its inode. -/
def opened (s : DirMachine) : DirCall → Option (Nat × Word)
  | .readdir p fd =>
    match descriptor fd with
    | .error _ => none
    | .ok i =>
      if s.kernel.procs ≤ p ∨ s.kernel.fds p i = 0 then none
      else some (s.opening (s.kernel.fds p i), (s.kernel.vfs.files (s.kernel.fds p i)).inode)
  | .kernel _ _ _ => none

end DirMachine

abbrev DirStep := Transition DirMachine DirCall (Option DirEntry)

/-- The opening read by a step. -/
def reader (x : DirStep) : Option Nat := (x.pre.opened x.input).map Prod.fst

/-- The results of one opening. -/
def results (h : Nat) (tr : List DirStep) : List (Option DirEntry) :=
  (tr.filter fun x => decide (reader x = some h)).map (·.output)

inductive DirFs where
  | ext2
  | devfs
  deriving DecidableEq, Repr

/-- The static variables that a listing of the contents uses. -/
def fsOf : Contents → Option DirFs
  | .missing => none
  | .file => some .ext2
  | .block _ _ _ _ => some .ext2
  | .children _ _ => some .devfs

/-- What was opened. -/
structure Opened where
  node : Word
  contents : Contents

/-- The last opening on a file system that was read. -/
def lastRead (P : Nat → Opened) (fs : DirFs) (tr : List DirStep) : Option Nat :=
  ((tr.filterMap reader).filter fun h => decide (fsOf (P h).contents = some fs)).getLast?

/-- The inode that a call reads is the one opened, with the contents it had. -/
def Unchanged (P : Nat → Opened) (s : DirMachine) (c : DirCall) : Prop :=
  ∀ h node, s.opened c = some (h, node) → node = (P h).node ∧
    Shows s.image s.kernel.vfs (s.ops node) node (P h).contents

/-- A call reads an opening that did not report the end yet. For the first time it finds the
static variables free, and later it finds that nobody else read on the same file system
since its last call. -/
def Undisturbed (P : Nat → Opened) (past : List DirStep) (s : DirMachine) (c : DirCall) : Prop :=
  ∀ h node, s.opened c = some (h, node) → none ∉ results h past ∧
    (fsOf (P h).contents = some .ext2 → if results h past = [] then s.cursor.prevnode ≠ node
      else lastRead P .ext2 past = some h) ∧
    (fsOf (P h).contents = some .devfs → if results h past = [] then s.devPrev = 0
      else lastRead P .devfs past = some h)

/-- Every entry once and in order, then the end. -/
def Lists (es : List DirEntry) (rs : List (Option DirEntry)) : Prop :=
  rs <+: es.map some ++ [none]

section Results
variable {P : Nat → Opened} {h : Nat} {fs : DirFs} {past : List DirStep} {x : DirStep}
  {es : List DirEntry} {rs : List (Option DirEntry)}

theorem Lists.next (hl : Lists es rs) (hn : none ∉ rs) :
    rs.length ≤ es.length ∧ Lists es (rs ++ [es[rs.length]?]) := by
  obtain ⟨t, ht⟩ := hl
  have hle : rs.length ≤ es.length := by
    by_contra hlt
    have hlen := congrArg List.length ht
    simp only [List.length_append, List.length_map, List.length_singleton] at hlen
    have hnil : t = [] := List.eq_nil_of_length_eq_zero (by omega)
    rw [hnil, List.append_nil] at ht
    exact hn (by rw [ht]; simp)
  refine ⟨hle, t.tail, ?_⟩
  have hget := congrArg (fun l => l[rs.length]?) ht
  simp only [List.getElem?_append_right le_rfl, Nat.sub_self] at hget
  cases t with
  | nil =>
    have hlen := congrArg List.length ht
    simp at hlen
    omega
  | cons a t =>
    have ha : a = es[rs.length]? := by
      rcases Nat.lt_or_eq_of_le hle with hlt | heq
      · rw [List.getElem?_append_left (by simpa using hlt), List.getElem?_map,
          List.getElem?_eq_getElem hlt] at hget
        rw [List.getElem?_eq_getElem hlt]
        simpa using hget
      · rw [heq] at hget
        rw [heq]
        simpa using hget
    rw [← ha, ← ht]
    simp

theorem results_snoc (h : Nat) (past : List DirStep) (x : DirStep) :
    results h (past ++ [x]) = results h past ++ if reader x = some h then [x.output] else [] := by
  unfold results
  by_cases hx : reader x = some h
  · simp [hx]
  · simp [hx]

theorem lastRead_snoc_same {h : Nat} (hx : reader x = some h)
    (hf : fsOf (P h).contents = some fs) : lastRead P fs (past ++ [x]) = some h := by
  unfold lastRead
  rw [List.filterMap_append, List.filter_append]
  simp [hx, hf]

theorem lastRead_snoc_other (hx : ∀ h, reader x = some h → fsOf (P h).contents ≠ some fs) :
    lastRead P fs (past ++ [x]) = lastRead P fs past := by
  unfold lastRead
  cases hr : reader x with
  | none => simp [hr]
  | some h => simp [hr, hx h hr]

theorem lastRead_fs (hl : lastRead P fs past = some h) : fsOf (P h).contents = some fs := by
  have hm := List.mem_of_getLast? hl
  exact of_decide_eq_true (List.mem_filter.mp hm).2

end Results

/-- Where the listings stand after the calls `past`: the last opening read on a file system
has the static variables, in front of the entry it is to get next. -/
structure Tracked (P : Nat → Opened) (s : DirMachine) (past : List DirStep) : Prop where
  lists : ∀ h, Lists (P h).contents.entries (results h past)
  ext2 : ∀ h, lastRead P .ext2 past = some h → none ∉ results h past →
    ∃ size base bytes es, (P h).contents = .block size base bytes es ∧
      Stands bytes size base (P h).node (es.drop (results h past).length) s.cursor
  devfs : ∀ h, lastRead P .devfs past = some h → none ∉ results h past →
    ∃ ss es, (P h).contents = .children ss es ∧
      ss[(results h past).length - 1]? = some s.devPrev

/-- What the `n`-th call that reads an opening does: it moves the static variables of its
file system only, and behind an entry they are in front of the next one. -/
structure ReadsNext (o : Opened) (n : Nat) (s s' : DirMachine) : Prop where
  cursor : fsOf o.contents ≠ some .ext2 → s'.cursor = s.cursor
  devPrev : fsOf o.contents ≠ some .devfs → s'.devPrev = s.devPrev
  ext2 : fsOf o.contents = some .ext2 → o.contents.entries[n]? ≠ none →
    ∃ size base bytes es, o.contents = .block size base bytes es ∧
      Stands bytes size base o.node (es.drop (n + 1)) s'.cursor
  devfs : fsOf o.contents = some .devfs → o.contents.entries[n]? ≠ none →
    ∃ ss es, o.contents = .children ss es ∧ ss[n]? = some s'.devPrev

section Read
variable {P : Nat → Opened} {s : DirMachine} {past : List DirStep} {h n : Nat} {node : Word}
  {c : DirCall}

theorem opened_readdir (ho : s.opened c = some (h, node)) :
    ∃ p i, s.step c = s.vfsReaddir p i ∧ s.kernel.fds p i ≠ 0 ∧
      node = (s.kernel.vfs.files (s.kernel.fds p i)).inode := by
  cases c with
  | kernel c image ops => cases ho
  | readdir p fd =>
    simp only [DirMachine.opened] at ho
    cases hd : descriptor fd with
    | error e =>
      rw [hd] at ho
      cases ho
    | ok i =>
      rw [hd] at ho
      dsimp only at ho
      split_ifs at ho with hbad
      rw [not_or] at hbad
      cases ho
      refine ⟨p, i, ?_, hbad.2, rfl⟩
      rw [DirMachine.step, if_neg hbad.1, hd]

theorem step_missing (ho : s.opened c = some (h, node)) (hm : node = 0 ∨ s.ops node = none) :
    s.step c = .ok (none, s) := by
  obtain ⟨p, i, hstep, hf, rfl⟩ := opened_readdir ho
  rw [hstep, DirMachine.vfsReaddir, if_neg hf]
  by_cases h0 : (s.kernel.vfs.files (s.kernel.fds p i)).inode = 0
  · rw [if_pos h0]
  · rw [if_neg h0, hm.resolve_left h0]

variable {r : Option DirEntry}

theorem step_ext2 (ho : s.opened c = some (h, node)) (h0 : node ≠ 0) {sb : Word}
    (hops : s.ops node = some (.ext2 sb)) {cursor : Cursor}
    (hr : ext2Readdir s.image sb (s.kernel.vfs.inodes node).inodeNo node s.cursor =
      .ok (r, cursor)) : s.step c = .ok (r, { s with cursor := cursor }) := by
  obtain ⟨p, i, hstep, hf, rfl⟩ := opened_readdir ho
  rw [hstep, DirMachine.vfsReaddir, if_neg hf, if_neg h0, hops]
  dsimp only
  rw [hr]

theorem step_devfs (ho : s.opened c = some (h, node)) (h0 : node ≠ 0)
    (hops : s.ops node = some .devfs) {prev : Word}
    (hr : devfsReaddir s.kernel.vfs node s.devPrev = (r, prev)) :
    s.step c = .ok (r, { s with devPrev := prev }) := by
  obtain ⟨p, i, hstep, hf, rfl⟩ := opened_readdir ho
  rw [hstep, DirMachine.vfsReaddir, if_neg hf, if_neg h0, hops]
  rw [hr]

section Reads
variable (hs : Tracked P s past) (hend : none ∉ results h past)
  (hshow : Shows s.image s.kernel.vfs (s.ops (P h).node) (P h).node (P h).contents)
  (ho : s.opened c = some (h, (P h).node)) {es : List DirEntry}
include hs hend hshow ho

/-- The next entry of a block: from its start when the variables belong to another inode,
from where they are when they are this opening's. -/
theorem Tracked.read_block {size base : Word} {bytes : Mem}
    (hc : (P h).contents = .block size base bytes es)
    (hfree : if results h past = [] then s.cursor.prevnode ≠ (P h).node
      else lastRead P .ext2 past = some h) :
    ∃ s', s.step c = .ok (es[(results h past).length]?, s') ∧
      ReadsNext (P h) (results h past).length s s' := by
  rw [hc] at hshow
  cases hshow with
  | @block sb inode _ _ _ _ h0 hops hi hdir hsize hbase hone hnull hbytes hes hused =>
  have hread : ∃ cursor,
      ext2Readdir s.image sb (s.kernel.vfs.inodes (P h).node).inodeNo (P h).node s.cursor =
        .ok ((es.drop (results h past).length).head?, cursor) ∧
      (es.drop (results h past).length ≠ [] →
        Stands bytes size base (P h).node (es.drop (results h past).length).tail cursor) := by
    by_cases hnil : results h past = []
    · rw [if_pos hnil] at hfree
      rw [hnil]
      exact Ext2.ext2Readdir_start hfree hi hdir hsize hbase hnull hbytes hes
    · rw [if_neg hnil] at hfree
      obtain ⟨_, _, _, _, hb, hst⟩ := hs.ext2 h hfree hend
      rw [hc] at hb
      cases hb
      exact hst.read hsize hnull hbytes
  obtain ⟨cursor, hr, hst⟩ := hread
  rw [List.head?_drop] at hr
  refine ⟨_, step_ext2 ho h0 hops hr, ?_, fun _ => rfl, fun _ hne => ?_, ?_⟩
  · rw [hc]
    exact fun hne => absurd rfl hne
  · refine ⟨size, base, bytes, es, hc, ?_⟩
    rw [hc] at hne
    rw [← List.tail_drop]
    refine hst fun hnil => hne ?_
    rw [← List.head?_drop]
    exact congrArg List.head? hnil
  · rw [hc]
    intro hf
    cases hf

theorem Tracked.read_children {ss : List Word} (hc : (P h).contents = .children ss es)
    (hfree : if results h past = [] then s.devPrev = 0 else lastRead P .devfs past = some h) :
    ∃ s', s.step c = .ok (es[(results h past).length]?, s') ∧
      ReadsNext (P h) (results h past).length s s' := by
  have hprev : if (results h past).length = 0 then s.devPrev = 0
      else ss[(results h past).length - 1]? = some s.devPrev := by
    by_cases hnil : results h past = []
    · rw [if_pos hnil] at hfree
      rw [hnil]
      exact hfree
    · rw [if_neg hnil] at hfree
      obtain ⟨_, _, hch, hst⟩ := hs.devfs h hfree hend
      rw [hc] at hch
      cases hch
      rw [if_neg (fun hz => hnil (List.eq_nil_of_length_eq_zero hz))]
      exact hst
  rw [hc] at hshow
  cases hshow with
  | children h0 hops hk =>
  refine ⟨_, step_devfs ho h0 hops (devfsReaddir_next hk hprev), fun _ => rfl, ?_, ?_,
    fun _ hne => ⟨_, _, hc, ?_⟩⟩
  · rw [hc]
    exact fun hne => absurd rfl hne
  · rw [hc]
    intro hf
    cases hf
  · rw [hc, Contents.entries] at hne
    cases hn : ss[(results h past).length]? with
    | none => simp [hn] at hne
    | some a => rfl

end Reads

/-- A call under the two conditions returns the next entry of its own directory. -/
theorem Tracked.read (hs : Tracked P s past) (hu : Unchanged P s c) (hd : Undisturbed P past s c)
    (ho : s.opened c = some (h, node)) :
    ∃ s', s.step c = .ok ((P h).contents.entries[(results h past).length]?, s') ∧
      ReadsNext (P h) (results h past).length s s' := by
  obtain ⟨rfl, hshow⟩ := hu h node ho
  obtain ⟨hend, hext2, hdevfs⟩ := hd h _ ho
  cases hc : (P h).contents with
  | missing =>
    rw [hc] at hshow
    cases hshow with
    | missing hm =>
    refine ⟨s, step_missing ho hm, fun _ => rfl, fun _ => rfl, ?_, ?_⟩ <;>
    · rw [hc]
      intro hf
      cases hf
  | file =>
    rw [hc] at hshow hext2
    cases hshow with
    | file h0 hops hi hdir =>
    have hfree := hext2 rfl
    -- the one result of a file is the end
    have hnil : results h past = [] := by
      by_contra hne
      rw [if_neg hne] at hfree
      obtain ⟨_, _, _, _, hb, -⟩ := hs.ext2 h hfree hend
      rw [hc] at hb
      cases hb
    rw [if_pos hnil] at hfree
    refine ⟨_, step_ext2 ho h0 hops (Ext2.ext2Readdir_file hfree hi hdir), ?_, fun _ => rfl, ?_, ?_⟩
    · rw [hc]
      exact fun hne => absurd rfl hne
    · rw [hc]
      exact fun _ hne => absurd rfl hne
    · rw [hc]
      intro hf
      cases hf
  | block size base bytes es =>
    exact hs.read_block hend hshow ho hc (hext2 (by rw [hc]; rfl))
  | children ss es =>
    exact hs.read_children hend hshow ho hc (hdevfs (by rw [hc]; rfl))

theorem step_readdir_ok {p : Nat} {fd : Int} {s' : DirMachine}
    (hs : s.step (.readdir p fd) = .ok (r, s')) : ∃ i, ¬s.kernel.procs ≤ p ∧
      descriptor fd = .ok i ∧ s.kernel.fds p i ≠ 0 ∧ s.vfsReaddir p i = .ok (r, s') := by
  simp only [DirMachine.step] at hs
  split_ifs at hs with hp
  split at hs
  · cases hs
  · rename_i i hd
    refine ⟨i, hp, hd, fun hf => ?_, hs⟩
    rw [DirMachine.vfsReaddir, if_pos hf] at hs
    cases hs

theorem step_unread {s' : DirMachine} (ho : s.opened c = none)
    (hs : s.step c = .ok (r, s')) : s'.cursor = s.cursor ∧ s'.devPrev = s.devPrev := by
  cases c with
  | kernel c image ops =>
    simp only [DirMachine.step] at hs
    split at hs
    · cases hs
    · cases hs
      exact ⟨rfl, rfl⟩
  | readdir p fd =>
    obtain ⟨i, hp, hd, hf, -⟩ := step_readdir_ok hs
    simp only [DirMachine.opened, hd, if_neg (not_or.mpr ⟨hp, hf⟩)] at ho
    cases ho

end Read

section Runs
variable {P : Nat → Opened} {s : DirMachine} {past : List DirStep} {x : DirStep}

theorem Tracked.start (P : Nat → Opened) (s : DirMachine) : Tracked P s [] where
  lists h := ⟨_, rfl⟩
  ext2 h hl := by cases hl
  devfs h hl := by cases hl

theorem Tracked.unread (hs : Tracked P x.pre past) (ho : x.pre.opened x.input = none)
    (hx : x.pre.step x.input = .ok (x.output, x.post)) : Tracked P x.post (past ++ [x]) := by
  obtain ⟨hcur, hdev⟩ := step_unread ho hx
  have hr : reader x = none := by rw [reader, ho, Option.map_none]
  have hres : ∀ h, results h (past ++ [x]) = results h past := by
    intro h
    rw [results_snoc, hr, if_neg (by simp), List.append_nil]
  have hlast : ∀ fs, lastRead P fs (past ++ [x]) = lastRead P fs past := fun fs =>
    lastRead_snoc_other fun h hh => by rw [hr] at hh; cases hh
  refine ⟨fun h => ?_, fun h => ?_, fun h => ?_⟩
  · rw [hres]
    exact hs.lists h
  · rw [hres, hlast, hcur]
    exact hs.ext2 h
  · rw [hres, hlast, hdev]
    exact hs.devfs h

/-- A step that reads an opening: its results grow by the next entry, those of the others
do not change, and on the other file system everything stands where it did. -/
theorem Tracked.step (hs : Tracked P x.pre past) (hu : Unchanged P x.pre x.input)
    (hd : Undisturbed P past x.pre x.input)
    (hx : x.pre.step x.input = .ok (x.output, x.post)) : Tracked P x.post (past ++ [x]) := by
  cases ho : x.pre.opened x.input with
  | none => exact hs.unread ho hx
  | some r =>
  obtain ⟨g, node⟩ := r
  obtain ⟨s', hstep, hn⟩ := hs.read hu hd ho
  rw [hstep] at hx
  obtain ⟨hout, hpost⟩ := Prod.mk.inj (Except.ok.inj hx)
  rw [hpost] at hn
  have hr : reader x = some g := by rw [reader, ho, Option.map_some]
  have hend := (hd g node ho).1
  obtain ⟨hle, hnext⟩ := (hs.lists g).next hend
  have hown : results g (past ++ [x]) = results g past ++ [x.output] := by
    rw [results_snoc, if_pos hr]
  have hother : ∀ h, h ≠ g → results h (past ++ [x]) = results h past := by
    intro h hne
    rw [results_snoc, hr, if_neg (fun he => hne (Option.some.inj he).symm), List.append_nil]
  have hlast : ∀ fs, fsOf (P g).contents ≠ some fs →
      lastRead P fs (past ++ [x]) = lastRead P fs past := fun fs hf =>
    lastRead_snoc_other fun h hh => by
      rw [hr] at hh
      cases hh
      exact hf
  refine ⟨fun h => ?_, fun h hl hnone => ?_, fun h hl hnone => ?_⟩
  · by_cases hg : h = g
    · subst hg
      rw [hown, ← hout]
      exact hnext
    · rw [hother h hg]
      exact hs.lists h
  · by_cases hf : fsOf (P g).contents = some .ext2
    · rw [lastRead_snoc_same hr hf] at hl
      cases hl
      rw [hown, List.mem_append, List.mem_singleton, not_or] at hnone
      rw [hown, List.length_append]
      exact hn.ext2 hf (by rw [hout]; exact Ne.symm hnone.2)
    · rw [hlast _ hf] at hl
      have hg : h ≠ g := fun he => hf (he ▸ lastRead_fs hl)
      rw [hother h hg] at hnone ⊢
      rw [hn.cursor hf]
      exact hs.ext2 h hl hnone
  · by_cases hf : fsOf (P g).contents = some .devfs
    · rw [lastRead_snoc_same hr hf] at hl
      cases hl
      rw [hown, List.mem_append, List.mem_singleton, not_or] at hnone
      rw [hown, List.length_append]
      exact hn.devfs hf (by rw [hout]; exact Ne.symm hnone.2)
    · rw [hlast _ hf] at hl
      have hg : h ≠ g := fun he => hf (he ▸ lastRead_fs hl)
      rw [hother h hg] at hnone ⊢
      rw [hn.devPrev hf]
      exact hs.devfs h hl hnone

/-- In every run in which no opened directory changes and no listing is disturbed, each
opening gets its entries once and in order and then the end; a further call under these
conditions returns. -/
theorem listings_undisturbed {calls : List DirCall} {tr : List DirStep}
    (hrun : run DirMachine.step s calls = some tr) (hu : ∀ x ∈ tr, Unchanged P x.pre x.input)
    (hd : ∀ before x after, tr = before ++ x :: after → Undisturbed P before x.pre x.input) :
    (∀ h, Lists (P h).contents.entries (results h tr)) ∧
    ∀ c h node, (lastState s tr).opened c = some (h, node) → Unchanged P (lastState s tr) c →
      Undisturbed P tr (lastState s tr) c →
      ∃ t, (lastState s tr).step c = .ok ((P h).contents.entries[(results h tr).length]?, t) := by
  have hinv := run_history_under (R := Tracked P)
    (C := fun past x => Unchanged P x.pre x.input ∧ Undisturbed P past x.pre x.input)
    (fun x past hs hc hx => hs.step hc.1 hc.2 hx) hrun (.start P s)
    (fun before x after he => ⟨hu x (by rw [he]; simp), hd before x after he⟩) tr []
    (List.append_nil tr).symm
  refine ⟨hinv.lists, fun c h node ho hcu hcd => ?_⟩
  obtain ⟨t, ht, -⟩ := hinv.read hcu hcd ho
  exact ⟨t, ht⟩

end Runs

/-! An ext2 root with the entries "." and ".." and a devfs with two devices mounted on
"/dev", both opened by one process. -/

/-- "dev" -/
def devName : Text := [0x64, 0x65, 0x76]

def devInodes (a : Word) : Inode :=
  if a = 0x1000 then ⟨2, [], ext2Acts, 0, 0x1100, 0⟩
  else if a = 0x1100 then ⟨0, devName, ext2Acts, 0x1000, 0x1200, 0⟩
  else if a = 0x1200 then ⟨0x10000, [0x61], ext2Acts, 0x1100, 0, 0x1300⟩
  else ⟨0x20000, [0x62], ext2Acts, 0x1100, 0, 0⟩

def devOps (a : Word) : Option DirOps :=
  if a = 0x1000 then some (.ext2 0xC0200400) else some .devfs

def devMachine : DirMachine where
  kernel := ⟨⟨devInodes, fun _ => ⟨0, 0, 0⟩, 0x1000, [0x1000, 0x1100, 0x1200, 0x1300], [], []⟩, 1,
    fun _ _ => 0, fun _ => [slash]⟩
  image := Ext2.freshSeed.image
  ops := devOps
  cursor := ⟨0, 0, 0⟩
  devPrev := 0
  calls := 0
  opening := fun _ => 0

/-- _open of a path, with the file at `f`. -/
def openListing (path : Text) (f : Word) : DirCall :=
  .kernel (.openFile openOnly [f] 0 path 0) Ext2.freshSeed.image devOps

def rootOpened : Opened := ⟨0x1000, .block 2048#32 0xC0204000 Ext2.freshSeed.image
  [⟨2#32, [dot]⟩, ⟨2#32, [dot, dot]⟩]⟩

def devOpened : Opened :=
  ⟨0x1100, .children [0x1200, 0x1300] [⟨0x10000, [0x61]⟩, ⟨0x20000, [0x62]⟩]⟩

/-- The inodes, the image and the tables are still those of the start. -/
def AsMounted (s : DirMachine) : Prop :=
  s.image = Ext2.freshSeed.image ∧ s.ops = devOps ∧
    ∀ a ∈ [0x1000, 0x1100, 0x1200, 0x1300], s.kernel.vfs.inodes a = devInodes a

theorem rootOpened_shows {s : DirMachine} (h : AsMounted s) :
    Shows s.image s.kernel.vfs (s.ops 0x1000) 0x1000 rootOpened.contents := by
  obtain ⟨himage, hops, hinodes⟩ := h
  rw [himage, hops]
  have hi : Ext2.readInode Ext2.freshSeed.image 0xC0200400 (s.kernel.vfs.inodes 0x1000).inodeNo =
      .ok (Ext2.smallLayout.recordAddr 2) := by
    rw [hinodes 0x1000 (by simp)]
    exact Ext2.freshSeed.image_describes.readInode_eq (L := Ext2.smallGeometry)
      Ext2.smallGeometry_plain (n := 2) ⟨by decide, by decide⟩
  have hnull : 0#32 ∉ span 0xC0204000#32 (2048#32).toNat := by
    rw [mem_span]
    decide
  exact .block (by decide) rfl hi (by decide) (by decide) (by decide)
    (by decide +kernel) hnull (Set.eqOn_refl _ _) freshSeed_entries (by simp)

theorem devOpened_shows {s : DirMachine} (h : AsMounted s) :
    Shows s.image s.kernel.vfs (s.ops 0x1100) 0x1100 devOpened.contents := by
  obtain ⟨-, hops, hinodes⟩ := h
  have h2 := hinodes 0x1200 (by simp)
  have h3 := hinodes 0x1300 (by simp)
  have hk : Kids s.kernel.vfs 0x1100 [0x1200, 0x1300] := by
    have e1 : (s.kernel.vfs.inodes 0x1100).children = 0x1200 := by
      rw [hinodes 0x1100 (by simp)]
      rfl
    have e2 : (s.kernel.vfs.inodes 0x1200).siblings = 0x1300 := by
      rw [h2]
      rfl
    have e3 : (s.kernel.vfs.inodes 0x1300).siblings = 0 := by
      rw [h3]
      rfl
    exact ⟨e1, by decide, e2, by decide, e3⟩
  have hshow : Shows s.image s.kernel.vfs (s.ops 0x1100) 0x1100 _ :=
    .children (by decide) (by rw [hops]; rfl) hk
  rw [List.map_cons, List.map_singleton, h2, h3] at hshow
  exact hshow

instance (P : Nat → Opened) (past : List DirStep) (s : DirMachine) (c : DirCall) :
    Decidable (Undisturbed P past s c) :=
  match ho : s.opened c with
  | none => .isTrue fun h node he => by rw [ho] at he; cases he
  | some (h, node) =>
    decidable_of_iff (none ∉ results h past ∧
      (fsOf (P h).contents = some .ext2 → if results h past = [] then s.cursor.prevnode ≠ node
        else lastRead P .ext2 past = some h) ∧
      (fsOf (P h).contents = some .devfs → if results h past = [] then s.devPrev = 0
        else lastRead P .devfs past = some h))
      ⟨fun hc h' node' he => by
        rw [ho] at he
        cases he
        exact hc, fun hc => hc h node ho⟩

theorem step_readdir_keeps {s s' : DirMachine} {p : Nat} {fd : Int} {r : Option DirEntry}
    (h : s.step (.readdir p fd) = .ok (r, s')) : s'.image = s.image ∧ s'.ops = s.ops := by
  obtain ⟨i, -, -, hf, hr⟩ := step_readdir_ok h
  simp only [DirMachine.vfsReaddir, if_neg hf] at hr
  split_ifs at hr
  · cases hr
    exact ⟨rfl, rfl⟩
  · split at hr
    · cases hr
      exact ⟨rfl, rfl⟩
    · split at hr
      · cases hr
      · cases hr
        exact ⟨rfl, rfl⟩
    · cases hr
      exact ⟨rfl, rfl⟩

/-- What a step shows when it is evaluated: the inodes of the start, and the node opened. -/
def Keeps (P : Nat → Opened) (x : DirStep) : Prop :=
  (∀ a ∈ [0x1000, 0x1100, 0x1200, 0x1300], x.pre.kernel.vfs.inodes a = devInodes a) ∧
    ∀ r ∈ x.pre.opened x.input, r.2 = (P r.1).node

instance (P : Nat → Opened) : DecidablePred (Keeps P) := fun _ =>
  @instDecidableAnd _ _ (List.decidableBAll _ _) inferInstance

/-- In a run of openings and readings the inodes tested at every step are those opened. -/
theorem mounted_unchanged {P : Nat → Opened} {calls : List DirCall} {tr : List DirStep}
    (hP : ∀ s, AsMounted s → ∀ h, Shows s.image s.kernel.vfs (s.ops (P h).node) (P h).node
      (P h).contents)
    (hrun : run DirMachine.step devMachine calls = some tr)
    (hcalls : ∀ c ∈ calls, (∃ path f, c = openListing path f) ∨ ∃ p fd, c = .readdir p fd)
    (htest : ∀ x ∈ tr, Keeps P x) : ∀ x ∈ tr, Unchanged P x.pre x.input := by
  have hkept := run_invariant (I := fun s : DirMachine =>
      s.image = Ext2.freshSeed.image ∧ s.ops = devOps)
    (C := fun _ c => (∃ path f, c = openListing path f) ∨ ∃ p fd, c = .readdir p fd)
    (fun s c r t hi hc hs => by
      rcases hc with ⟨path, f, rfl⟩ | ⟨p, fd, rfl⟩
      · simp only [DirMachine.step, openListing] at hs
        split at hs
        · cases hs
        · cases hs
          exact ⟨rfl, rfl⟩
      · obtain ⟨h1, h2⟩ := step_readdir_keeps hs
        rwa [h1, h2]) hrun ⟨rfl, rfl⟩ (fun x hx => hcalls _ (run_input hrun x hx))
  intro x hx h node ho
  obtain ⟨himage, hops⟩ := (hkept x hx).1
  obtain rfl : node = (P h).node := (htest x hx).2 (h, node) ho
  exact ⟨rfl, hP x.pre ⟨himage, hops, (htest x hx).1⟩ h⟩

def twoListings : List DirCall :=
  [openListing [slash] 0x2000, openListing (slash :: devName) 0x3000, .readdir 0 0, .readdir 0 1,
    .readdir 0 0, .readdir 0 1, .readdir 0 0, .readdir 0 1]

def rootAndDev (h : Nat) : Opened := if h = 0 then rootOpened else devOpened

/-- Listings on the two file systems do not meet, also when their calls alternate. -/
theorem listings_undisturbed_rootAndDev :
    ∃ tr, run DirMachine.step devMachine twoListings = some tr ∧
      results 0 tr = rootOpened.contents.entries.map some ++ [none] ∧
      results 1 tr = devOpened.contents.entries.map some ++ [none] ∧
      ∀ h, Lists (rootAndDev h).contents.entries (results h tr) := by
  have hshows : ∀ s, AsMounted s → ∀ h, Shows s.image s.kernel.vfs (s.ops (rootAndDev h).node)
      (rootAndDev h).node (rootAndDev h).contents := by
    intro s hs h
    unfold rootAndDev
    by_cases h0 : h = 0
    · rw [if_pos h0]
      exact rootOpened_shows hs
    · rw [if_neg h0]
      exact devOpened_shows hs
  refine run_test (fun tr => (∀ x ∈ tr, Keeps rootAndDev x) ∧
    allWithPast (fun past x => decide (Undisturbed rootAndDev past x.pre x.input)) [] tr ∧
    results 0 tr = rootOpened.contents.entries.map some ++ [none] ∧
    results 1 tr = devOpened.contents.entries.map some ++ [none]) (by decide +kernel) ?_
  intro tr hr ht
  obtain ⟨htest, hund, hroot, hdev⟩ := ht
  refine ⟨hroot, hdev, (listings_undisturbed hr (mounted_unchanged hshows hr ?_ htest)
    fun before x after he => ?_).1⟩
  · simp [twoListings]
  · exact of_decide_eq_true (allWithPast_split hund before x after he)

/-- Two openings of the same devfs: the second one does not get the first entry. -/
theorem devfs_listings_mixed :
    ∃ tr, run DirMachine.step devMachine [openListing (slash :: devName) 0x2000,
        openListing (slash :: devName) 0x3000, .readdir 0 0, .readdir 0 1] = some tr ∧
      (∀ x ∈ tr, Unchanged (fun _ => devOpened) x.pre x.input) ∧
      results 0 tr = [some ⟨0x10000, [0x61]⟩] ∧ results 1 tr = [some ⟨0x20000, [0x62]⟩] ∧
      ¬Lists devOpened.contents.entries (results 1 tr) := by
  refine run_test (fun tr => (∀ x ∈ tr, Keeps (fun _ => devOpened) x) ∧
    results 0 tr = [some ⟨0x10000, [0x61]⟩] ∧ results 1 tr = [some ⟨0x20000, [0x62]⟩])
    (by decide) ?_
  intro tr hr ht
  obtain ⟨htest, h0, h1⟩ := ht
  refine ⟨mounted_unchanged (fun s hs _ => devOpened_shows hs) hr (by simp) htest, h0, h1, ?_⟩
  rw [h1]
  intro hl
  obtain ⟨rest, hrest⟩ := hl
  have hhead := (List.cons.inj hrest).1
  exact absurd hhead (by decide)

end TapiOS.Task
