import TapiOS.Task.ProcessTree

/-!
# Runs of insertions and deletions

The searches see the children of the spine only, so a process is found as long as nothing
is inserted below a node beside the spine. A deletion cuts the list of its parent: the
siblings behind the deleted node are lost with it or keep a stale prev link.
-/
namespace TapiOS.Task

open Lib Util ProcessTree

/-- Both searches find every process of the tree and nothing else, so that nothing inserted
below one of them reaches the PANIC. -/
structure Findable (pidOf : Word → Word) (t : ProcessTree) : Prop where
  found : ∀ n ∈ t.blocks, findProcessFromProcessTree t (t.processOf n) = some n
  byPid : ∀ n ∈ t.blocks, findProcessByPid t pidOf (pidOf (t.processOf n)) = some n
  absent : ∀ p, findProcessFromProcessTree t p = some 0 ↔ ∀ n ∈ t.blocks, t.processOf n ≠ p
  noPid : ∀ pid, findProcessByPid t pidOf pid = some 0 ↔
    ∀ n ∈ t.blocks, pidOf (t.processOf n) ≠ pid
  inserts : ∀ n ∈ t.blocks, ∀ block p,
    insertProcessToProcessTree t block p (t.processOf n) ≠ .error .panic

/-- An insertion, with the block that kmalloc returns. -/
structure Insertion where
  block : Word
  process : Word
  parent : Word
  deriving DecidableEq, Repr

def insertStep (t : ProcessTree) (c : Insertion) : Except Halt (Int × ProcessTree) :=
  (insertProcessToProcessTree t c.block c.process c.parent).map fun t => (0, t)

/-- No process of the tree has the pid of the new one. -/
def OwnPid (pidOf : Word → Word) (t : ProcessTree) (c : Insertion) : Prop :=
  ∀ n ∈ t.blocks, pidOf (t.processOf n) ≠ pidOf c.process

instance (pidOf : Word → Word) (t : ProcessTree) : DecidablePred (OwnPid pidOf t) := fun _ =>
  List.decidableBAll _ t.blocks

/-- The node of the process is the root or the first child of a node of the spine. -/
def OnSpine (t : ProcessTree) (p : Word) : Prop :=
  ∃ n, Visits 0 t.firstOf t.root n ∧ t.processOf n = p

/-- Processes with one pid have one node. -/
def PidsApart (pidOf : Word → Word) (t : ProcessTree) : Prop :=
  ∀ a ∈ t.blocks, ∀ b ∈ t.blocks, pidOf (t.processOf a) = pidOf (t.processOf b) → a = b

section Lookup
variable {pidOf : Word → Word} {t t' : ProcessTree} {spine : List Word} {kids : Word → List Word}

theorem Shape.find_zero (h : Shape t spine kids) (hall : ∀ n ∈ t.blocks, n ∈ looked t spine kids)
    (test : Word → Bool) :
    findNode t test = some 0 ↔ ∀ n ∈ t.blocks, test (t.processOf n) = false := by
  rw [h.find]
  refine ⟨fun hf n hn => ?_, fun hf => ?_⟩
  · cases hs : (looked t spine kids).find? fun a => test (t.processOf a) with
    | none => simpa using List.find?_eq_none.mp hs n (hall n hn)
    | some m =>
      rw [hs] at hf
      exact absurd (Option.some.inj hf) (h.ne_zero (h.looked_mem (List.mem_of_find?_eq_some hs)))
  · have hnone : (looked t spine kids).find? (fun a => test (t.processOf a)) = none :=
      List.find?_eq_none.mpr fun a ha => by simp [hf a (h.looked_mem ha)]
    rw [hnone]
    rfl

theorem Shape.findable_iff (h : Shape t spine kids) (hd : PidsApart pidOf t) :
    Findable pidOf t ↔ ∀ n ∈ t.blocks, n ∈ looked t spine kids := by
  refine ⟨fun hf n hn => (h.find_some (hf.found n hn) (h.ne_zero hn)).1, fun hall => ?_⟩
  have hfound : ∀ n ∈ t.blocks, findProcessFromProcessTree t (t.processOf n) = some n := by
    intro n hn
    refine h.find_of_looked (hall n hn) (by simp) fun m hm ht => ?_
    exact hd m (h.looked_mem hm) n hn (congrArg pidOf (of_decide_eq_true ht))
  refine ⟨hfound, fun n hn => ?_, fun p => ?_, fun pid => ?_, fun n hn block p hi => ?_⟩
  · refine h.find_of_looked (hall n hn) (by simp) fun m hm ht => ?_
    exact hd m (h.looked_mem hm) n hn (of_decide_eq_true ht)
  · rw [findProcessFromProcessTree, h.find_zero hall]
    simp
  · rw [findProcessByPid, h.find_zero hall]
    simp
  · unfold insertProcessToProcessTree at hi
    rw [hfound n hn] at hi
    dsimp only at hi
    rw [if_neg (h.ne_zero hn)] at hi
    split_ifs at hi
    · cases hi
    · split at hi <;> cases hi

theorem Shape.onSpine_iff (h : Shape t spine kids) (hd : PidsApart pidOf t) {n : Word}
    (hn : n ∈ t.blocks) : OnSpine t (t.processOf n) ↔ n ∈ spine := by
  refine ⟨fun ⟨m, hv, hm⟩ => ?_, fun hs => ⟨n, h.path.visits n hs, rfl⟩⟩
  have hms := h.path.mem_of_visits hv
  rwa [← hd m (h.spine_mem m hms) n hn (congrArg pidOf hm)]

variable {block p n : Word} {ss : List Word}

theorem NewChild.processOf (h : NewChild t block p n ss t')
    {a : Word} (ha : a ≠ block) : t'.processOf a = t.processOf a := (h.same a ha).1

theorem NewChild.processOf_new
    (h : NewChild t block p n ss t') : t'.processOf block = p := by
  show (t'.pnodes block).process = p
  rw [h.record]

variable (pidOf) in
theorem NewChild.pidsApart {c : Insertion} {n : Word}
    (h : NewChild t c.block c.process n ss t') (hbm : c.block ∉ t.blocks) (hd : PidsApart pidOf t)
    (ho : OwnPid pidOf t c) : PidsApart pidOf t' := by
  intro a ha b hb he
  rw [h.blocks] at ha hb
  rcases List.mem_cons.mp ha with rfl | ha <;> rcases List.mem_cons.mp hb with rfl | hb
  · rfl
  · rw [h.processOf_new, h.processOf fun hx => hbm (hx ▸ hb)] at he
    exact absurd he.symm (ho b hb)
  · rw [h.processOf_new, h.processOf fun hx => hbm (hx ▸ ha)] at he
    exact absurd he (ho a ha)
  · rw [h.processOf fun hx => hbm (hx ▸ ha), h.processOf fun hx => hbm (hx ▸ hb)] at he
    exact hd a ha b hb he

/-- The new node is looked at if its parent is on the spine. -/
theorem Shape.insert_looked {spine' : List Word} (h : Shape t spine kids)
    (h' : Shape t' spine' (addKid kids n block)) (hc : NewChild t block p n (kids n) t')
    (hbm : block ∉ t.blocks) (hn : n ∈ t.blocks)
    (hsp : spine' = spine ∨ n ∈ spine ∧ spine' = spine ++ [block])
    (hall : ∀ a ∈ t.blocks, a ∈ looked t spine kids) :
    (∀ a ∈ t'.blocks, a ∈ looked t' spine' (addKid kids n block)) ↔ n ∈ spine := by
  have hsub : ∀ a ∈ spine, a ∈ spine' := by
    intro a ha
    rcases hsp with rfl | ⟨-, rfl⟩
    · exact ha
    · exact List.mem_append_left _ ha
  refine ⟨fun hl => ?_, fun hns a ha => ?_⟩
  · have hb := hl block (by rw [hc.blocks]; exact .head _)
    rcases List.mem_cons.mp hb with he | hb
    · exact absurd (he.trans hc.root ▸ h.root) hbm
    · obtain ⟨a, ha, hba⟩ := List.mem_flatMap.mp hb
      have hpar := ((h'.lists a (h'.spine_mem a ha)).mem block hba).2
      rw [hc.record] at hpar
      obtain rfl : n = a := hpar
      rcases hsp with rfl | ⟨hns, -⟩
      · exact ha
      · exact hns
  · rw [looked, hc.root, List.mem_cons, List.mem_flatMap]
    rw [hc.blocks] at ha
    rcases List.mem_cons.mp ha with rfl | ha
    · have hnb : n ≠ a := fun he => hbm (he ▸ hn)
      exact .inr ⟨n, hsub n hns, by simp [addKid, hnb]⟩
    · rcases List.mem_cons.mp (hall a ha) with rfl | hk
      · exact .inl rfl
      · obtain ⟨m, hm, ham⟩ := List.mem_flatMap.mp hk
        have hmb : m ≠ block := fun he => hbm (he ▸ h.spine_mem m hm)
        refine .inr ⟨m, hsub m hm, ?_⟩
        unfold addKid
        rw [if_neg hmb]
        split_ifs with hmn
        · exact List.mem_append_left _ (hmn ▸ ham)
        · exact ham

end Lookup

theorem setup_shape {root p : Word} (hr : root ≠ 0) :
    Shape (setupProcessTree root p) [root] fun _ => [] := by
  refine ⟨?_, List.nodup_singleton _, List.mem_singleton_self _, rfl, ⟨rfl, hr, rfl⟩, fun n hn => hn,
    List.nodup_singleton _, fun n _ => ⟨rfl, trivial, List.forall_mem_nil _, List.nodup_nil⟩⟩
  exact fun h0 => hr (List.mem_singleton.mp h0).symm

theorem insertStep_ok {t t' : ProcessTree} {c : Insertion} {r : Int}
    (h : insertStep t c = .ok (r, t')) :
    insertProcessToProcessTree t c.block c.process c.parent = .ok t' := by
  unfold insertStep at h
  cases hi : insertProcessToProcessTree t c.block c.process c.parent with
  | error e => rw [hi] at h; cases h
  | ok u => rw [hi] at h; cases h; rfl

/-- In a run of insertions every process is found in every state if and only if every
insertion is below a process on the spine. -/
theorem processes_found_iff {pidOf : Word → Word} {root p : Word} (hroot : root ≠ 0)
    {calls : List Insertion} {tr : List (Transition ProcessTree Insertion Int)}
    (hr : run insertStep (setupProcessTree root p) calls = some tr)
    (hpid : ∀ x ∈ tr, OwnPid pidOf x.pre x.input) :
    (∀ x ∈ tr, Findable pidOf x.post) ↔ ∀ x ∈ tr, OnSpine x.pre x.input.parent := by
  refine run_property_iff_under
    (I := fun t => (∃ spine kids, Shape t spine kids) ∧ PidsApart pidOf t)
    (C := fun t c => OnSpine t c.parent) (K := OwnPid pidOf) ?_ ?_ hr ?_ ?_ hpid
  · intro t c r t' ⟨⟨spine, kids, h⟩, hd⟩ ho hs
    obtain ⟨n, spine', hn, hproc, hbm, hc, h', hsp⟩ := h.insert (insertStep_ok hs)
    exact ⟨⟨_, _, h'⟩, hc.pidsApart _ hbm hd ho⟩
  · intro t c r t' ⟨⟨spine, kids, h⟩, hd⟩ hf ho hs
    obtain ⟨n, spine', hn, hproc, hbm, hc, h', hsp⟩ := h.insert (insertStep_ok hs)
    have hnm := h.looked_mem hn
    rw [h'.findable_iff (hc.pidsApart _ hbm hd ho), ← hproc, h.onSpine_iff hd hnm]
    exact h.insert_looked h' hc hbm hnm hsp ((h.findable_iff hd).mp hf)
  · refine ⟨⟨_, _, setup_shape hroot⟩, fun a ha b hb _ => ?_⟩
    rw [List.mem_singleton.mp ha, List.mem_singleton.mp hb]
  · refine ((setup_shape hroot).findable_iff fun a ha b hb _ => ?_).mpr fun n hn => ?_
    · rw [List.mem_singleton.mp ha, List.mem_singleton.mp hb]
    · rw [List.mem_singleton.mp hn]
      exact .head _

/-- A child of the root and a grandchild. -/
def forkChain : List Insertion := [⟨0x200, 0x20, 0x10⟩, ⟨0x300, 0x30, 0x20⟩]

theorem processes_found_forkChain :
    ∃ tr, run insertStep (setupProcessTree 0x100 0x10) forkChain = some tr ∧
      (∀ x ∈ tr, OwnPid id x.pre x.input) ∧ ∀ x ∈ tr, Findable id x.post := by
  refine run_test (fun tr => ∀ x ∈ tr, OwnPid id x.pre x.input ∧ x.pre.root ≠ 0 ∧
    (x.pre.processOf x.pre.root = x.input.parent ∨ x.pre.firstOf x.pre.root ≠ 0 ∧
      x.pre.processOf (x.pre.firstOf x.pre.root) = x.input.parent)) (by decide) ?_
  intro tr hr hx
  have hpid : ∀ x ∈ tr, OwnPid id x.pre x.input := fun x hm => (hx x hm).1
  refine ⟨hpid, (processes_found_iff (by decide) hr hpid).mpr fun x hm => ?_⟩
  obtain ⟨-, hroot, he | ⟨h0, he⟩⟩ := hx x hm
  · exact ⟨_, .here hroot, he⟩
  · exact ⟨_, .later hroot (.here h0), he⟩

/-- Two children of the root and a child of the second one. -/
def forkBeside : List Insertion :=
  [⟨0x200, 0x20, 0x10⟩, ⟨0x300, 0x30, 0x10⟩, ⟨0x400, 0x40, 0x30⟩]

/-- The grandchild is not found, and an insertion below it reaches the PANIC. -/
theorem grandchild_not_found : ∃ tr, run insertStep (setupProcessTree 0x100 0x10) forkBeside =
      some tr ∧ (∀ x ∈ tr, OwnPid id x.pre x.input) ∧
    ∃ x ∈ tr, 0x400 ∈ x.post.blocks ∧ x.post.processOf 0x400 = 0x40 ∧
      findProcessFromProcessTree x.post 0x40 = some 0 ∧
      insertProcessToProcessTree x.post 0x500 0x50 0x40 = .error .panic ∧
      ¬Findable id x.post := by
  refine run_test (fun tr => (∀ x ∈ tr, OwnPid id x.pre x.input) ∧
    ∃ x ∈ tr, 0x400 ∈ x.post.blocks ∧ x.post.processOf 0x400 = 0x40 ∧
      findProcessFromProcessTree x.post 0x40 = some 0) (by decide) ?_
  intro tr _ ht
  obtain ⟨hpid, x, hx, hn, hproc, hfind⟩ := ht
  refine ⟨hpid, x, hx, hn, hproc, hfind, ?_, fun hf => ?_⟩
  · unfold insertProcessToProcessTree
    rw [hfind]
    rfl
  · have hsome := hf.found 0x400 hn
    rw [hproc, hfind] at hsome
    exact absurd hsome (by decide)

/-! Deletions. -/

inductive TreeCall where
  | insert (c : Insertion)
  | delete (p : Word)
  deriving DecidableEq, Repr

def treeStep (t : ProcessTree) : TreeCall → Except Halt (Int × ProcessTree)
  | .insert c => insertStep t c
  | .delete p => deleteProcessFromProcessTree t p

/-- The children of every process: those inserted and not deleted, in the order of the
insertions. -/
def childrenStep (children : Word → List Word) : TreeCall → Word → List Word
  | .insert c => fun q => if q = c.parent then children q ++ [c.process] else children q
  | .delete p => fun q => (children q).erase p

def childrenAfter (calls : List TreeCall) : Word → List Word :=
  calls.foldl childrenStep fun _ => []

/-- The condition on a call: an inserted process is new, and a deleted one is found and is
the last child of its parent. -/
def TreeCall.Proper (t : ProcessTree) : TreeCall → Prop
  | .insert c => ∀ n ∈ t.blocks, t.processOf n ≠ c.process
  | .delete p => ∃ n, findProcessFromProcessTree t p = some n ∧ n ≠ 0 ∧ n ≠ t.root ∧ t.nextOf n = 0

/-- The last of the children `ss` of `n` was taken off. -/
structure Cut (t : ProcessTree) (n : Word) (ss : List Word) (t' : ProcessTree) : Prop where
  root : t'.root = t.root
  blocks : t'.blocks = t.blocks
  same : ∀ a, (t'.pnodes a).process = (t.pnodes a).process ∧
    (t'.pnodes a).parent = (t.pnodes a).parent ∧ (t'.pnodes a).prev = (t.pnodes a).prev
  first : ∀ a, t'.firstOf a = if a = n ∧ ss.dropLast = [] then 0 else t.firstOf a
  next : ∀ a, t'.nextOf a = if ss.dropLast.getLast? = some a then 0 else t.nextOf a

section Delete
variable {t t' : ProcessTree} {spine : List Word} {kids : Word → List Word} {c n p : Word}
  {ss : List Word} {r : Int}

theorem delete_cut (h : Shape t spine kids) (hp : (TreeCall.delete p).Proper t)
    (hd : deleteProcessFromProcessTree t p = .ok (r, t')) :
    ∃ c n xs, t.processOf c = p ∧ n ∈ spine ∧ kids n = xs ++ [c] ∧ Cut t n (kids n) t' := by
  obtain ⟨c, hf, hc0, hcr, hnext⟩ := hp
  obtain ⟨hc, hproc⟩ := h.find_some hf hc0
  obtain ⟨n, hn, hcn⟩ := List.mem_flatMap.mp ((List.mem_cons.mp hc).resolve_left hcr)
  have hnm := h.spine_mem n hn
  have hl := h.lists n hnm
  obtain ⟨xs, hss⟩ := hl.chain.last hcn hnext
  refine ⟨c, n, xs, of_decide_eq_true hproc, hn, hss, ?_⟩
  have hpar : (t.pnodes c).parent = n := (hl.mem c hcn).2
  unfold deleteProcessFromProcessTree at hd
  rw [hf] at hd
  dsimp only at hd
  rw [if_neg hc0, hpar, hnext] at hd
  have hback := hl.back
  rw [hss] at hback ⊢
  rcases List.eq_nil_or_concat' xs with rfl | ⟨ys, q, rfl⟩
  · have hprev : (t.pnodes c).prev = 0 := hback.1
    rw [hprev, if_neg (h.ne_zero hnm)] at hd
    cases hd
    refine ⟨rfl, rfl, fun a => ?_, fun a => ?_, fun a => ?_⟩
    all_goals
      rcases eq_or_ne a n with rfl | han
      · simp [firstOf, nextOf]
      · simp [firstOf, nextOf, han]
  · have hq : q ∈ kids n := by rw [hss]; simp
    have hq0 := h.ne_zero (hl.mem q hq).1
    have hprev : (t.pnodes c).prev = q := by
      rw [List.append_assoc] at hback
      exact ((back_append ys q [c]).mp hback).2.1
    rw [hprev, if_pos hq0] at hd
    cases hd
    refine ⟨rfl, rfl, fun a => ?_, fun a => ?_, fun a => ?_⟩
    all_goals
      rcases eq_or_ne a q with rfl | haq
      · simp [firstOf, nextOf]
      · simp [firstOf, nextOf, haq, haq.symm]

theorem Cut.siblings {xs : List Word} (h : Cut t n (xs ++ [c]) t') (hl : Siblings t n (xs ++ [c])) :
    Siblings t' n xs := by
  have hsub : ∀ a ∈ xs, a ∈ xs ++ [c] := fun a ha => List.mem_append_left _ ha
  refine ⟨?_, ?_, fun a ha => ?_, (List.nodup_append.mp hl.nodup).1⟩
  · rw [h.first n]
    rcases List.eq_nil_or_concat' xs with rfl | ⟨ys, q, rfl⟩
    · exact if_pos ⟨rfl, rfl⟩
    · rw [if_neg (by rw [List.dropLast_concat]; simp)]
      have hch := hl.chain
      rw [List.append_assoc] at hch
      refine hch.cut ?_ fun a ha => ?_
      · rw [h.next q, if_pos (by rw [List.dropLast_concat]; simp)]
      · rw [h.next a, if_neg]
        have hd := (List.nodup_append.mp hl.nodup).1
        rw [List.dropLast_concat, List.getLast?_concat]
        intro he
        rw [Option.some.inj he] at hd
        exact List.disjoint_of_nodup_append hd ha (by simp)
  · have hb : Back t 0 xs := by
      rcases List.eq_nil_or_concat' xs with rfl | ⟨ys, q, rfl⟩
      · trivial
      · have hback := hl.back
        rw [List.append_assoc] at hback
        exact ((back_append ys q [c]).mp hback).1
    exact hb.congr fun a _ => (h.same a).2.2
  · rw [h.blocks, (h.same a).2.1]
    exact hl.mem a (hsub a ha)

theorem Cut.siblings_other {a : Word} {ts : List Word} (h : Cut t n ss t') (hl : Siblings t n ss)
    (han : a ≠ n) (ht : Siblings t a ts) : Siblings t' a ts := by
  refine ⟨?_, ht.back.congr fun b _ => (h.same b).2.2, fun b hb => ?_, ht.nodup⟩
  · rw [h.first a, if_neg fun hx => han hx.1]
    refine ht.chain.congr fun b hb => ?_
    rw [h.next b, if_neg]
    intro hlast
    have hp := (hl.mem b (List.mem_of_mem_dropLast (List.mem_of_getLast? hlast))).2
    exact han ((ht.mem b hb).2.symm.trans hp)
  · rw [h.blocks, (h.same b).2.1]
    exact ht.mem b hb

/-- The children of every node behind a deletion. -/
def dropKid (kids : Word → List Word) (n : Word) : Word → List Word :=
  fun a => if a = n then (kids n).dropLast else kids a

theorem Shape.cut {xs : List Word} (h : Shape t spine kids) (hn : n ∈ spine)
    (hss : kids n = xs ++ [c]) (hc : Cut t n (kids n) t') :
    ∃ spine', Shape t' spine' (dropKid kids n) := by
  have hl := h.lists n (h.spine_mem n hn)
  have hpath : ∃ spine', Chain 0 t'.firstOf t'.root spine' ∧ spine'.Sublist spine := by
    rw [hc.root]
    by_cases hone : (kids n).dropLast = []
    · obtain ⟨ys, zs, rfl⟩ := List.append_of_mem hn
      refine ⟨ys ++ [n], h.path.cut ?_ fun a ha => ?_, ?_⟩
      · rw [hc.first n, if_pos ⟨rfl, hone⟩]
      · rw [hc.first a, if_neg]
        exact fun hx => List.disjoint_of_nodup_append h.spine_nodup ha (by simp [hx.1])
      · exact (List.Sublist.refl ys).append ((List.nil_sublist zs).cons_cons n)
    · refine ⟨spine, h.path.congr fun a _ => ?_, List.Sublist.refl _⟩
      rw [hc.first a, if_neg fun hx => hone hx.2]
  obtain ⟨spine', hchain, hsub⟩ := hpath
  refine ⟨spine', ?_, ?_, ?_, ?_, hchain, fun a ha => ?_, h.spine_nodup.sublist hsub, fun a ha => ?_⟩
  · rw [hc.blocks]
    exact h.zero
  · rw [hc.blocks]
    exact h.distinct
  · rw [hc.root, hc.blocks]
    exact h.root
  · rw [hc.root, (hc.same _).2.1]
    exact h.parent
  · rw [hc.blocks]
    exact h.spine_mem a (hsub.subset ha)
  · unfold dropKid
    rw [hc.blocks] at ha
    split_ifs with han
    · rw [han, hss, List.dropLast_concat]
      exact Cut.siblings (hss ▸ hc) (hss ▸ hl)
    · exact hc.siblings_other hl han (h.lists a ha)

end Delete

/-- The lists of the tree are those of the children map. -/
def Follows (t : ProcessTree) (children : Word → List Word) : Prop :=
  ∃ spine kids, Shape t spine kids ∧
    (∀ a ∈ t.blocks, ∀ b ∈ t.blocks, t.processOf a = t.processOf b → a = b) ∧
    (∀ n ∈ t.blocks, (kids n).map t.processOf = children (t.processOf n)) ∧
    ∀ q, (∀ n ∈ t.blocks, t.processOf n ≠ q) → children q = []

section Follow
variable {t t' : ProcessTree} {children : Word → List Word} {r : Int}

theorem Follows.insert {c : Insertion} (h : Follows t children)
    (hp : (TreeCall.insert c).Proper t) (hs : insertStep t c = .ok (r, t')) :
    Follows t' (childrenStep children (.insert c)) := by
  obtain ⟨spine, kids, hsh, hinj, hkids, hnone⟩ := h
  obtain ⟨n, spine', hn, hproc, hbm, hc, hsh', -⟩ := hsh.insert (insertStep_ok hs)
  have hnm := hsh.looked_mem hn
  have hold : ∀ a ∈ t.blocks, a ≠ c.block := fun a ha he => hbm (he ▸ ha)
  have hmap : ∀ m ∈ t.blocks, (kids m).map t'.processOf = (kids m).map t.processOf := fun m hm =>
    List.map_congr_left fun a ha => hc.processOf (hold a ((hsh.lists m hm).mem a ha).1)
  have hnew := hc.processOf_new
  have hne : c.process ≠ c.parent := fun he => hp n hnm (hproc.trans he.symm)
  refine ⟨spine', _, hsh', hc.pidsApart id hbm hinj hp, fun m hm => ?_, fun q hq => ?_⟩
  · rw [hc.blocks] at hm
    unfold addKid childrenStep
    dsimp only
    rcases List.mem_cons.mp hm with rfl | hm
    · rw [if_pos rfl, hnew, if_neg hne, hnone c.process hp]
      rfl
    · rw [if_neg (hold m hm), hc.processOf (hold m hm)]
      by_cases hmn : m = n
      · rw [if_pos hmn, hmn, if_pos hproc, List.map_append, hmap n hnm, hkids n hnm, List.map_singleton,
          hnew]
      · rw [if_neg hmn, if_neg fun he => hmn (hinj m hm n hnm (he.trans hproc.symm)), hmap m hm]
        exact hkids m hm
  · rw [hc.blocks] at hq
    have hqn : q ≠ c.parent := by
      have hx := hq n (.tail _ hnm)
      rw [hc.processOf (hold n hnm), hproc] at hx
      exact hx.symm
    refine (if_neg hqn).trans (hnone q fun a ha => ?_)
    have hx := hq a (.tail _ ha)
    rwa [hc.processOf (hold a ha)] at hx

theorem Follows.delete {p : Word} (h : Follows t children) (hp : (TreeCall.delete p).Proper t)
    (hs : deleteProcessFromProcessTree t p = .ok (r, t')) :
    Follows t' (childrenStep children (.delete p)) := by
  obtain ⟨spine, kids, hsh, hinj, hkids, hnone⟩ := h
  obtain ⟨c, n, xs, rfl, hn, hss, hc⟩ := delete_cut hsh hp hs
  obtain ⟨spine', hsh'⟩ := hsh.cut hn hss hc
  have hnm := hsh.spine_mem n hn
  have hcm := (hsh.lists n hnm).mem c (by rw [hss]; simp)
  have hproc : t'.processOf = t.processOf := funext fun a => (hc.same a).1
  -- the node of the process is in one list only
  have hout : ∀ m ∈ t.blocks, m ≠ n → t.processOf c ∉ (kids m).map t.processOf := by
    intro m hm hmn hmem
    obtain ⟨b, hb, he⟩ := List.mem_map.mp hmem
    obtain ⟨hbm, hbp⟩ := (hsh.lists m hm).mem b hb
    rw [hinj b hbm c hcm.1 he, hcm.2] at hbp
    exact hmn hbp.symm
  rw [Follows, hc.blocks, hproc]
  refine ⟨spine', _, hsh', hinj, fun m hm => ?_, fun q hq => ?_⟩
  · unfold dropKid childrenStep
    dsimp only
    rw [← hkids m hm]
    split_ifs with hmn
    · have hx : t.processOf c ∉ xs.map t.processOf := by
        intro hmem
        obtain ⟨b, hb, he⟩ := List.mem_map.mp hmem
        have hd := (hsh.lists n hnm).nodup
        rw [hss] at hd
        have hbm := ((hsh.lists n hnm).mem b (by rw [hss]; exact List.mem_append_left _ hb)).1
        rw [hinj b hbm c hcm.1 he] at hb
        exact List.disjoint_of_nodup_append hd hb (by simp)
      rw [hmn, hss, List.dropLast_concat, List.map_append, List.erase_append_right _ hx]
      simp
    · rw [List.erase_of_not_mem (hout m hm hmn)]
  · show (children q).erase _ = []
    rw [hnone q hq]
    rfl

end Follow

theorem setup_follows {root p : Word} (hr : root ≠ 0) :
    Follows (setupProcessTree root p) fun _ => [] := by
  refine ⟨_, _, setup_shape hr, fun a ha b hb _ => ?_, fun n _ => rfl, fun q _ => rfl⟩
  rw [List.mem_singleton.mp ha, List.mem_singleton.mp hb]

/-- After every run of proper calls the children of every node are a doubly linked list of
the children inserted and not deleted. -/
theorem children_kept {root p : Word} (hroot : root ≠ 0) {calls : List TreeCall}
    {tr : List (Transition ProcessTree TreeCall Int)}
    (hr : run treeStep (setupProcessTree root p) calls = some tr)
    (hp : ∀ x ∈ tr, x.input.Proper x.pre) :
    let t := lastState (setupProcessTree root p) tr
    ∀ n ∈ t.blocks, ∃ ss, Siblings t n ss ∧
      ss.map t.processOf = childrenAfter calls (t.processOf n) := by
  have hf := run_refines (R := Follows) (g := childrenStep) (C := fun t c => c.Proper t)
    (fun t c r t' children h hc hs => ?_) hr (setup_follows hroot) hp
  · obtain ⟨spine, kids, hsh, -, hkids, -⟩ := hf
    exact fun n hn => ⟨kids n, hsh.lists n hn, hkids n hn⟩
  · cases c with
    | insert c => exact h.insert hc hs
    | delete p => exact h.delete hc hs

/-- Two children, of which the last one is replaced. -/
def replaceLast : List TreeCall :=
  [.insert ⟨0x200, 0x20, 0x10⟩, .insert ⟨0x300, 0x30, 0x10⟩, .delete 0x30,
    .insert ⟨0x400, 0x40, 0x10⟩]

instance (t : ProcessTree) : DecidablePred (TreeCall.Proper t)
  | .insert _ => List.decidableBAll _ t.blocks
  | .delete p => Option.decidableExistsMem (findProcessFromProcessTree t p)

theorem children_kept_replaceLast :
    ∃ tr, run treeStep (setupProcessTree 0x100 0x10) replaceLast = some tr ∧
      (∀ x ∈ tr, x.input.Proper x.pre) ∧
      ∃ ss, Siblings (lastState (setupProcessTree 0x100 0x10) tr) 0x100 ss ∧
        ss.map (lastState (setupProcessTree 0x100 0x10) tr).processOf = [0x20, 0x40] := by
  refine run_test (fun tr => (∀ x ∈ tr, x.input.Proper x.pre) ∧
    let t := lastState (setupProcessTree 0x100 0x10) tr
    0x100 ∈ t.blocks ∧ t.processOf 0x100 = 0x10) (by decide) ?_
  intro tr hr ht
  obtain ⟨hp, hb, hproc⟩ := ht
  obtain ⟨ss, hss, hmap⟩ := children_kept (by decide) hr hp 0x100 hb
  refine ⟨hp, ss, hss, ?_⟩
  rw [hmap, hproc]
  decide

/-- Deleting the first of two children loses the second one. -/
theorem sibling_lost : ∃ tr, run treeStep (setupProcessTree 0x100 0x10)
      [.insert ⟨0x200, 0x20, 0x10⟩, .insert ⟨0x300, 0x30, 0x10⟩, .delete 0x20] = some tr ∧
    ∃ n ∈ (lastState (setupProcessTree 0x100 0x10) tr).blocks,
      ¬∃ ss, Siblings (lastState (setupProcessTree 0x100 0x10) tr) n ss ∧
        ss.map (lastState (setupProcessTree 0x100 0x10) tr).processOf =
          childrenAfter [.insert ⟨0x200, 0x20, 0x10⟩, .insert ⟨0x300, 0x30, 0x10⟩, .delete 0x20]
            ((lastState (setupProcessTree 0x100 0x10) tr).processOf n) := by
  refine run_test (fun tr =>
    let t := lastState (setupProcessTree 0x100 0x10) tr
    0x100 ∈ t.blocks ∧ t.firstOf 0x100 = 0 ∧ t.processOf 0x100 = 0x10) (by decide) ?_
  intro tr _ ht
  obtain ⟨hb, h0, hproc⟩ := ht
  refine ⟨0x100, hb, fun ⟨ss, hss, hmap⟩ => ?_⟩
  rw [hss.nil_iff.mpr h0, hproc, List.map_nil] at hmap
  exact absurd hmap (by decide)

end TapiOS.Task
