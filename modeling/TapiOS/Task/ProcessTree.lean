import TapiOS.Lib.Chain
import TapiOS.Lib.Runs
import TapiOS.Util.Memory

/-!
# The process tree, task/processtree.c

A node keeps its children in a list linked through next and prev. The searches look at
the children of the root, then at those of its first child, and so on down: the nodes of
this path are the spine of the tree.
-/
namespace TapiOS.Task

open Lib Util

/-- Where the process code stops: a PANIC, the use of a NULL pointer, a loop over a cyclic
list, kmalloc without a free block, and a call that its caller cannot make. -/
inductive Halt where
  | panic
  | fault
  | endless
  | noMemory
  | notRunning
  deriving DecidableEq, Repr

structure Pnode where
  process : Word
  parent : Word
  firstChild : Word
  next : Word
  prev : Word
  deriving DecidableEq, Repr

/-- process_tree and the nodes it leads to; `blocks` are those that kmalloc returned. -/
structure ProcessTree where
  root : Word
  pnodes : Word → Pnode
  blocks : List Word

namespace ProcessTree

def set (t : ProcessTree) (a : Word) (f : Pnode → Pnode) : ProcessTree :=
  { t with pnodes := fun x => if x = a then f (t.pnodes x) else t.pnodes x }

/-- A node in a new block. -/
def add (t : ProcessTree) (a : Word) (n : Pnode) : ProcessTree :=
  { t with pnodes := fun x => if x = a then n else t.pnodes x, blocks := a :: t.blocks }

@[simp] theorem set_pnodes (t : ProcessTree) (a : Word) (f : Pnode → Pnode) (x : Word) :
    (t.set a f).pnodes x = if x = a then f (t.pnodes x) else t.pnodes x := rfl

@[simp] theorem add_pnodes (t : ProcessTree) (a : Word) (n : Pnode) (x : Word) :
    (t.add a n).pnodes x = if x = a then n else t.pnodes x := rfl

def nextOf (t : ProcessTree) (a : Word) : Word := (t.pnodes a).next

def firstOf (t : ProcessTree) (a : Word) : Word := (t.pnodes a).firstChild

def processOf (t : ProcessTree) (a : Word) : Word := (t.pnodes a).process

end ProcessTree

open ProcessTree

/-- A loop along the links that is longer than this meets a node twice. -/
def pnodeBound : Nat := 2 ^ 32

def setupProcessTree (root currentProcess : Word) : ProcessTree :=
  ⟨root, fun _ => ⟨currentProcess, 0, 0, 0, 0⟩, [root]⟩

/-- The loop over the children of a node; NULL if none passes the test. -/
def findFromChildren (t : ProcessTree) (test : Word → Bool) (node : Word) : Option Word :=
  findAlong 0 t.nextOf (fun a => test (t.processOf a)) pnodeBound (t.firstOf node)

/-- The loop over the first children. -/
def findDown (t : ProcessTree) (test : Word → Bool) : Nat → Word → Option Word
  | 0, node => if node = 0 then some 0 else none
  | k + 1, node =>
    if node = 0 then some 0
    else match findFromChildren t test node with
    | none => none
    | some result => if result ≠ 0 then some result else findDown t test k (t.firstOf node)

/-- Both searches: by the process and by its pid. -/
def findNode (t : ProcessTree) (test : Word → Bool) : Option Word :=
  if test (t.processOf t.root) then some t.root else findDown t test pnodeBound t.root

def findProcessFromProcessTree (t : ProcessTree) (p : Word) : Option Word :=
  findNode t fun q => decide (q = p)

def findProcessByPid (t : ProcessTree) (pidOf : Word → Word) (pid : Word) : Option Word :=
  findNode t fun q => decide (pidOf q = pid)

/-- `block` is what kmalloc returns for the new node. -/
def insertProcessToProcessTree (t : ProcessTree) (block p parent : Word) :
    Except Halt ProcessTree :=
  match findProcessFromProcessTree t parent with
  | none => .error .endless
  | some parentnode =>
    if parentnode = 0 then .error .panic
    else if block = 0 ∨ block ∈ t.blocks then .error .noMemory
    else if t.firstOf parentnode = 0 then
      .ok ((t.add block ⟨p, parentnode, 0, 0, 0⟩).set parentnode
        (fun n => { n with firstChild := block }))
    else match findAlong 0 t.nextOf (fun a => decide (t.nextOf a = 0)) pnodeBound
      (t.firstOf parentnode) with
    | none => .error .endless
    | some node => .ok ((t.add block ⟨p, parentnode, 0, 0, node⟩).set node
        (fun n => { n with next := block }))

def deleteProcessFromProcessTree (t : ProcessTree) (p : Word) : Except Halt (Int × ProcessTree) :=
  match findProcessFromProcessTree t p with
  | none => .error .endless
  | some node =>
    if node = 0 then .ok (-1, t)
    else if (t.pnodes node).prev ≠ 0 then
      .ok (0, t.set (t.pnodes node).prev (fun n => { n with next := t.nextOf node }))
    else if (t.pnodes node).parent = 0 then .error .fault
    else .ok (0, t.set (t.pnodes node).parent (fun n => { n with firstChild := 0 }))

/-- The prev links of a list that starts behind `q`. -/
def Back (t : ProcessTree) : Word → List Word → Prop
  | _, [] => True
  | q, c :: cs => (t.pnodes c).prev = q ∧ Back t c cs

/-- The children of a node as a doubly linked list. -/
structure Siblings (t : ProcessTree) (n : Word) (ss : List Word) : Prop where
  chain : Chain 0 t.nextOf (t.firstOf n) ss
  back : Back t 0 ss
  mem : ∀ c ∈ ss, c ∈ t.blocks ∧ (t.pnodes c).parent = n
  nodup : ss.Nodup

/-- The spine and the children of every node. -/
structure Shape (t : ProcessTree) (spine : List Word) (kids : Word → List Word) : Prop where
  zero : 0 ∉ t.blocks
  distinct : t.blocks.Nodup
  root : t.root ∈ t.blocks
  parent : (t.pnodes t.root).parent = 0
  path : Chain 0 t.firstOf t.root spine
  spine_mem : ∀ n ∈ spine, n ∈ t.blocks
  spine_nodup : spine.Nodup
  lists : ∀ n ∈ t.blocks, Siblings t n (kids n)

/-- The nodes that the searches look at, in this order. -/
def looked (t : ProcessTree) (spine : List Word) (kids : Word → List Word) : List Word :=
  t.root :: spine.flatMap kids

section Links
variable {t t' : ProcessTree} {q v : Word} {ss : List Word}

theorem Back.congr (h : Back t q ss) (hp : ∀ c ∈ ss, (t'.pnodes c).prev = (t.pnodes c).prev) :
    Back t' q ss := by
  induction ss generalizing q with
  | nil => trivial
  | cons c cs ih =>
    obtain ⟨hc, hrest⟩ := h
    refine ⟨(hp c (.head _)).trans hc, ih hrest fun a ha => hp a ?_⟩
    exact .tail _ ha

/-- The element behind another one points back to it. -/
theorem back_append {p : Word} (xs : List Word) (q : Word) (ys : List Word) :
    Back t p (xs ++ q :: ys) ↔ Back t p (xs ++ [q]) ∧ Back t q ys := by
  induction xs generalizing p with
  | nil => simp [Back]
  | cons a xs ih =>
    simp only [List.cons_append, Back]
    rw [ih, and_assoc]

end Links

section Find
variable {t : ProcessTree} {spine : List Word} {kids : Word → List Word}

theorem Shape.ne_zero (h : Shape t spine kids) {a : Word} (ha : a ∈ t.blocks) : a ≠ 0 :=
  fun he => h.zero (he ▸ ha)

variable {n : Word}

theorem Siblings.find {ss : List Word} (h : Siblings t n ss) (test : Word → Bool) :
    findAlong 0 t.nextOf test pnodeBound (t.firstOf n) = some ((ss.find? test).getD 0) :=
  Chain.find h.chain test (nodup_length_le h.nodup)

variable {test : Word → Bool}

theorem findDown_eq {p : Word} {k : Nat} (hs : Chain 0 t.firstOf p spine)
    (hk : ∀ n ∈ spine, Siblings t n (kids n)) (h0 : ∀ n ∈ spine, ∀ c ∈ kids n, c ≠ 0)
    (hlen : spine.length ≤ k) : findDown t test k p =
      some (((spine.flatMap kids).find? fun a => test (t.processOf a)).getD 0) := by
  induction spine generalizing p k with
  | nil =>
    obtain rfl : p = 0 := hs
    cases k <;> simp [findDown]
  | cons n spine ih =>
    obtain ⟨rfl, hp0, hrest⟩ := hs
    obtain ⟨k, rfl⟩ : ∃ j, k = j + 1 := ⟨k - 1, by simp at hlen; omega⟩
    simp only [findDown, if_neg hp0, findFromChildren, (hk p List.mem_cons_self).find,
      List.flatMap_cons, List.find?_append]
    cases hf : (kids p).find? fun a => test (t.processOf a) with
    | some c =>
      have hc0 := h0 p (.head _) c (List.mem_of_find?_eq_some hf)
      exact if_pos hc0
    | none =>
      exact ih hrest (fun a ha => hk a (.tail _ ha))
        (fun a ha => h0 a (.tail _ ha)) (by simpa using hlen)

/-- A search returns the first of the nodes it looks at that passes the test. -/
theorem Shape.find (h : Shape t spine kids) (test : Word → Bool) : findNode t test =
    some (((looked t spine kids).find? fun a => test (t.processOf a)).getD 0) := by
  unfold findNode looked
  rw [List.find?_cons]
  cases hr : test (t.processOf t.root) with
  | true => simp
  | false =>
    exact findDown_eq h.path (fun n hn => h.lists n (h.spine_mem n hn))
      (fun n hn c hc => h.ne_zero ((h.lists n (h.spine_mem n hn)).mem c hc).1)
      (nodup_length_le h.spine_nodup)

theorem Shape.looked_mem (h : Shape t spine kids) (hn : n ∈ looked t spine kids) :
    n ∈ t.blocks := by
  rcases List.mem_cons.mp hn with rfl | hn
  · exact h.root
  · obtain ⟨a, ha, hna⟩ := List.mem_flatMap.mp hn
    exact ((h.lists a (h.spine_mem a ha)).mem n hna).1

theorem Shape.find_some (h : Shape t spine kids)
    (hf : findNode t test = some n) (h0 : n ≠ 0) :
    n ∈ looked t spine kids ∧ test (t.processOf n) := by
  rw [h.find] at hf
  cases hs : (looked t spine kids).find? fun a => test (t.processOf a) with
  | none =>
    rw [hs] at hf
    exact absurd (Option.some.inj hf).symm h0
  | some m =>
    rw [hs] at hf
    obtain rfl : m = n := Option.some.inj hf
    have ht := List.find?_some hs
    exact ⟨List.mem_of_find?_eq_some hs, ht⟩

/-- A node that is looked at is found when no other one passes the test. -/
theorem Shape.find_of_looked (h : Shape t spine kids)
    (hn : n ∈ looked t spine kids) (ht : test (t.processOf n))
    (hu : ∀ m ∈ looked t spine kids, test (t.processOf m) → m = n) :
    findNode t test = some n := by
  rw [h.find]
  cases hs : (looked t spine kids).find? fun a => test (t.processOf a) with
  | none => exact absurd ht (by simpa using List.find?_eq_none.mp hs n hn)
  | some m =>
    have hm := List.find?_some hs
    exact congrArg some (hu m (List.mem_of_find?_eq_some hs) hm)

end Find

/-- The node in `block` became the last of the children `ss` of `n`. -/
structure NewChild (t : ProcessTree) (block p n : Word) (ss : List Word) (t' : ProcessTree) :
    Prop where
  root : t'.root = t.root
  blocks : t'.blocks = block :: t.blocks
  record : t'.pnodes block = ⟨p, n, 0, 0, ss.getLast?.getD 0⟩
  same : ∀ a, a ≠ block → (t'.pnodes a).process = (t.pnodes a).process ∧
    (t'.pnodes a).parent = (t.pnodes a).parent ∧ (t'.pnodes a).prev = (t.pnodes a).prev
  first : ∀ a, a ≠ block → t'.firstOf a = if a = n ∧ ss = [] then block else t.firstOf a
  next : ∀ a, a ≠ block → t'.nextOf a = if ss.getLast? = some a then block else t.nextOf a

section Insert
variable {t t' : ProcessTree} {spine : List Word} {kids : Word → List Word}
  {block p n parent : Word} {ss : List Word}

theorem Siblings.nil_iff (h : Siblings t n ss) : ss = [] ↔ t.firstOf n = 0 := by
  refine ⟨fun he => ?_, fun h0 => ?_⟩
  · have hc := h.chain
    rw [he] at hc
    exact hc
  · have hnil : Chain 0 t.nextOf (t.firstOf n) [] := h0
    exact Chain.unique h.chain hnil

theorem insert_newChild (h : Shape t spine kids)
    (hi : insertProcessToProcessTree t block p parent = .ok t') :
    ∃ n, n ∈ looked t spine kids ∧ t.processOf n = parent ∧ block ≠ 0 ∧ block ∉ t.blocks ∧
      NewChild t block p n (kids n) t' := by
  unfold insertProcessToProcessTree at hi
  split at hi
  · cases hi
  next n hf =>
    by_cases hn0 : n = 0
    · rw [if_pos hn0] at hi
      cases hi
    by_cases hb : block = 0 ∨ block ∈ t.blocks
    · rw [if_neg hn0, if_pos hb] at hi
      cases hi
    rw [if_neg hn0, if_neg hb] at hi
    obtain ⟨hb0, hbm⟩ := not_or.mp hb
    obtain ⟨hn, hproc⟩ := h.find_some hf hn0
    have hnm := h.looked_mem hn
    have hl := h.lists n hnm
    refine ⟨n, hn, of_decide_eq_true hproc, hb0, hbm, ?_⟩
    rcases List.eq_nil_or_concat' (kids n) with hnil | ⟨xs, q, hss⟩
    · have hnb : n ≠ block := fun he => hbm (he ▸ hnm)
      rw [if_pos (hl.nil_iff.mp hnil)] at hi
      cases hi
      rw [hnil]
      refine ⟨rfl, rfl, ?_, fun a ha => ?_, fun a ha => ?_, fun a ha => ?_⟩
      · simp [hnb.symm]
      all_goals
        rcases eq_or_ne a n with rfl | han
        · simp [firstOf, nextOf, ha]
        · simp [firstOf, nextOf, ha, han]
    · have hqm : q ∈ kids n := by rw [hss]; simp
      have hqb : q ≠ block := fun he => hbm (he ▸ (hl.mem q hqm).1)
      have hlast : findAlong 0 t.nextOf (fun a => decide (t.nextOf a = 0)) pnodeBound (t.firstOf n) =
          some q := by
        rw [hl.find, hss, Chain.find_last (hss ▸ hl.chain)]
        rfl
      rw [if_neg fun h0 => by simp [hl.nil_iff.mpr h0] at hqm, hlast] at hi
      cases hi
      rw [hss]
      refine ⟨rfl, rfl, ?_, fun a ha => ?_, fun a ha => ?_, fun a ha => ?_⟩
      · simp [hqb.symm]
      all_goals
        rcases eq_or_ne a q with rfl | haq
        · simp [firstOf, nextOf, ha]
        · simp [firstOf, nextOf, ha, haq, haq.symm]

theorem NewChild.siblings (h : NewChild t block p n ss t') (hl : Siblings t n ss)
    (hb0 : block ≠ 0) (hbm : block ∉ t.blocks) (hn : n ∈ t.blocks) :
    Siblings t' n (ss ++ [block]) := by
  have hne : ∀ c ∈ ss, c ≠ block := fun c hc he => hbm (he ▸ (hl.mem c hc).1)
  have hnb : n ≠ block := fun he => hbm (he ▸ hn)
  refine ⟨?_, ?_, fun c hc => ?_, ?_⟩
  · rcases List.eq_nil_or_concat' ss with rfl | ⟨xs, q, rfl⟩
    · rw [h.first n hnb, if_pos ⟨rfl, rfl⟩]
      refine ⟨rfl, hb0, ?_⟩
      show (t'.pnodes block).next = 0
      rw [h.record]
    · rw [h.first n hnb, if_neg (by simp), List.append_assoc]
      refine Chain.append hl.chain hb0 ?_ ?_ fun a ha => ?_
      · rw [h.next q (hne q (by simp)), if_pos (by simp)]
      · show (t'.pnodes block).next = 0
        rw [h.record]
      · rw [h.next a (hne a (by simp [ha])), if_neg]
        have hd := hl.nodup
        rw [List.getLast?_concat]
        intro he
        rw [Option.some.inj he] at hd
        exact List.disjoint_of_nodup_append hd ha (by simp)
  · rcases List.eq_nil_or_concat' ss with rfl | ⟨xs, q, rfl⟩
    · refine ⟨?_, trivial⟩
      rw [h.record]
      rfl
    · rw [List.append_assoc]
      refine (back_append xs q [block]).mpr ⟨hl.back.congr fun c hc => (h.same c (hne c hc)).2.2, ?_, trivial⟩
      rw [h.record]
      simp
  · rw [h.blocks]
    rcases List.mem_append.mp hc with hc | hc
    · obtain ⟨hm, hp⟩ := hl.mem c hc
      exact ⟨.tail _ hm, (h.same c (hne c hc)).2.1.trans hp⟩
    · rw [List.mem_singleton.mp hc, h.record]
      exact ⟨.head _, rfl⟩
  · exact List.nodup_append.mpr ⟨hl.nodup, List.nodup_singleton _,
      fun a ha b hb => List.mem_singleton.mp hb ▸ hne a ha⟩

theorem NewChild.siblings_other {a : Word} {ts : List Word} (h : NewChild t block p n ss t')
    (hl : Siblings t n ss) (hbm : block ∉ t.blocks) (ha : a ∈ t.blocks) (han : a ≠ n)
    (ht : Siblings t a ts) : Siblings t' a ts := by
  have hne : ∀ c ∈ ts, c ≠ block := fun c hc he => hbm (he ▸ (ht.mem c hc).1)
  have hab : a ≠ block := fun he => hbm (he ▸ ha)
  refine ⟨?_, ht.back.congr fun c hc => (h.same c (hne c hc)).2.2, fun c hc => ?_, ht.nodup⟩
  · rw [h.first a hab, if_neg fun hx => han hx.1]
    refine ht.chain.congr fun c hc => ?_
    rw [h.next c (hne c hc), if_neg]
    intro hlast
    have hp := (hl.mem c (List.mem_of_getLast? hlast)).2
    exact han ((ht.mem c hc).2.symm.trans hp)
  · obtain ⟨hm, hp⟩ := ht.mem c hc
    rw [h.blocks]
    exact ⟨.tail _ hm, (h.same c (hne c hc)).2.1.trans hp⟩

theorem NewChild.siblings_new (h : NewChild t block p n ss t') : Siblings t' block [] := by
  refine ⟨?_, trivial, List.forall_mem_nil _, List.nodup_nil⟩
  show (t'.pnodes block).firstChild = 0
  rw [h.record]

/-- The children of every node behind an insertion. -/
def addKid (kids : Word → List Word) (n block : Word) : Word → List Word :=
  fun a => if a = block then [] else if a = n then kids n ++ [block] else kids a

theorem NewChild.path (h : NewChild t block p n (kids n) t') (hs : Shape t spine kids)
    (hb0 : block ≠ 0) (hbm : block ∉ t.blocks) : ∃ spine', Chain 0 t'.firstOf t'.root spine' ∧
      (spine' = spine ∨ n ∈ spine ∧ spine' = spine ++ [block]) := by
  have hne : ∀ a ∈ spine, a ≠ block := fun a ha he => hbm (he ▸ hs.spine_mem a ha)
  rw [h.root]
  by_cases hext : n ∈ spine ∧ kids n = []
  · -- the node without children is the last one of the spine
    obtain ⟨hn, hnil⟩ := hext
    have h0 := (hs.lists n (hs.spine_mem n hn)).nil_iff.mp hnil
    obtain ⟨xs, rfl⟩ := hs.path.last hn h0
    refine ⟨xs ++ [n, block], ?_, .inr ⟨hn, by simp⟩⟩
    refine hs.path.append hb0 ?_ ?_ fun a ha => ?_
    · rw [h.first n (hne n hn), if_pos ⟨rfl, hnil⟩]
    · show (t'.pnodes block).firstChild = 0
      rw [h.record]
    · rw [h.first a (hne a (by simp [ha])), if_neg]
      intro hx
      exact List.disjoint_of_nodup_append hs.spine_nodup ha (by simp [hx.1])
  · refine ⟨spine, hs.path.congr fun a ha => ?_, .inl rfl⟩
    rw [h.first a (hne a ha), if_neg]
    exact fun hx => hext ⟨hx.1 ▸ ha, hx.2⟩

theorem Shape.insert (h : Shape t spine kids)
    (hi : insertProcessToProcessTree t block p parent = .ok t') :
    ∃ n spine', n ∈ looked t spine kids ∧ t.processOf n = parent ∧ block ∉ t.blocks ∧
      NewChild t block p n (kids n) t' ∧ Shape t' spine' (addKid kids n block) ∧
      (spine' = spine ∨ n ∈ spine ∧ spine' = spine ++ [block]) := by
  obtain ⟨n, hn, hproc, hb0, hbm, hc⟩ := insert_newChild h hi
  have hnm := h.looked_mem hn
  have hrb : t.root ≠ block := fun he => hbm (he ▸ h.root)
  obtain ⟨spine', hpath, hsp⟩ := hc.path h hb0 hbm
  have hmem : ∀ a ∈ spine', a ∈ t'.blocks := by
    intro a ha
    rw [hc.blocks]
    rcases hsp with rfl | ⟨-, rfl⟩
    · exact .tail _ (h.spine_mem a ha)
    · rcases List.mem_append.mp ha with ha | ha
      · exact .tail _ (h.spine_mem a ha)
      · rw [List.mem_singleton.mp ha]
        exact .head _
  refine ⟨n, spine', hn, hproc, hbm, hc, ⟨?_, ?_, ?_, ?_, hpath, hmem, ?_, fun a ha => ?_⟩, hsp⟩
  · rw [hc.blocks, List.mem_cons, not_or]
    exact ⟨hb0.symm, h.zero⟩
  · rw [hc.blocks]
    exact List.nodup_cons.mpr ⟨hbm, h.distinct⟩
  · rw [hc.root, hc.blocks]
    exact .tail _ h.root
  · rw [hc.root, (hc.same _ hrb).2.1]
    exact h.parent
  · rcases hsp with rfl | ⟨-, rfl⟩
    · exact h.spine_nodup
    · refine List.nodup_append.mpr ⟨h.spine_nodup, List.nodup_singleton _, fun a ha b hb he => ?_⟩
      rw [List.mem_singleton.mp hb] at he
      exact hbm (he ▸ h.spine_mem a ha)
  · unfold addKid
    rw [hc.blocks] at ha
    split_ifs with hab han
    · rw [hab]
      exact hc.siblings_new
    · rw [han]
      exact hc.siblings (h.lists n hnm) hb0 hbm hnm
    · have ham := (List.mem_cons.mp ha).resolve_left hab
      exact hc.siblings_other (h.lists n hnm) hbm ham han (h.lists a ham)

end Insert

end TapiOS.Task
