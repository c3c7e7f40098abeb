import TapiOS.Task.RunQueue

/-!
# What `_waitpid` reports

The call notes the pid of the first child and waits until its node has no first child. A
deletion clears first_child only for the child that it notes: a node without a left
neighbour is the first child of its parent until its process has finished. The lists of
siblings themselves need not be right for this.
-/
namespace TapiOS.Task.Scheduler

open Lib Util Tasks

variable {p : Word} {x : Transition Tasks TaskCall (Option Word)}

/-- The links of the tree lead to nodes, and a first child points to its parent. -/
structure Linked (t : ProcessTree) : Prop where
  zero : 0 ∉ t.blocks
  root : t.root ∈ t.blocks
  first : ∀ n ∈ t.blocks, t.firstOf n ≠ 0 → t.firstOf n ∈ t.blocks ∧
    (t.pnodes (t.firstOf n)).parent = n ∧ (t.pnodes (t.firstOf n)).prev = 0
  next : ∀ n ∈ t.blocks, t.nextOf n ≠ 0 → t.nextOf n ∈ t.blocks

section Tree
variable {t t' : ProcessTree}

theorem Linked.findDown (h : Linked t) {test : Word → Bool} {k : Nat} {n r : Word}
    (hn : n ≠ 0 → n ∈ t.blocks) (hf : findDown t test k n = some r) (hr : r ≠ 0) :
    r ∈ t.blocks ∧ test (t.processOf r) := by
  induction k generalizing n with
  | zero =>
    simp only [Task.findDown] at hf
    split_ifs at hf
    exact absurd (Option.some.inj hf).symm hr
  | succ k ih =>
    simp only [Task.findDown] at hf
    split_ifs at hf with h0
    · exact absurd (Option.some.inj hf).symm hr
    split at hf
    · cases hf
    · next result hc =>
      split_ifs at hf with hres
      · cases hf
        exact findAlong_some (S := (· ∈ t.blocks)) h.next (fun hne => (h.first n (hn h0) hne).1) hc hr
      · exact ih (fun hne => (h.first n (hn h0) hne).1) hf

theorem Linked.find (h : Linked t) {r : Word} (hf : findProcessFromProcessTree t p = some r)
    (hr : r ≠ 0) : r ∈ t.blocks ∧ t.processOf r = p := by
  unfold findProcessFromProcessTree findNode at hf
  split_ifs at hf with ht
  · cases hf
    exact ⟨h.root, of_decide_eq_true ht⟩
  · obtain ⟨hm, ht⟩ := h.findDown (fun _ => h.root) hf hr
    exact ⟨hm, of_decide_eq_true ht⟩

/-- What an insertion below `n` leaves. -/
structure Inserted (t : ProcessTree) (block p n : Word) (t' : ProcessTree) : Prop where
  fresh : block ≠ 0 ∧ block ∉ t.blocks
  root : t'.root = t.root
  blocks : t'.blocks = block :: t.blocks
  process : t'.processOf block = p
  parent : (t'.pnodes block).parent = n
  none : t'.firstOf block = 0 ∧ t'.nextOf block = 0
  same : ∀ a, a ≠ block → t'.processOf a = t.processOf a ∧
    (t'.pnodes a).parent = (t.pnodes a).parent ∧ (t'.pnodes a).prev = (t.pnodes a).prev
  first : ∀ a, a ≠ block → t'.firstOf a = t.firstOf a ∨
    (a = n ∧ t.firstOf n = 0 ∧ t'.firstOf a = block ∧ (t'.pnodes block).prev = 0)
  next : ∀ a, a ≠ block → t'.nextOf a = t.nextOf a ∨ t'.nextOf a = block
  prev : (t'.pnodes block).prev = 0 → t'.firstOf n = block

theorem Linked.insert (h : Linked t) {block parent : Word}
    (hi : insertProcessToProcessTree t block p parent = .ok t') :
    ∃ n, n ∈ t.blocks ∧ t.processOf n = parent ∧ Inserted t block p n t' := by
  unfold insertProcessToProcessTree at hi
  split at hi
  · cases hi
  next n hf =>
    split_ifs at hi with hn0 hb h0
    · obtain ⟨hb0, hbm⟩ := not_or.mp hb
      obtain ⟨hn, hproc⟩ := h.find hf hn0
      have hnb : block ≠ n := fun he => hbm (he ▸ hn)
      cases hi
      refine ⟨n, hn, hproc, ⟨hb0, hbm⟩, rfl, rfl, ?_, ?_, ?_, ?_, ?_, ?_, ?_⟩
      · simp [ProcessTree.processOf, hnb]
      · simp [hnb]
      · simp [ProcessTree.firstOf, ProcessTree.nextOf, hnb]
      · intro a ha
        rcases eq_or_ne a n with rfl | han
        · simp [ProcessTree.processOf, ha]
        · simp [ProcessTree.processOf, ha, han]
      · intro a ha
        rcases eq_or_ne a n with rfl | han
        · exact .inr ⟨rfl, h0, by simp [ProcessTree.firstOf], by simp [hnb]⟩
        · exact .inl (by simp [ProcessTree.firstOf, ha, han])
      · intro a ha
        rcases eq_or_ne a n with rfl | han
        · exact .inl (by simp [ProcessTree.nextOf, ha])
        · exact .inl (by simp [ProcessTree.nextOf, ha, han])
      · intro _
        simp [ProcessTree.firstOf]
    · obtain ⟨hb0, hbm⟩ := not_or.mp hb
      obtain ⟨hn, hproc⟩ := h.find hf hn0
      split at hi
      · cases hi
      next q hq =>
        have hq0 := findAlong_last_ne h0 hq
        have hqm : q ∈ t.blocks :=
          (findAlong_some (S := (· ∈ t.blocks)) h.next (fun hne => (h.first n hn hne).1) hq hq0).1
        have hqb : block ≠ q := fun he => hbm (he ▸ hqm)
        cases hi
        refine ⟨n, hn, hproc, ⟨hb0, hbm⟩, rfl, rfl, ?_, ?_, ?_, ?_, ?_, ?_, ?_⟩
        · simp [ProcessTree.processOf, hqb]
        · simp [hqb]
        · simp [ProcessTree.firstOf, ProcessTree.nextOf, hqb]
        · intro a ha
          rcases eq_or_ne a q with rfl | haq
          · simp [ProcessTree.processOf, ha]
          · simp [ProcessTree.processOf, ha, haq]
        · intro a ha
          rcases eq_or_ne a q with rfl | haq
          · exact .inl (by simp [ProcessTree.firstOf, ha])
          · exact .inl (by simp [ProcessTree.firstOf, ha, haq])
        · intro a ha
          rcases eq_or_ne a q with rfl | haq
          · exact .inr (by simp [ProcessTree.nextOf])
          · exact .inl (by simp [ProcessTree.nextOf, ha, haq])
        · intro hp
          exact absurd (by simpa [hqb] using hp) hq0

/-- What a deletion leaves: it clears first_child only above a node of the process. -/
structure Deleted (t : ProcessTree) (p : Word) (t' : ProcessTree) : Prop where
  root : t'.root = t.root
  blocks : t'.blocks = t.blocks
  same : ∀ a, t'.processOf a = t.processOf a ∧ (t'.pnodes a).parent = (t.pnodes a).parent ∧
    (t'.pnodes a).prev = (t.pnodes a).prev
  first : ∀ a, t'.firstOf a = t.firstOf a ∨ (t'.firstOf a = 0 ∧
    ∃ n ∈ t.blocks, t.processOf n = p ∧ (t.pnodes n).prev = 0 ∧ (t.pnodes n).parent = a ∧ a ≠ 0)
  next : ∀ a, t'.nextOf a = t.nextOf a ∨ ∃ n ∈ t.blocks, t'.nextOf a = t.nextOf n

theorem Linked.delete (h : Linked t) {r : Int}
    (hd : deleteProcessFromProcessTree t p = .ok (r, t')) : Deleted t p t' := by
  unfold deleteProcessFromProcessTree at hd
  split at hd
  · cases hd
  next n hf =>
    split_ifs at hd with hn0 hprev hpar
    · obtain ⟨-, rfl⟩ := Prod.mk.inj (Except.ok.inj hd)
      exact ⟨rfl, rfl, fun _ => ⟨rfl, rfl, rfl⟩, fun _ => .inl rfl, fun _ => .inl rfl⟩
    · obtain ⟨hn, -⟩ := h.find hf hn0
      obtain ⟨-, rfl⟩ := Prod.mk.inj (Except.ok.inj hd)
      refine ⟨rfl, rfl, fun a => ?_, fun a => .inl ?_, fun a => ?_⟩
      · rcases eq_or_ne a (t.pnodes n).prev with rfl | ha
        · simp [ProcessTree.processOf]
        · simp [ProcessTree.processOf, ha]
      · rcases eq_or_ne a (t.pnodes n).prev with rfl | ha
        · simp [ProcessTree.firstOf]
        · simp [ProcessTree.firstOf, ha]
      · rcases eq_or_ne a (t.pnodes n).prev with rfl | ha
        · exact .inr ⟨n, hn, by simp [ProcessTree.nextOf]⟩
        · exact .inl (by simp [ProcessTree.nextOf, ha])
    · obtain ⟨hn, hproc⟩ := h.find hf hn0
      obtain ⟨-, rfl⟩ := Prod.mk.inj (Except.ok.inj hd)
      refine ⟨rfl, rfl, fun a => ?_, fun a => ?_, fun a => .inl ?_⟩
      · rcases eq_or_ne a (t.pnodes n).parent with rfl | ha
        · simp [ProcessTree.processOf]
        · simp [ProcessTree.processOf, ha]
      · rcases eq_or_ne a (t.pnodes n).parent with rfl | ha
        · exact .inr ⟨by simp [ProcessTree.firstOf], n, hn, hproc, not_not.mp hprev, rfl, hpar⟩
        · exact .inl (by simp [ProcessTree.firstOf, ha])
      · rcases eq_or_ne a (t.pnodes n).parent with rfl | ha
        · simp [ProcessTree.nextOf]
        · simp [ProcessTree.nextOf, ha]

theorem Inserted.linked {block n : Word} (hi : Inserted t block p n t') (h : Linked t) :
    Linked t' := by
  have hb : ∀ a, a ∈ t'.blocks ↔ a = block ∨ a ∈ t.blocks := by simp [hi.blocks]
  have hne : ∀ a ∈ t.blocks, a ≠ block := fun a ha he => hi.fresh.2 (he ▸ ha)
  refine ⟨?_, ?_, fun a ha h0 => ?_, fun a ha h0 => ?_⟩
  · rw [hb]
    exact fun hz => hz.elim (fun he => hi.fresh.1 he.symm) h.zero
  · rw [hi.root, hb]
    exact .inr h.root
  · rcases (hb a).mp ha with rfl | ha
    · exact absurd hi.none.1 h0
    rcases hi.first a (hne a ha) with he | ⟨rfl, -, he, hp⟩
    · rw [he] at h0 ⊢
      obtain ⟨hm, hpar, hprev⟩ := h.first a ha h0
      obtain ⟨-, hpar', hprev'⟩ := hi.same _ (hne _ hm)
      exact ⟨(hb _).mpr (.inr hm), hpar'.trans hpar, hprev'.trans hprev⟩
    · rw [he]
      exact ⟨(hb _).mpr (.inl rfl), hi.parent, hp⟩
  · rcases (hb a).mp ha with rfl | ha
    · exact absurd hi.none.2 h0
    rcases hi.next a (hne a ha) with he | he
    · rw [he] at h0 ⊢
      exact (hb _).mpr (.inr (h.next a ha h0))
    · exact (hb _).mpr (.inl he)

theorem Deleted.linked (hd : Deleted t p t') (h : Linked t) : Linked t' := by
  refine ⟨?_, ?_, fun a ha h0 => ?_, fun a ha h0 => ?_⟩
  · rw [hd.blocks]
    exact h.zero
  · rw [hd.root, hd.blocks]
    exact h.root
  · rw [hd.blocks] at ha ⊢
    rcases hd.first a with he | ⟨he, -⟩
    · rw [he] at h0 ⊢
      obtain ⟨hm, hpar, hprev⟩ := h.first a ha h0
      obtain ⟨-, hpar', hprev'⟩ := hd.same (t.firstOf a)
      exact ⟨hm, hpar'.trans hpar, hprev'.trans hprev⟩
    · exact absurd he h0
  · rw [hd.blocks] at ha ⊢
    rcases hd.next a with he | ⟨n, hn, he⟩
    · rw [he] at h0 ⊢
      exact h.next a ha h0
    · rw [he] at h0 ⊢
      exact h.next n hn h0

end Tree

/-- The process `c` comes from a fork that `p` made. -/
def ForkedBy (past : List (Transition Tasks TaskCall (Option Word))) (p c : Word) : Prop :=
  ∃ y ∈ past, ∃ node, y.input = .fork c node ∧ y.pre.currentProcess = p

theorem ForkedBy.later {past : List (Transition Tasks TaskCall (Option Word))} {c : Word}
    (h : ForkedBy past p c) (x : Transition Tasks TaskCall (Option Word)) :
    ForkedBy (past ++ [x]) p c := by
  obtain ⟨y, hy, hf⟩ := h
  exact ⟨y, List.mem_append_left _ hy, hf⟩

/-- The wait of `p` is for a child of its node, which has no left neighbour. -/
def WaitsFor (t : Tasks) (p : Word) (w : Wait) : Prop :=
  ∃ n ∈ t.tree.blocks, (t.tree.pnodes n).prev = 0 ∧ (t.tree.pnodes n).parent = w.pnode ∧
    w.pnode ≠ 0 ∧ t.tree.processOf w.pnode = p ∧ t.pidOf (t.tree.processOf n) = w.ret

/-- The nodes belong to forked processes; a node without a left neighbour is the first child
of its parent or its process has finished; every wait is for such a node. -/
structure Waiting (t : Tasks) (past : List (Transition Tasks TaskCall (Option Word))) : Prop where
  linked : Linked t.tree
  root : t.tree.processOf t.tree.root = t.processList ∧
    (t.tree.pnodes t.tree.root).parent = 0 ∧ (t.tree.pnodes t.tree.root).prev = 0
  created : ∀ n ∈ t.tree.blocks, t.tree.processOf n ∈ t.blocks
  parent : ∀ n ∈ t.tree.blocks, (t.tree.pnodes n).parent ≠ 0 →
    (t.tree.pnodes n).parent ∈ t.tree.blocks
  forked : ∀ n ∈ t.tree.blocks, (t.tree.pnodes n).parent ≠ 0 →
    ForkedBy past (t.tree.processOf (t.tree.pnodes n).parent) (t.tree.processOf n)
  only : ∀ n ∈ t.tree.blocks, (t.tree.pnodes n).prev = 0 → (t.tree.pnodes n).parent ≠ 0 →
    t.tree.firstOf (t.tree.pnodes n).parent = n ∨ t.stateOf (t.tree.processOf n) = .finished
  waits : ∀ p w, t.waits p = some w → WaitsFor t p w

section Steps
variable {t t' : Tasks} {past : List (Transition Tasks TaskCall (Option Word))}

/-- A step that leaves the tree alone and unfinishes no process. -/
theorem Waiting.frame (t' : Tasks) (hw : Waiting t past) (htree : t'.tree = t.tree)
    (hlist : t'.processList = t.processList) (hblocks : t'.blocks = t.blocks)
    (hpid : ∀ a, t'.pidOf a = t.pidOf a)
    (hfin : ∀ a, t.stateOf a = .finished → t'.stateOf a = .finished)
    (hwaits : ∀ p w, t'.waits p = some w → t.waits p = some w ∨ WaitsFor t p w)
    (x : Transition Tasks TaskCall (Option Word)) : Waiting t' (past ++ [x]) := by
  refine ⟨?_, ?_, ?_, ?_, ?_, ?_, ?_⟩
  · rw [htree]
    exact hw.linked
  · rw [htree, hlist]
    exact hw.root
  · rw [htree, hblocks]
    exact hw.created
  · rw [htree]
    exact hw.parent
  · rw [htree]
    exact fun n hn h0 => (hw.forked n hn h0).later x
  · rw [htree]
    exact fun n hn hp h0 => (hw.only n hn hp h0).imp_right (hfin _)
  · intro p w h
    obtain ⟨n, hn, hprev, hpar, h0, hp, hret⟩ := (hwaits p w h).elim (hw.waits p w) id
    unfold WaitsFor
    rw [htree]
    exact ⟨n, hn, hprev, hpar, h0, hp, (hpid _).trans hret⟩

theorem Waiting.fork {child node last : Word} (hw : Waiting t past)
    (hf : Forked t child node last t') (hpre : x.pre = t) (hin : x.input = .fork child node) :
    Waiting t' (past ++ [x]) := by
  obtain ⟨hlist, hcur, -, hblocks, hwaits⟩ := hf.rest
  obtain ⟨n, hn, hproc, hi⟩ := hw.linked.insert hf.tree
  have hb : ∀ a, a ∈ t'.tree.blocks ↔ a = node ∨ a ∈ t.tree.blocks := by simp [hi.blocks]
  have hne : ∀ a ∈ t.tree.blocks, a ≠ node := fun a ha he => hi.fresh.2 (he ▸ ha)
  have hchild : ∀ a ∈ t.tree.blocks, t.tree.processOf a ≠ child :=
    fun a ha he => hf.fresh.2 (he ▸ hw.created a ha)
  refine ⟨hi.linked hw.linked, ?_, ?_, ?_, ?_, ?_, ?_⟩
  · obtain ⟨hs, hp, hv⟩ := hi.same _ (hne _ hw.linked.root)
    rw [hi.root, hlist, hs, hp, hv]
    exact hw.root
  · intro a ha
    rw [hblocks]
    rcases (hb a).mp ha with rfl | ha
    · rw [hi.process]
      exact .head _
    · rw [(hi.same a (hne a ha)).1]
      exact .tail _ (hw.created a ha)
  · intro a ha h0
    rcases (hb a).mp ha with rfl | ha
    · rw [hi.parent]
      exact (hb n).mpr (.inr hn)
    · rw [(hi.same a (hne a ha)).2.1] at h0 ⊢
      exact (hb _).mpr (.inr (hw.parent a ha h0))
  · intro a ha h0
    rcases (hb a).mp ha with rfl | ha
    · rw [hi.parent, hi.process, (hi.same n (hne n hn)).1, hproc]
      exact ⟨x, by simp, a, hin, by rw [hpre]⟩
    · obtain ⟨hs, hp, -⟩ := hi.same a (hne a ha)
      rw [hp] at h0
      rw [hp, hs, (hi.same _ (hne _ (hw.parent a ha h0))).1]
      exact (hw.forked a ha h0).later x
  · intro a ha hprev h0
    rcases (hb a).mp ha with rfl | ha
    · rw [hi.parent]
      exact .inl (hi.prev hprev)
    · obtain ⟨hs, hp, hv⟩ := hi.same a (hne a ha)
      rw [hv] at hprev
      rw [hp] at h0
      rw [hp, hs, hf.state, if_neg (hchild a ha)]
      rcases hw.only a ha hprev h0 with hfirst | hfin
      · rcases hi.first _ (hne _ (hw.parent a ha h0)) with he | ⟨he, hz, -⟩
        · exact .inl (he.trans hfirst)
        · -- the parent had no first child
          rw [← he, hfirst] at hz
          exact absurd (hz ▸ ha) hw.linked.zero
      · exact .inr hfin
  · intro p w h
    rw [hwaits] at h
    obtain ⟨a, ha, hprev, hpar, h0, hp, hret⟩ := hw.waits p w h
    obtain ⟨hs, hp', hv⟩ := hi.same a (hne a ha)
    have hm := hw.parent a ha (by rw [hpar]; exact h0)
    rw [hpar] at hm
    refine ⟨a, (hb a).mpr (.inr ha), hv.trans hprev, hp'.trans hpar, h0, ?_, ?_⟩
    · rw [(hi.same _ (hne _ hm)).1, hp]
    · rw [hs, hf.pid, if_neg (hchild a ha), hret]

theorem Waiting.exit {prev : Word} (hw : Waiting t past) (hx : Exited t prev t')
    (hrun : t.stateOf t.currentProcess ≠ .finished)
    (x : Transition Tasks TaskCall (Option Word)) : Waiting t' (past ++ [x]) := by
  obtain ⟨hlist, -, -, hblocks, hwaits⟩ := hx.rest
  obtain ⟨r, hdel⟩ := hx.tree
  have hd := hw.linked.delete hdel
  refine ⟨hd.linked hw.linked, ?_, ?_, ?_, ?_, ?_, ?_⟩
  · obtain ⟨hs, hp, hv⟩ := hd.same t.tree.root
    rw [hd.root, hlist, hs, hp, hv]
    exact hw.root
  · intro a ha
    rw [hd.blocks] at ha
    rw [hblocks, (hd.same a).1]
    exact hw.created a ha
  · intro a ha h0
    rw [hd.blocks] at ha ⊢
    rw [(hd.same a).2.1] at h0 ⊢
    exact hw.parent a ha h0
  · intro a ha h0
    rw [hd.blocks] at ha
    rw [(hd.same a).2.1] at h0 ⊢
    rw [(hd.same a).1, (hd.same _).1]
    exact (hw.forked a ha h0).later x
  · intro a ha hprev h0
    obtain ⟨hs, hp, hv⟩ := hd.same a
    rw [hd.blocks] at ha
    rw [hv] at hprev
    rw [hp] at h0
    have hfin : t.stateOf (t.tree.processOf a) = .finished →
        t'.stateOf (t.tree.processOf a) = .finished := by
      intro h
      rw [hx.state]
      split_ifs
      · rfl
      · exact h
    rw [hp, hs]
    rcases hw.only a ha hprev h0 with hfirst | hf
    · rcases hd.first (t.tree.pnodes a).parent with he | ⟨-, n, hn, hproc, hnprev, hnpar, -⟩
      · exact .inl (he.trans hfirst)
      · -- the deleted node was the first child, which is `a`
        right
        rcases hw.only n hn hnprev (by rw [hnpar]; exact h0) with hn' | hn'
        · rw [hnpar, hfirst] at hn'
          rw [hn', hproc, hx.state, if_pos rfl]
        · rw [hproc] at hn'
          exact absurd hn' hrun
    · exact .inr (hfin hf)
  · intro p w h
    rw [hwaits] at h
    obtain ⟨a, ha, hprev, hpar, h0, hp, hret⟩ := hw.waits p w h
    obtain ⟨hs, hp', hv⟩ := hd.same a
    refine ⟨a, by rw [hd.blocks]; exact ha, hv.trans hprev, hp'.trans hpar, h0, ?_, ?_⟩
    · rw [(hd.same _).1, hp]
    · rw [hs, hx.pid, hret]

/-- Pid 1 has the root of the tree, and its deletion follows a NULL parent. -/
theorem Waiting.exit_first (hw : Waiting t past) (hc : t.currentProcess = t.processList)
    (h0 : t.processList ≠ 0) : Scheduler.exit t = .error .fault := by
  obtain ⟨hproc, hpar, hprev⟩ := hw.root
  have hr : t.tree.root ≠ 0 := fun he => hw.linked.zero (he ▸ hw.linked.root)
  have hst : (t.setState t.currentProcess .finished).stateOf t.processList = .finished := by
    simp [Tasks.setState, stateOf, hc]
  have hdel : deleteProcessFromProcessTree t.tree t.processList = .error .fault := by
    unfold deleteProcessFromProcessTree findProcessFromProcessTree findNode
    simp only [hproc, decide_true, if_true, if_neg hr, hprev, ne_eq, not_true_eq_false, if_false,
      hpar]
  refine (if_neg h0).trans ((if_pos hst).trans ?_)
  simp only [if_true]
  exact hdel ▸ rfl

theorem Waiting.waitpid (hw : Waiting t past) {r : Option Word}
    (h : Scheduler.waitpid t = .ok (r, t')) : (r = some (-1) ∧ t' = t) ∨
      (r = none ∧ ∃ w, WaitsFor t t.currentProcess w ∧
        t' = { t.setState t.currentProcess .waiting with
          waits := fun a => if a = t.currentProcess then some w else t.waits a }) := by
  simp only [Scheduler.waitpid] at h
  split at h
  · cases h
  · next pnode hf =>
    split_ifs at h with hp0 hf0
    · cases h
      exact .inl ⟨rfl, rfl⟩
    · cases h
      obtain ⟨hm, hproc⟩ := hw.linked.find hf hp0
      obtain ⟨hc, hpar, hprev⟩ := hw.linked.first pnode hm hf0
      exact .inr ⟨rfl, _, ⟨_, hc, hprev, hpar, hp0, hproc, rfl⟩, rfl⟩

theorem setState_pid (t : Tasks) (p a : Word) (s : ProcessState) :
    (t.setState p s).pidOf a = t.pidOf a := by
  simp only [Tasks.setState, pidOf, set_processes]
  split_ifs <;> rfl

theorem setState_finished {a : Word} {s : ProcessState} (hp : t.stateOf p ≠ .finished)
    (ha : t.stateOf a = .finished) : (t.setState p s).stateOf a = .finished := by
  simp only [Tasks.setState, stateOf, set_processes]
  split_ifs with he
  · exact absurd (he ▸ ha) hp
  · exact ha

theorem Waiting.switched (hw : Waiting t past) {h : History} (hq : Queued t h)
    (hs : switchTask t = .ok t') (x : Transition Tasks TaskCall (Option Word)) :
    Waiting t' (past ++ [x]) := by
  cases hq.switchTask.symm.trans hs
  exact hw.frame { t with currentProcess := following t } rfl rfl rfl (fun _ => rfl)
    (fun _ h => h) (fun _ _ h => .inl h) x

theorem Waiting.wait (hw : Waiting t past) (hrun : t.stateOf t.currentProcess ≠ .finished)
    {w : Option Wait} (hwf : ∀ v, w = some v → WaitsFor t t.currentProcess v) (s : ProcessState)
    (x : Transition Tasks TaskCall (Option Word)) :
    Waiting { t.setState t.currentProcess s with
      waits := fun a => if a = t.currentProcess then w else t.waits a } (past ++ [x]) := by
  refine hw.frame { t.setState t.currentProcess s with
    waits := fun a => if a = t.currentProcess then w else t.waits a } rfl rfl rfl
    (fun a => setState_pid t _ a _) (fun a => setState_finished hrun) (fun p v h => ?_) x
  by_cases hp : p = t.currentProcess
  · exact .inr (hp ▸ hwf v ((if_pos hp).symm.trans h))
  · exact .inl ((if_neg hp).symm.trans h)

theorem Waiting.step {h : History} (hq : Queued x.pre h) (hw : Waiting x.pre past)
    (hs : step x.pre x.input = .ok (x.output, x.post)) :
    (x.input = .exit → x.pre.currentProcess ≠ x.pre.processList) ∧
      Waiting x.post (past ++ [x]) := by
  obtain ⟨t, call, o, t'⟩ := x
  change Waiting t past at hw
  replace hs : Stepped t call o t' := step_stepped hs
  cases hs with
  | fork alive forked => exact ⟨nofun, hw.fork forked rfl rfl⟩
  | exit alive runs call =>
    have hne : t.currentProcess ≠ t.processList := by
      intro hc
      rw [hw.exit_first hc (hq.chain.ne_null _ hq.first_live)] at call
      cases call
    obtain ⟨xs, prev, ys, -, hex⟩ := hq.exited_of_exit alive hne call
    exact ⟨fun _ => hne, hw.exit hex alive _⟩
  | waitpid alive call =>
    refine ⟨nofun, ?_⟩
    rcases hw.waitpid call with ⟨-, rfl⟩ | ⟨-, w, hwf, rfl⟩
    · exact hw.frame _ rfl rfl rfl (fun _ => rfl) (fun _ h => h) (fun _ _ h => .inl h) _
    · exact hw.wait alive (fun v hv => Option.some.inj hv ▸ hwf) _ _
  | returned waits =>
    have alive : t.stateOf t.currentProcess ≠ .finished := by
      intro hf
      rw [hq.waits _ ((hq.finished _ hq.current).mp hf)] at waits
      cases waits
    exact ⟨nofun, hw.wait alive (fun v hv => by cases hv) _ _⟩
  | switched which switch =>
    refine ⟨fun he => ?_, hw.switched hq switch _⟩
    rcases which with rfl | rfl <;> cases he

end Steps

theorem setup_waiting {init idle root : Word} (hroot : root ≠ 0) :
    Waiting (setupInitialProcess init idle root) [] := by
  have hb : ∀ n, n ∈ (setupInitialProcess init idle root).tree.blocks ↔ n = root := by
    simp [setupInitialProcess, setupProcessTree]
  refine ⟨⟨?_, ?_, ?_, ?_⟩, ⟨rfl, rfl, rfl⟩, ?_, ?_, ?_, ?_,
    fun p w hw => absurd hw (by simp [setupInitialProcess])⟩
  · rw [hb]
    exact Ne.symm hroot
  · exact (hb _).mpr rfl
  · exact fun n _ h0 => absurd rfl h0
  · exact fun n _ h0 => absurd rfl h0
  · intro n _
    simp [setupInitialProcess, setupProcessTree, ProcessTree.processOf]
  · exact fun n _ h0 => absurd rfl h0
  · exact fun n _ h0 => absurd rfl h0
  · exact fun n _ _ h0 => absurd rfl h0

/-- A value other than -1 that `_waitpid(-1, ...)` returns is the pid of a process that the
caller forked and that has finished. -/
theorem waitpid_reports_finished {init idle root r : Word} {calls : List TaskCall}
    {before after : List (Transition Tasks TaskCall (Option Word))}
    {x : Transition Tasks TaskCall (Option Word)} (h1 : init ≠ 0) (h2 : idle ≠ 0)
    (h12 : init ≠ idle) (hroot : root ≠ 0)
    (hr : run step (setupInitialProcess init idle root) calls = some (before ++ x :: after))
    (hx : x.input = .waitpid ∨ x.input = .resume) (ho : x.output = some r) (hne : r ≠ -1) :
    ∃ child, ForkedBy before x.pre.currentProcess child ∧ x.post.pidOf child = r ∧
      x.post.stateOf child = .finished := by
  have hs := run_step hr x (by simp)
  obtain ⟨⟨js, hjs⟩, hpre, -⟩ := run_around hr
  obtain ⟨hq, hw⟩ := run_history (C := fun _ => True)
    (R := fun t past => Queued t (past.foldl History.record (boot init idle)) ∧ Waiting t past)
    (fun y past hR _ hy => by
      obtain ⟨hne, hw⟩ := hR.2.step hR.1 hy
      rw [List.foldl_append]
      exact ⟨hR.1.step hne hy, hw⟩)
    hjs ⟨setup_queued h1 h2 h12, setup_waiting hroot⟩ (fun _ _ => trivial)
  rw [← hpre] at hq hw
  rcases hx with hx | hx
  · rw [hx] at hs
    simp only [step] at hs
    split_ifs at hs
    rcases hw.waitpid hs with ⟨ho', -⟩ | ⟨ho', -⟩
    · exact absurd (Option.some.inj (ho.symm.trans ho')) hne
    · cases ho.symm.trans ho'
  · rw [hx] at hs
    simp only [step] at hs
    split at hs
    · cases hs
    next w hwait =>
      simp only [waitLoop] at hs
      split_ifs at hs with h0
      · obtain ⟨hret, hpost⟩ := Prod.mk.inj (Except.ok.inj hs)
        obtain rfl : w.ret = r := Option.some.inj (hret.trans ho)
        obtain ⟨n, hn, hprev, hpar, hp0, hproc, hpid⟩ := hw.waits _ w hwait
        have hfin : x.pre.stateOf (x.pre.tree.processOf n) = .finished := by
          refine (hw.only n hn hprev (by rw [hpar]; exact hp0)).resolve_left ?_
          rw [hpar, h0]
          exact fun he => hw.linked.zero (he ▸ hn)
        have hrun : x.pre.stateOf x.pre.currentProcess ≠ .finished := by
          intro hf
          rw [hq.waits _ ((hq.finished _ hq.current).mp hf)] at hwait
          cases hwait
        have hfork := hw.forked n hn (by rw [hpar]; exact hp0)
        rw [hpar, hproc] at hfork
        refine ⟨_, hfork, ?_, ?_⟩
        · rw [← hpost, ← hpid]
          exact setState_pid _ _ _ _
        · rw [← hpost]
          exact setState_finished hrun hfin
      · -- a round of the loop that yields returns nothing
        rw [hq.switchTask] at hs
        obtain ⟨hnone, -⟩ := Prod.mk.inj (Except.ok.inj hs)
        cases hnone.trans ho

/-- Pid 1 forks and waits until its child has exited. -/
def waitForChild : List TaskCall :=
  [.fork 24 72, .waitpid, .resume, .switch, .exit, .switch, .resume]

theorem waitpid_reports_finished_child : ∃ before x,
    run step (setupInitialProcess 8 16 64) waitForChild = some (before ++ [x]) ∧
    x.output = some 2 ∧
    ∃ child, ForkedBy before x.pre.currentProcess child ∧ x.post.pidOf child = 2 ∧
      x.post.stateOf child = .finished := by
  obtain ⟨tr, hr, x, hl, hin, hout⟩ : ∃ tr ∈ run step (setupInitialProcess 8 16 64) waitForChild,
      ∃ x ∈ tr.getLast?, x.input = .resume ∧ x.output = some 2 := by decide
  obtain ⟨before, rfl⟩ := List.getLast?_eq_some_iff.mp hl
  exact ⟨before, x, hr, hout, waitpid_reports_finished
    (by decide) (by decide) (by decide) (by decide) hr (.inr hin) hout (by decide)⟩

end TapiOS.Task.Scheduler
