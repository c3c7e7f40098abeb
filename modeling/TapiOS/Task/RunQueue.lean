import Mathlib.Data.List.Rotate
import TapiOS.Task.Scheduler

/-!
# The run queue over whole runs

process_list is compared with the history of a run: the processes in the order of their
creation, without those that have exited. A process that exits takes itself out of the
list while it is the current one, and its next link is followed once more.
-/
namespace TapiOS.Task.Scheduler

open Lib Util Tasks

variable {p child node pp : Word} {i n : Nat} {q xs ys : List Word}

/-- Who was created, oldest first, and who has exited. -/
structure History where
  created : List Word
  exited : List Word
  deriving DecidableEq, Repr

namespace History

def live (h : History) : List Word := h.created.filter fun p => decide (p ∉ h.exited)

/-- A fork creates its child; an exit is that of the current process. -/
def record (h : History) (x : Transition Tasks TaskCall (Option Word)) : History :=
  match x.input with
  | .fork child _ => { h with created := h.created ++ [child] }
  | .exit => { h with exited := h.exited ++ [x.pre.currentProcess] }
  | _ => h

theorem mem_live {h : History} : p ∈ h.live ↔ p ∈ h.created ∧ p ∉ h.exited := by
  simp [live]

end History

/-- The pids in the order of creation: pid 1, the idle task, and then nextpid. -/
def pidAt : Nat → Word
  | 0 => 1
  | 1 => -1
  | n => BitVec.ofNat 32 n

theorem pidAt_inj {j : Nat} (hi : i < 2 ^ 31) (hj : j < 2 ^ 31) (h : pidAt i = pidAt j) :
    i = j := by
  have h' := congrArg BitVec.toNat h
  match i, j with
  | 0, 0 => rfl
  | 0, 1 => exact absurd h (by decide)
  | 1, 0 => exact absurd h (by decide)
  | 1, 1 => rfl
  | 0, n + 2 => simp [pidAt] at h'; omega
  | n + 2, 0 => simp [pidAt] at h'; omega
  | 1, n + 2 => simp [pidAt] at h'; omega
  | n + 2, 1 => simp [pidAt] at h'; omega
  | n + 2, m + 2 => simp [pidAt] at h'; omega

/-- What process_list, the states and the pids have to do with the history. -/
structure Queued (t : Tasks) (h : History) : Prop where
  blocks : t.blocks.reverse = h.created
  zero : 0 ∉ h.created
  nodup : h.created.Nodup
  head : ∃ idle rest, h.created = t.processList :: idle :: rest ∧ t.processList ∉ h.exited
  exited : ∀ p ∈ h.exited, p ∈ h.created
  finished : ∀ p ∈ h.created, t.stateOf p = .finished ↔ p ∈ h.exited
  chain : Chain 0 t.nextOf t.processList h.live
  current : t.currentProcess ∈ h.created
  left : t.currentProcess ∈ h.exited →
    t.nextOf t.currentProcess = 0 ∨ t.nextOf t.currentProcess ∈ h.live
  nextpid : t.nextpid = BitVec.ofNat 32 h.created.length
  pids : ∀ i p, h.created[i]? = some p → t.pidOf p = pidAt i
  waits : ∀ p ∈ h.exited, t.waits p = none

section Queue
variable {t t' : Tasks} {h : History}

section Live
variable (hq : Queued t h)
include hq

theorem Queued.live_nodup : h.live.Nodup := hq.nodup.filter _

theorem Queued.first_live : t.processList ∈ h.live := by
  obtain ⟨idle, rest, hc, he⟩ := hq.head
  exact History.mem_live.mpr ⟨by rw [hc]; exact .head _, he⟩

theorem Queued.state_live (hp : p ∈ h.live) : t.stateOf p ≠ .finished := by
  obtain ⟨hc, he⟩ := History.mem_live.mp hp
  intro hf
  exact he ((hq.finished p hc).mp hf)

/-- A current process that has not finished is in the list. -/
theorem Queued.current_live (hc : t.stateOf t.currentProcess ≠ .finished) :
    t.currentProcess ∈ h.live :=
  History.mem_live.mpr ⟨hq.current, fun he => hc ((hq.finished _ hq.current).mpr he)⟩

theorem Queued.length_le : h.live.length ≤ processBound :=
  nodup_length_le hq.live_nodup

/-- The next process is found without a search: its link leads to one that has not
finished. -/
theorem Queued.next_live (hn : t.nextOf t.currentProcess ≠ 0) :
    t.nextOf t.currentProcess ∈ h.live := by
  by_cases he : t.currentProcess ∈ h.exited
  · exact (hq.left he).resolve_left hn
  · have hl : t.currentProcess ∈ h.live := History.mem_live.mpr ⟨hq.current, he⟩
    obtain ⟨xs, ys, hs⟩ := hq.chain.behind hl hn
    rw [hs]
    simp

/-- The process after the current one in the list, process_list after the last one. -/
def following (t : Tasks) : Word :=
  if t.nextOf t.currentProcess = 0 then t.processList else t.nextOf t.currentProcess

theorem Queued.following_live : following t ∈ h.live := by
  unfold following
  split_ifs with hn
  · exact hq.first_live
  · exact hq.next_live hn

theorem Queued.getNextProcess : getNextProcess t = .ok (following t) := by
  unfold Scheduler.getNextProcess following
  split_ifs with hn
  · rfl
  · have hs := hq.state_live (hq.next_live hn)
    rw [findAlong_here hn (decide_eq_true hs) (by decide)]
    simp only [if_neg hn]

theorem Queued.switchTask : switchTask t = .ok { t with currentProcess := following t } := by
  have h0 : t.currentProcess ≠ 0 := fun he => hq.zero (he ▸ hq.current)
  have hf : following t ≠ 0 := hq.chain.ne_null _ hq.following_live
  simp only [Scheduler.switchTask, if_neg h0, hq.getNextProcess, hf, false_or]
  split_ifs with he
  · rw [← he]
  · rfl

theorem Queued.switched : Queued { t with currentProcess := following t } h := by
  obtain ⟨hc, he⟩ := History.mem_live.mp hq.following_live
  exact ⟨hq.blocks, hq.zero, hq.nodup, hq.head, hq.exited, hq.finished, hq.chain, hc,
    fun hx => absurd hx he, hq.nextpid, hq.pids, hq.waits⟩

end Live

/-- What a fork leaves: `last` was the end of the list. -/
structure Forked (t : Tasks) (child node last : Word) (t' : Tasks) : Prop where
  fresh : child ≠ 0 ∧ child ∉ t.blocks
  last_ne : last ≠ 0
  found : findAlong 0 (fun a => if a = child then 0 else t.nextOf a)
    (fun a => decide ((if a = child then 0 else t.nextOf a) = 0)) processBound t.processList =
      some last
  tree : insertProcessToProcessTree t.tree node child t.currentProcess = .ok t'.tree
  next : ∀ a, t'.nextOf a = if a = last then child else if a = child then 0 else t.nextOf a
  state : ∀ a, t'.stateOf a = if a = child then .created else t.stateOf a
  pid : ∀ a, t'.pidOf a = if a = child then t.nextpid else t.pidOf a
  rest : t'.processList = t.processList ∧ t'.currentProcess = t.currentProcess ∧
    t'.nextpid = t.nextpid + 1 ∧ t'.blocks = child :: t.blocks ∧ t'.waits = t.waits

theorem fork_forked {pid : Word} (hf : fork t child node = .ok (pid, t')) :
    pid = t.nextpid ∧ ∃ last, Forked t child node last t' := by
  simp only [fork] at hf
  split_ifs at hf with hc
  obtain ⟨hc0, hcb⟩ := not_or.mp hc
  split at hf
  · cases hf
  · next last hl =>
    split_ifs at hf with h0
    split at hf
    · cases hf
    · next tree ht =>
      cases hf
      have hn : ∀ a, (if a = child then (⟨t.nextpid, 0, .created⟩ : Process)
          else t.processes a).next = if a = child then 0 else t.nextOf a :=
        fun a => apply_ite Process.next _ _ _
      refine ⟨rfl, last, ⟨hc0, hcb⟩, h0, ?_, ht, ?_, ?_, ?_, rfl, rfl, rfl, rfl, rfl⟩
      · rw [← hl]
        exact findAlong_congr (fun a => (hn a).symm)
          (fun a => congrArg (fun w : Word => decide (w = 0)) (hn a).symm) _ _
      · intro a
        simp only [nextOf, set_processes]
        split_ifs <;> rfl
      · intro a
        simp only [stateOf, set_processes]
        split_ifs <;> rfl
      · intro a
        simp only [pidOf, set_processes]
        split_ifs <;> rfl

theorem live_fork (he : ∀ p ∈ h.exited, p ∈ h.created) (hc : child ∉ h.created) :
    History.live { h with created := h.created ++ [child] } = h.live ++ [child] := by
  have hx : child ∉ h.exited := fun hm => hc (he child hm)
  simp [History.live, List.filter_append, hx]

theorem Forked.last_eq {last : Word} (hf : Forked t child node last t') (hq : Queued t h) :
    ∃ xs, h.live = xs ++ [last] := by
  have hcb : child ∉ h.created := by
    rw [← hq.blocks, List.mem_reverse]
    exact hf.fresh.2
  have hch : Chain 0 (fun a => if a = child then 0 else t.nextOf a) t.processList h.live := by
    refine hq.chain.congr fun s hs => if_neg ?_
    intro he
    exact hcb (he ▸ (History.mem_live.mp hs).1)
  obtain ⟨xs, q, hs⟩ : ∃ xs q, h.live = xs ++ [q] :=
    List.eq_nil_or_concat' h.live |>.resolve_left (List.ne_nil_of_mem hq.first_live)
  have hl := hf.found
  rw [hch.find _ hq.length_le] at hl
  rw [hs] at hl hch
  rw [hch.find_last] at hl
  obtain rfl : q = last := Option.some.inj hl
  exact ⟨xs, hs⟩

theorem Queued.fork {last : Word} (hq : Queued t h) (hrun : t.stateOf t.currentProcess ≠ .finished)
    (hf : Forked t child node last t') : Queued t' { h with created := h.created ++ [child] } := by
  obtain ⟨hlist, hcur, hpid, hblocks, hwaits⟩ := hf.rest
  obtain ⟨xs, hlive⟩ := hf.last_eq hq
  have hcb : child ∉ h.created := by
    rw [← hq.blocks, List.mem_reverse]
    exact hf.fresh.2
  have hne : ∀ p ∈ h.created, p ≠ child := fun p hp he => hcb (he ▸ hp)
  have hl : last ∈ h.created := (History.mem_live.mp (by rw [hlive]; simp)).1
  have hx : t.currentProcess ∉ h.exited := (History.mem_live.mp (hq.current_live hrun)).2
  refine ⟨?_, ?_, ?_, ?_, ?_, ?_, ?_, ?_, ?_, ?_, ?_, by rw [hwaits]; exact hq.waits⟩
  · rw [hblocks, List.reverse_cons, hq.blocks]
  · simpa using ⟨hq.zero, Ne.symm hf.fresh.1⟩
  · exact List.nodup_append.mpr ⟨hq.nodup, by simp, by simpa using hne⟩
  · obtain ⟨idle, rest, hc, he⟩ := hq.head
    exact ⟨idle, rest ++ [child], by simp [hc, hlist], by rwa [hlist]⟩
  · exact fun p hp => List.mem_append_left _ (hq.exited p hp)
  · intro p hp
    rcases List.mem_append.mp hp with hp | hp
    · rw [hf.state, if_neg (hne p hp)]
      exact hq.finished p hp
    · obtain rfl := List.mem_singleton.mp hp
      rw [hf.state, if_pos rfl]
      exact ⟨fun h0 => (by cases h0), fun h0 => absurd (hq.exited _ h0) hcb⟩
  · rw [live_fork hq.exited hcb, hlive, hlist, List.append_assoc]
    have hc := hq.chain
    rw [hlive] at hc
    have hnd := hq.live_nodup
    rw [hlive] at hnd
    refine hc.append hf.fresh.1 (by rw [hf.next, if_pos rfl]) ?_ ?_
    · rw [hf.next, if_neg (Ne.symm (hne _ hl)), if_pos rfl]
    · intro a ha
      have hac : a ∈ h.created := (History.mem_live.mp (by rw [hlive]; simp [ha])).1
      have hal : a ≠ last := (List.nodup_append.mp hnd).2.2 a ha last (by simp)
      rw [hf.next, if_neg hal, if_neg (hne a hac)]
  · rw [hcur]
    exact List.mem_append_left _ hq.current
  · intro hm
    rw [hcur] at hm
    exact absurd hm hx
  · rw [hpid, hq.nextpid, List.length_append]
    simp [BitVec.ofNat_add]
  · intro i p hp
    rcases Nat.lt_or_ge i h.created.length with hi | hi
    · rw [List.getElem?_append_left hi] at hp
      rw [hf.pid, if_neg (hne p (List.mem_of_getElem? hp))]
      exact hq.pids i p hp
    · rw [List.getElem?_append_right hi, List.getElem?_singleton] at hp
      split_ifs at hp with h0
      cases hp
      obtain ⟨idle, rest, hc, -⟩ := hq.head
      have hi' : i = h.created.length := by omega
      rw [hf.pid, if_pos rfl, hq.nextpid, hi', hc]
      rfl

theorem reapLoop_stop (hp : p ≠ 0) : reapLoop 0 pp p t = .error .endless :=
  if_neg hp

theorem reapLoop_skip (hp : p ≠ 0) (hs : t.stateOf p ≠ .finished) :
    reapLoop (n + 1) pp p t = reapLoop n p (t.nextOf p) t :=
  (if_neg hp).trans (if_neg hs)

theorem reapLoop_live (ss : List Word) (hc : Chain 0 t.nextOf p ss)
    (hs : ∀ a ∈ ss, t.stateOf a ≠ .finished) (hr : reapLoop n pp p t = .ok t') : t' = t := by
  induction ss generalizing n pp p with
  | nil =>
    obtain rfl : p = 0 := hc
    cases n <;> exact (Except.ok.inj hr).symm
  | cons s ss ih =>
    obtain ⟨rfl, hne, hc⟩ := hc
    cases n with
    | zero =>
      rw [reapLoop_stop hne] at hr
      cases hr
    | succ n =>
      rw [reapLoop_skip hne (hs p List.mem_cons_self)] at hr
      exact ih hc (fun a ha => hs a (.tail _ ha)) hr

/-- Only one process of the list is finished, and it is not the first. -/
theorem reapLoop_one {q v : Word} (hc : Chain 0 t.nextOf p (xs ++ q :: v :: ys))
    (hd : (xs ++ q :: v :: ys).Nodup) (hs : ∀ a ∈ xs ++ q :: ys, t.stateOf a ≠ .finished)
    (hv : t.stateOf v = .finished) (hr : reapLoop n pp p t = .ok t') :
    ∃ r tree, deleteProcessFromProcessTree t.tree v = .ok (r, tree) ∧
      t' = { t.set q fun x => { x with next := t.nextOf v } with tree := tree } := by
  induction xs generalizing n pp p with
  | nil =>
    obtain ⟨rfl, hp0, rfl, hv0, hc⟩ := hc
    match n with
    | 0 =>
      rw [reapLoop_stop hp0] at hr
      cases hr
    | 1 =>
      rw [reapLoop_skip hp0 (hs p (by simp)), reapLoop_stop hv0] at hr
      cases hr
    | n + 2 =>
      rw [reapLoop_skip hp0 (hs p (by simp))] at hr
      simp only [reapLoop, if_neg hp0, if_neg hv0, if_pos hv] at hr
      split at hr
      · cases hr
      · next r tree ht =>
        refine ⟨r, tree, ht, ?_⟩
        rw [List.nil_append, List.nodup_cons] at hd
        have hpv : t.nextOf p ≠ p := fun he => hd.1 (by rw [he]; exact .head _)
        refine reapLoop_live ys ?_ ?_ hr
        · have hn : ∀ a, a ≠ p → nextOf { t.set p fun x =>
              { x with next := t.nextOf (t.nextOf p) } with tree := tree } a = t.nextOf a :=
            fun a ha => congrArg Process.next (if_neg ha)
          rw [hn _ hpv]
          exact hc.congr fun a ha => hn a fun he => hd.1 (by simp [← he, ha])
        · intro a ha
          have hap : a ≠ p := fun he => hd.1 (by simp [← he, ha])
          have hst : stateOf { t.set p fun x =>
              { x with next := t.nextOf (t.nextOf p) } with tree := tree } a = t.stateOf a :=
            congrArg Process.state (if_neg hap)
          rw [hst]
          exact hs a (by simp [ha])
  | cons x xs ih =>
    obtain ⟨rfl, hp0, hc⟩ := hc
    cases n with
    | zero =>
      rw [reapLoop_stop hp0] at hr
      cases hr
    | succ n =>
      rw [reapLoop_skip hp0 (hs p (by simp))] at hr
      exact ih hc (List.nodup_cons.mp hd).2 (fun a ha => hs a (.tail _ ha)) hr

/-- What an exit leaves: the process before the current one is linked past it. -/
structure Exited (t : Tasks) (prev : Word) (t' : Tasks) : Prop where
  tree : ∃ r, deleteProcessFromProcessTree t.tree t.currentProcess = .ok (r, t'.tree)
  next : ∀ a, t'.nextOf a = if a = prev then t.nextOf t.currentProcess else t.nextOf a
  state : ∀ a, t'.stateOf a = if a = t.currentProcess then .finished else t.stateOf a
  pid : ∀ a, t'.pidOf a = t.pidOf a
  rest : t'.processList = t.processList ∧ t'.currentProcess = t.currentProcess ∧
    t'.nextpid = t.nextpid ∧ t'.blocks = t.blocks ∧ t'.waits = t.waits

theorem Queued.exited_of_exit (hq : Queued t h) (hrun : t.stateOf t.currentProcess ≠ .finished)
    (h1 : t.currentProcess ≠ t.processList) (hx : exit t = .ok t') :
    ∃ xs prev ys, h.live = xs ++ prev :: t.currentProcess :: ys ∧ Exited t prev t' := by
  obtain ⟨zs, ys, hz⟩ := List.append_of_mem (hq.current_live hrun)
  obtain ⟨xs, prev, rfl⟩ : ∃ xs q, zs = xs ++ [q] := by
    refine (List.eq_nil_or_concat' zs).resolve_left ?_
    intro h0
    have hc := hq.chain
    rw [hz, h0] at hc
    exact h1 hc.1.symm
  rw [List.append_assoc] at hz
  have hd := hq.live_nodup
  have hc := hq.chain
  have hl : ∀ a ∈ h.live, t.stateOf a ≠ .finished := fun a ha => hq.state_live ha
  rw [hz] at hd hc hl
  have hcur : ∀ a ∈ xs ++ prev :: ys, a ≠ t.currentProcess := by
    have hp := @List.perm_middle _ t.currentProcess (xs ++ [prev]) ys
    simp only [List.append_assoc, List.cons_append, List.nil_append] at hp
    exact fun a ha he => (List.nodup_cons.mp (hp.nodup_iff.mp hd)).1 (he ▸ ha)
  have hset : ∀ a, (t.setState t.currentProcess .finished).nextOf a = t.nextOf a := by
    intro a
    simp only [Tasks.setState, nextOf, set_processes]
    split_ifs <;> rfl
  have hst : ∀ a, (t.setState t.currentProcess .finished).stateOf a =
      if a = t.currentProcess then .finished else t.stateOf a := by
    intro a
    simp only [Tasks.setState, stateOf, set_processes]
    split_ifs <;> rfl
  obtain ⟨r, tree, htree, rfl⟩ := reapLoop_one (hc.congr fun a _ => hset a) hd
    (fun a ha => by
      rw [hst, if_neg (hcur a ha)]
      exact hl a (by simp only [List.mem_append, List.mem_cons] at ha ⊢; tauto))
    (by rw [hst, if_pos rfl]) hx
  refine ⟨xs, prev, ys, hz, ⟨r, htree⟩, ?_, ?_, ?_, rfl, rfl, rfl, rfl, rfl⟩
  · intro a
    rw [← hset a, ← hset t.currentProcess]
    simp only [nextOf, set_processes]
    split_ifs <;> rfl
  · intro a
    rw [← hst a]
    simp only [stateOf, set_processes]
    split_ifs <;> rfl
  · intro a
    simp only [pidOf, set_processes, Tasks.setState]
    split_ifs <;> rfl

theorem live_exit (hd : h.created.Nodup) (xs : List Word) {c : Word} (hl : h.live = xs ++ c :: ys) :
    History.live { h with exited := h.exited ++ [c] } = xs ++ ys := by
  have hf : History.live { h with exited := h.exited ++ [c] } =
      h.live.filter fun p => decide (p ≠ c) := by
    simp only [History.live, List.filter_filter]
    exact List.filter_congr fun p _ => by simp [and_comm]
  have hn : (xs ++ c :: ys).Nodup := hl ▸ hd.filter _
  have hc := List.nodup_cons.mp (List.nodup_middle.mp hn)
  rw [hf, hl, List.filter_append, List.filter_cons_of_neg (by simp), ← List.filter_append]
  refine List.filter_eq_self.mpr fun a ha => decide_eq_true ?_
  exact fun he => hc.1 (he ▸ ha)

theorem Queued.exit {prev : Word} (hq : Queued t h) (hrun : t.stateOf t.currentProcess ≠ .finished)
    (hw : t.waits t.currentProcess = none) (h1 : t.currentProcess ≠ t.processList)
    (hl : h.live = xs ++ prev :: t.currentProcess :: ys) (hx : Exited t prev t') :
    Queued t' { h with exited := h.exited ++ [t.currentProcess] } := by
  obtain ⟨hlist, hcur, hpid, hblocks, hwaits⟩ := hx.rest
  have hlive : History.live { h with exited := h.exited ++ [t.currentProcess] } =
      xs ++ prev :: ys := by
    rw [live_exit hq.nodup (xs ++ [prev]) (by simpa using hl), List.append_assoc]
    rfl
  have hd := hq.live_nodup
  have hc := hq.chain
  rw [hl] at hd hc
  have hcp : t.currentProcess ≠ prev := by
    have hp := (List.nodup_append.mp hd).2.1
    simp only [List.nodup_cons, List.mem_cons, not_or] at hp
    exact fun he => hp.1.1 he.symm
  refine ⟨by rw [hblocks, hq.blocks], hq.zero, hq.nodup, ?_, ?_, ?_, ?_, by rw [hcur]; exact hq.current,
    ?_, by rw [hpid, hq.nextpid], ?_, ?_⟩
  · obtain ⟨idle, rest, hc, he⟩ := hq.head
    refine ⟨idle, rest, by rw [hc, hlist], ?_⟩
    simpa [hlist] using ⟨he, Ne.symm h1⟩
  · intro p hp
    rcases List.mem_append.mp hp with hp | hp
    · exact hq.exited p hp
    · rw [List.mem_singleton.mp hp]
      exact hq.current
  · intro p hp
    rw [hx.state]
    by_cases he : p = t.currentProcess
    · simp [he]
    · simpa [he] using hq.finished p hp
  · rw [hlive, hlist]
    refine hc.skip hd (by rw [hx.next, if_pos rfl]) ?_
    intro a ha
    have hap : a ≠ prev := by
      have hn := List.nodup_middle.mp hd
      intro he
      refine (List.nodup_cons.mp hn).1 ?_
      simp only [List.mem_append, List.mem_cons] at ha ⊢
      exact he ▸ ha.imp_right Or.inr
    rw [hx.next, if_neg hap]
  · intro _
    rw [hcur, hx.next, if_neg hcp, hlive]
    by_cases h0 : t.nextOf t.currentProcess = 0
    · exact .inl h0
    · right
      obtain ⟨as, bs, hab⟩ := hq.chain.behind (hq.current_live hrun) h0
      -- the successor is in the list and is not the process itself
      have hne : t.nextOf t.currentProcess ≠ t.currentProcess := by
        have hd' := hq.live_nodup
        rw [hab] at hd'
        intro he
        rw [he] at hd'
        simp [List.nodup_append] at hd'
      have hm : t.nextOf t.currentProcess ∈ h.live := by rw [hab]; simp
      rw [hl] at hm
      simp only [List.mem_append, List.mem_cons] at hm ⊢
      tauto
  · intro i p hp
    rw [hx.pid]
    exact hq.pids i p hp
  · intro p hp
    rw [hwaits]
    rcases List.mem_append.mp hp with hp | hp
    · exact hq.waits p hp
    · rw [List.mem_singleton.mp hp]
      exact hw

/-- The two ends of a `_waitpid` change the state and the wait of the current process. -/
theorem Queued.wait (hq : Queued t h) (hrun : t.currentProcess ∉ h.exited) {s : ProcessState}
    (hs : s ≠ .finished) (w : Option Wait) : Queued { t.setState t.currentProcess s with
      waits := fun a => if a = t.currentProcess then w else t.waits a } h := by
  have hset : ∀ a, (t.setState t.currentProcess s).nextOf a = t.nextOf a := by
    intro a
    simp only [Tasks.setState, nextOf, set_processes]
    split_ifs <;> rfl
  refine ⟨hq.blocks, hq.zero, hq.nodup, hq.head, hq.exited, ?_, hq.chain.congr fun a _ => hset a,
    hq.current, fun he => absurd he hrun, hq.nextpid, ?_, ?_⟩
  · intro p hp
    simp only [Tasks.setState, stateOf, set_processes]
    split_ifs with he
    · rw [he]
      exact ⟨fun h0 => absurd h0 hs, fun h0 => absurd h0 hrun⟩
    · exact hq.finished p hp
  · intro i p hp
    rw [← hq.pids i p hp]
    simp only [Tasks.setState, pidOf, set_processes]
    split_ifs <;> rfl
  · intro p hp
    have hpc : p ≠ t.currentProcess := fun he => hrun (he ▸ hp)
    exact (if_neg hpc).trans (hq.waits p hp)

theorem runs_iff : t.runs ↔
    t.stateOf t.currentProcess ≠ .finished ∧ t.waits t.currentProcess = none := by
  simp [Tasks.runs]

theorem waitpid_cases {r : Option Word} (hw : waitpid t = .ok (r, t')) :
    t' = t ∨ ∃ w, t' = { t.setState t.currentProcess .waiting with
      waits := fun a => if a = t.currentProcess then some w else t.waits a } := by
  simp only [waitpid] at hw
  split at hw
  · cases hw
  · split_ifs at hw
    · exact .inl (Prod.mk.inj (Except.ok.inj hw)).2.symm
    · exact .inr ⟨_, (Prod.mk.inj (Except.ok.inj hw)).2.symm⟩

/-- What a step can do. -/
inductive Stepped (t : Tasks) : TaskCall → Option Word → Tasks → Prop
  | fork {child node pid last : Word} {t' : Tasks}
      (alive : t.stateOf t.currentProcess ≠ .finished) (forked : Forked t child node last t') :
      Stepped t (.fork child node) (some pid) t'
  | exit {t' : Tasks} (alive : t.stateOf t.currentProcess ≠ .finished)
      (runs : t.waits t.currentProcess = none) (call : Scheduler.exit t = .ok t') :
      Stepped t .exit none t'
  | waitpid {r : Option Word} {t' : Tasks} (alive : t.stateOf t.currentProcess ≠ .finished)
      (call : Scheduler.waitpid t = .ok (r, t')) : Stepped t .waitpid r t'
  | returned {w : Wait} (waits : t.waits t.currentProcess = some w) :
      Stepped t .resume (some w.ret) { t.setState t.currentProcess .running with
        waits := fun a => if a = t.currentProcess then none else t.waits a }
  | switched {call : TaskCall} {t' : Tasks} (which : call = .resume ∨ call = .switch)
      (switch : switchTask t = .ok t') : Stepped t call none t'

theorem step_stepped {call : TaskCall} {o : Option Word} (hs : step t call = .ok (o, t')) :
    Stepped t call o t' := by
  have hswitch : call = .resume ∨ call = .switch →
      (Scheduler.switchTask t).map (fun t => ((none : Option Word), t)) = .ok (o, t') →
      Stepped t call o t' := by
    intro hc hr
    obtain ⟨t₁, ht, he⟩ := map_eq_ok hr
    cases he
    exact .switched hc ht
  cases call with
  | fork child node =>
    simp only [Scheduler.step] at hs
    split_ifs at hs with hrun
    obtain ⟨r, hf, he⟩ := map_eq_ok hs
    cases he
    obtain ⟨-, last, hl⟩ := fork_forked hf
    exact .fork (runs_iff.mp (by simpa using hrun)).1 hl
  | exit =>
    simp only [Scheduler.step] at hs
    split_ifs at hs with hrun
    have hrun := runs_iff.mp (by simpa using hrun)
    obtain ⟨t₁, hx, he⟩ := map_eq_ok hs
    cases he
    exact .exit hrun.1 hrun.2 hx
  | waitpid =>
    simp only [Scheduler.step] at hs
    split_ifs at hs with hrun
    exact .waitpid (runs_iff.mp (by simpa using hrun)).1 hs
  | resume =>
    simp only [Scheduler.step] at hs
    split at hs
    · cases hs
    · next w hw =>
      simp only [waitLoop] at hs
      split_ifs at hs with h0
      · cases hs
        exact .returned hw
      · exact hswitch (.inl rfl) hs
  | switch => exact hswitch (.inr rfl) hs

theorem Queued.step {x : Transition Tasks TaskCall (Option Word)} (hq : Queued x.pre h)
    (hx : x.input = .exit → x.pre.currentProcess ≠ x.pre.processList)
    (hs : step x.pre x.input = .ok (x.output, x.post)) : Queued x.post (h.record x) := by
  obtain ⟨t, call, o, t'⟩ := x
  change Queued t h at hq
  replace hs : Stepped t call o t' := step_stepped hs
  cases hs with
  | fork alive forked => exact hq.fork alive forked
  | exit alive runs call =>
    obtain ⟨xs, prev, ys, hl, hex⟩ := hq.exited_of_exit alive (hx rfl) call
    exact hq.exit alive runs (hx rfl) hl hex
  | waitpid alive call =>
    rcases waitpid_cases call with rfl | ⟨w, rfl⟩
    · exact hq
    · exact hq.wait (History.mem_live.mp (hq.current_live alive)).2 (by decide) _
  | returned waits =>
    refine hq.wait (fun hm => ?_) (by decide) _
    rw [hq.waits _ hm] at waits
    cases waits
  | switched which switch =>
    cases hq.switchTask.symm.trans switch
    rcases which with rfl | rfl
    · exact hq.switched
    · exact hq.switched

/-- The process at a place of the list, counted around its end. -/
def turn (q : List Word) (i : Nat) : Word := q[i % q.length]?.getD 0

theorem turn_of_mem (hp : p ∈ q) : ∃ i, turn q i = p := by
  obtain ⟨i, hi, rfl⟩ := List.mem_iff_getElem.mp hp
  exact ⟨i, by simp [turn, Nat.mod_eq_of_lt hi, hi]⟩

theorem turn_rotate (i : Nat) :
    (List.range q.length).map (fun k => turn q (i + k)) = q.rotate i := by
  refine List.ext_getElem (by simp) fun k h1 h2 => ?_
  have hk : k < q.length := by simpa using h1
  have hlt : (i + k) % q.length < q.length := Nat.mod_lt _ (by omega)
  simp [turn, List.getElem_rotate, Nat.add_comm k i, hlt]

/-- The list is walked through from front to end and from the front again. -/
theorem Queued.following_turn (hq : Queued t h) (hi : t.currentProcess = turn h.live i) :
    following t = turn h.live (i + 1) := by
  have hpos : 0 < h.live.length := List.length_pos_of_mem hq.first_live
  have hlt : i % h.live.length < h.live.length := Nat.mod_lt _ hpos
  have hget : h.live[i % h.live.length]? = some t.currentProcess := by
    rw [hi, turn, List.getElem?_eq_getElem hlt]
    rfl
  have hnext := hq.chain.link hget
  have hstart := hq.chain.start
  unfold following turn
  rcases Nat.lt_or_ge (i % h.live.length + 1) h.live.length with hl | hl
  · have hm : (i + 1) % h.live.length = i % h.live.length + 1 := by
      rw [← Nat.mod_add_mod, Nat.mod_eq_of_lt hl]
    have h0 : t.nextOf t.currentProcess ≠ 0 := by
      rw [hnext, List.getElem?_eq_getElem hl]
      exact hq.chain.ne_null _ (List.getElem_mem hl)
    rw [if_neg h0, hnext, hm]
  · have he : i % h.live.length + 1 = h.live.length := by omega
    have hm : (i + 1) % h.live.length = 0 := by
      rw [← Nat.mod_add_mod, he, Nat.mod_self]
    have h0 : t.nextOf t.currentProcess = 0 := by
      rw [hnext, List.getElem?_eq_none hl]
      rfl
    rw [if_pos h0, hm, hstart]

/-- Successive switches run the processes at successive places. -/
theorem Queued.switches (hq : Queued t h) (hi : following t = turn h.live i) (k : Nat) :
    ∃ tr, run Scheduler.step t (List.replicate k .switch) = some tr ∧
      tr.map (·.post.currentProcess) = (List.range k).map fun j => turn h.live (i + j) := by
  induction k generalizing t i with
  | zero => exact ⟨[], rfl, rfl⟩
  | succ k ih =>
    have hs : Scheduler.step t .switch = .ok (none, { t with currentProcess := following t }) := by
      simp only [Scheduler.step, hq.switchTask]
      rfl
    have hn := hq.switched.following_turn (i := i) hi
    obtain ⟨tr, hr, hm⟩ := ih hq.switched hn
    refine ⟨⟨t, .switch, none, { t with currentProcess := following t }⟩ :: tr, ?_, ?_⟩
    · simp [List.replicate_succ, run, hs, hr]
    · rw [List.map_cons, hm, List.range_succ_eq_map, List.map_cons, List.map_map]
      refine congrArg₂ List.cons hi (List.map_congr_left fun j _ => ?_)
      congr 1
      omega

end Queue

/-- Switches with nothing in between: all processes of the list once, and the first one
again. A current process of the list comes last. -/
def RoundRobin (t : Tasks) (live : List Word) : Prop :=
  ∃ first rest tr, (first :: rest).Perm live ∧
    run step t (List.replicate (live.length + 1) .switch) = some tr ∧
    tr.map (·.post.currentProcess) = first :: rest ++ [first] ∧
    (t.currentProcess ∈ live → (first :: rest).getLast? = some t.currentProcess)

theorem Queued.roundRobin {t : Tasks} {h : History} (hq : Queued t h) : RoundRobin t h.live := by
  have hpos : 0 < h.live.length := List.length_pos_of_mem hq.first_live
  obtain ⟨i, hi, hlast⟩ : ∃ i, following t = turn h.live i ∧
      (t.currentProcess ∈ h.live → t.currentProcess = turn h.live (i + (h.live.length - 1))) := by
    by_cases hm : t.currentProcess ∈ h.live
    · obtain ⟨j, hj⟩ := turn_of_mem hm
      refine ⟨j + 1, hq.following_turn hj.symm, fun _ => ?_⟩
      have he : j + 1 + (h.live.length - 1) = j + h.live.length := by omega
      rw [he, turn, Nat.add_mod_right, ← hj, turn]
    · obtain ⟨j, hj⟩ := turn_of_mem hq.following_live
      exact ⟨j, hj.symm, fun h0 => absurd h0 hm⟩
  obtain ⟨tr, hr, hmap⟩ := hq.switches hi (h.live.length + 1)
  have hrot := turn_rotate (q := h.live) i
  obtain ⟨n, hn⟩ : ∃ n, h.live.length = n + 1 := ⟨h.live.length - 1, by omega⟩
  have hfirst : turn h.live (i + h.live.length) = turn h.live i := by
    rw [turn, Nat.add_mod_right, turn]
  refine ⟨turn h.live i, (List.range n).map fun k => turn h.live (i + (k + 1)), tr, ?_, hr, ?_, ?_⟩
  · rw [hn, List.range_succ_eq_map, List.map_cons, List.map_map] at hrot
    have hp := List.rotate_perm h.live i
    rw [← hrot] at hp
    exact hp
  · rw [hmap, List.range_succ, List.map_append, List.map_singleton, hfirst, hn,
      List.range_succ_eq_map, List.map_cons, List.map_map]
    rfl
  · intro hm
    rw [hlast hm, hn, Nat.add_sub_cancel]
    cases n with
    | zero => rfl
    | succ n =>
      rw [List.range_succ, List.map_append, List.map_singleton, ← List.cons_append,
        List.getLast?_concat]

def TaskCall.isFork : TaskCall → Bool
  | .fork _ _ => true
  | _ => false

/-- Pid 1 and the idle task. -/
def boot (init idle : Word) : History := ⟨[init, idle], []⟩

theorem setup_queued {init idle root : Word} (h1 : init ≠ 0) (h2 : idle ≠ 0) (h : init ≠ idle) :
    Queued (setupInitialProcess init idle root) (boot init idle) := by
  have hi : ∀ a, (setupInitialProcess init idle root).processes a =
      if a = init then ⟨1, idle, .running⟩ else ⟨-1, 0, .running⟩ := fun _ => rfl
  refine ⟨rfl, ?_, ?_, ⟨idle, [], rfl, ?_⟩, ?_, ?_, ?_, ?_, ?_, rfl, ?_, ?_⟩
  · simpa [boot] using ⟨Ne.symm h1, Ne.symm h2⟩
  · simp [boot, h]
  · simp [boot]
  · simp [boot]
  · intro p _
    simp only [stateOf, hi, boot]
    split_ifs <;> simp
  · refine ⟨rfl, h1, ?_, h2, ?_⟩
    · simp [nextOf, hi]
    · simp only [nextOf, hi, if_neg (Ne.symm h)]
      rfl
  · simp [boot, setupInitialProcess]
  · simp [boot]
  · intro i p hp
    match i with
    | 0 =>
      obtain rfl : init = p := by simpa [boot] using hp
      simp [pidOf, hi, pidAt]
    | 1 =>
      obtain rfl : idle = p := by simpa [boot] using hp
      simp [pidOf, hi, pidAt, Ne.symm h]
    | n + 2 => simp [boot] at hp
  · simp [boot]

theorem record_created (h : History) (tr : List (Transition Tasks TaskCall (Option Word))) :
    (tr.foldl History.record h).created.length =
      h.created.length + (tr.map (·.input)).countP TaskCall.isFork := by
  induction tr generalizing h with
  | nil => rfl
  | cons x tr ih =>
    rw [List.foldl_cons, ih, List.map_cons, List.countP_cons]
    cases hx : x.input <;> simp [History.record, hx, TaskCall.isFork]
    omega

theorem Queued.pids_nodup {t : Tasks} {h : History} (hq : Queued t h)
    (hn : h.created.length < 2 ^ 31) : (h.live.map t.pidOf).Nodup := by
  refine List.Nodup.map_on ?_ hq.live_nodup
  intro p hp p' hp' he
  obtain ⟨i, hi, rfl⟩ := List.mem_iff_getElem.mp (History.mem_live.mp hp).1
  obtain ⟨j, hj, rfl⟩ := List.mem_iff_getElem.mp (History.mem_live.mp hp').1
  rw [hq.pids i _ (List.getElem?_eq_getElem hi), hq.pids j _ (List.getElem?_eq_getElem hj)] at he
  obtain rfl := pidAt_inj (by omega) (by omega) he
  rfl

/-- In every run in which pid 1 does not exit, process_list holds the processes that have
not exited in the order of their creation, and switches take turns through it. -/
theorem run_queue_kept {init idle root : Word} {calls : List TaskCall}
    {tr : List (Transition Tasks TaskCall (Option Word))} (h1 : init ≠ 0) (h2 : idle ≠ 0)
    (h12 : init ≠ idle) (hr : run step (setupInitialProcess init idle root) calls = some tr)
    (hx : ∀ x ∈ tr, x.input = .exit → x.pre.pidOf x.pre.currentProcess ≠ 1)
    (hf : calls.countP TaskCall.isFork < 2 ^ 31 - 2) :
    let t := lastState (setupInitialProcess init idle root) tr
    let live := (tr.foldl History.record (boot init idle)).live
    Chain 0 t.nextOf t.processList live ∧ live.Nodup ∧ (live.map t.pidOf).Nodup ∧
      (∃ p, getNextProcess t = .ok p ∧ p ∈ live ∧ t.stateOf p ≠ .finished) ∧
      RoundRobin t live := by
  intro t live
  have hq : Queued t (tr.foldl History.record (boot init idle)) := by
    refine run_tracks (C := fun x => x.input = .exit → x.pre.pidOf x.pre.currentProcess ≠ 1)
      ?_ hr (setup_queued h1 h2 h12) hx
    intro x h hq hc hs
    refine hq.step (fun he hp => hc he ?_) hs
    obtain ⟨idle', rest, hcr, -⟩ := hq.head
    rw [hp]
    exact hq.pids 0 _ (by rw [hcr]; rfl)
  have hlen : (tr.foldl History.record (boot init idle)).created.length < 2 ^ 31 := by
    rw [record_created, run_inputs hr]
    have hb : (boot init idle).created.length = 2 := rfl
    omega
  exact ⟨hq.chain, hq.live_nodup, hq.pids_nodup hlen,
    ⟨_, hq.getNextProcess, hq.following_live, hq.state_live hq.following_live⟩, hq.roundRobin⟩

/-- Pid 1 forks two children, and the first of them exits and is switched away. -/
theorem run_queue_kept_exit : ∃ tr,
    run step (setupInitialProcess 8 16 64)
      [.fork 24 72, .fork 32 80, .switch, .switch, .exit, .switch] = some tr ∧
    (tr.foldl History.record (boot 8 16)).live = [8, 16, 32] ∧
    RoundRobin (lastState (setupInitialProcess 8 16 64) tr) [8, 16, 32] := by
  refine run_test (fun tr => (tr.foldl History.record (boot 8 16)).live = [8, 16, 32] ∧
    ∀ x ∈ tr, x.input = .exit → x.pre.pidOf x.pre.currentProcess ≠ 1) (by decide) ?_
  intro tr hr ht
  obtain ⟨hl, hexit⟩ := ht
  have h := run_queue_kept (by decide) (by decide) (by decide) hr hexit (by decide)
  rw [hl] at h
  exact ⟨hl, h.2.2.2.2⟩

end TapiOS.Task.Scheduler
