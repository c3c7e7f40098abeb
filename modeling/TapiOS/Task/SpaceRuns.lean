import TapiOS.Task.Ownership

/-!
# No process loses its page directory or its stack

Runs of fork, `_exec`, `_exit` and switch_task. The initial page directory belongs to pid 1
and to the idle task, so a process that still has it must not give it away; and a file that
is closed must not point to a block that is no inode any more.
-/
namespace TapiOS.Task.Scheduler

open Lib Util Fs Tasks OsState

variable {live supply : List Word} {k : Kernel} {pdir p : Word} {d : Driver} {path : Text}
  {frees : List KfreeCall}

/-- What holds between the calls. -/
structure Guarded (s : OsState) (h : History) : Prop where
  queued : Queued s.tasks h
  owned : Owned s h.live
  first : (s.spaces s.tasks.processList).pdir = s.initialPdir

/-- The call of kfree spares the page directories and stacks of the processes in
process_list that have not finished. -/
def Spared (e : KfreeCall) : Prop :=
  ∀ p, Visits 0 e.tasks.nextOf e.tasks.processList p → e.tasks.stateOf p ≠ .finished →
    (e.spaces p).pdir ≠ e.ptr ∧ (e.spaces p).esp0 ≠ e.ptr

section Calls
variable {s s' : OsState} {h : History}

def SameBlocks (k k' : Kernel) : Prop := k'.vfs.inodeBlocks = k.vfs.inodeBlocks

theorem fork_sameBlocks (k : Kernel) (p : Nat) : SameBlocks k (Task.fork k p) :=
  fork_slots (J := fun _ k' => SameBlocks k k') (fun _ _ _ hk _ => hk)
    (fun _ _ _ hk _ => hk) (Eq.refl k.vfs.inodeBlocks)

theorem Owned.withKernel (ho : Owned s live) (t : Tasks) (hk : SameBlocks s.kernel k) :
    Owned { s with tasks := t, kernel := k } live :=
  ⟨ho.zero, fun a ha hi => ho.apart a ha (hk ▸ hi), ho.initial, ho.held, ho.distinct, ho.own,
    ho.shared⟩

variable {child esp0 node : Word}

theorem forkSpace_ok (hf : forkSpace s pdir child esp0 node = .ok s') :
    ∃ s₁ s₂ s₃ s₄ pid tasks, Grabbed s pdir s₁ ∧ Grabbed s₁ child s₂ ∧ Grabbed s₂ esp0 s₃ ∧
      Grabbed s₃ node s₄ ∧ Scheduler.fork s.tasks child node = .ok (pid, tasks) ∧
      s' = { s₄.setSpace child fun _ => ⟨pdir, esp0, 0⟩ with
        tasks := tasks, kernel := Task.fork s₄.kernel s₄.caller } := by
  unfold forkSpace at hf
  split at hf
  · cases hf
  next s₁ h₁ =>
  split at hf
  · cases hf
  next s₂ h₂ =>
  split at hf
  · cases hf
  next s₃ h₃ =>
  split at hf
  · cases hf
  next s₄ h₄ =>
  have g₁ := kmalloc_grabbed h₁
  have g₂ := kmalloc_grabbed h₂
  have g₃ := kmalloc_grabbed h₃
  have g₄ := kmalloc_grabbed h₄
  rw [g₄.tasks, g₃.tasks, g₂.tasks, g₁.tasks] at hf
  split at hf
  · cases hf
  next pid tasks ht =>
    exact ⟨s₁, s₂, s₃, s₄, pid, tasks, g₁, g₂, g₃, g₄, ht, (Except.ok.inj hf).symm⟩

theorem Guarded.fork (hg : Guarded s h)
    (hrun : s.tasks.stateOf s.tasks.currentProcess ≠ .finished)
    (hf : forkSpace s pdir child esp0 node = .ok s') :
    Guarded s' { h with created := h.created ++ [child] } := by
  obtain ⟨s₁, s₂, s₃, s₄, pid, tasks, g₁, g₂, g₃, g₄, ht, rfl⟩ := forkSpace_ok hf
  obtain ⟨-, last, hfk⟩ := fork_forked ht
  have ho₂ := (hg.owned.grabbed g₁).grabbed g₂
  have ho₄ := (ho₂.grabbed g₃).grabbed g₄
  have hsp : s₄.spaces = s.spaces := by rw [g₄.spaces, g₃.spaces, g₂.spaces, g₁.spaces]
  have hin : s₄.initialPdir = s.initialPdir := by rw [g₄.initial, g₃.initial, g₂.initial, g₁.initial]
  have hcb : child ∉ h.created := by
    rw [← hg.queued.blocks, List.mem_reverse]
    exact hfk.fresh.2
  have hpe : pdir ≠ esp0 := fun he => g₃.fresh (he ▸ g₂.mem g₁.self)
  have hput : Owned (s₄.setSpace child fun _ => ⟨pdir, esp0, 0⟩) (h.live ++ [child]) := by
    refine ho₄.put (fun q hq => ?_) ⟨g₄.mem (g₃.mem (g₂.mem g₁.self)), g₄.mem g₃.self, .inl rfl⟩
      ⟨hpe, Ne.symm g₁.ne_zero, Ne.symm g₃.ne_zero⟩ ⟨fun he => g₃.fresh ?_, fun he => ?_⟩
      fun q hq hne a ha hb => ?_
    · exact (List.mem_append.mp hq).elim .inr fun hs => .inl (List.mem_singleton.mp hs)
    · have hi := ho₂.initial
      rw [g₂.initial, g₁.initial, ← hin, ← he] at hi
      exact hi
    · exact ho₄.ne_zero ho₄.initial he.symm
    · rcases Space.mem_blocks.mp ha with rfl | rfl | rfl
      · exact .inl rfl
      · rw [hsp] at hb
        exact absurd hb (hg.owned.unused hq g₁.ne_zero g₁.fresh)
      · rw [g₄.spaces, g₃.spaces] at hb
        exact absurd hb (ho₂.unused hq g₃.ne_zero g₃.fresh)
  refine ⟨hg.queued.fork hrun hfk, ?_, ?_⟩
  · rw [live_fork hg.queued.exited hcb]
    exact hput.withKernel tasks (fork_sameBlocks s₄.kernel s₄.caller)
  · have hne : tasks.processList ≠ child := by
      rw [hfk.rest.1]
      exact fun he => hcb (he ▸ (History.mem_live.mp hg.queued.first_live).1)
    show (if tasks.processList = child then _ else s₄.spaces tasks.processList).pdir = s₄.initialPdir
    rw [if_neg hne, hfk.rest.1, hsp, hin]
    exact hg.first

theorem sysOpen_released {p : Nat} {fd : Int}
    (ho : sysOpen d (s.joined.withSupply supply) p path 0 = .ok (fd, k)) :
    Released s [] (s.apart k) :=
  released_apart fun a ha _ => sysOpen_keeps ho a (List.mem_append_right _ ha)

theorem execSpace_ok {prog : Word} {elf : Bool}
    (hx : execSpace s d supply path pdir prog elf = .ok (frees, s')) :
    ∃ s₀, Released s [] s₀ ∧ ((frees = [] ∧ s' = s₀) ∨ ∃ s₁ s₂ s₃, Grabbed s₀ pdir s₁ ∧
      (prog = 0 ∧ s₂ = s₁.setSpace s.tasks.currentProcess (fun x => { x with pdir := pdir }) ∨
        Grabbed (s₁.setSpace s.tasks.currentProcess fun x => { x with pdir := pdir }) prog s₂) ∧
      (s₃ = s₂ ∨ s₃ = s₂.setSpace s.tasks.currentProcess fun x => { x with program := prog }) ∧
      s₃.kfree (s.spaces s.tasks.currentProcess).pdir = .ok s' ∧
      frees = [⟨(s.spaces s.tasks.currentProcess).pdir, s₃.tasks, s₃.spaces⟩]) := by
  simp only [execSpace] at hx
  split at hx
  · cases hx
  next fd k ho =>
    refine ⟨s.apart k, sysOpen_released ho, ?_⟩
    by_cases hfd : fd < 0
    · rw [if_pos hfd] at hx
      cases hx
      exact .inl ⟨rfl, rfl⟩
    rw [if_neg hfd] at hx
    right
    split at hx
    · cases hx
    next s₁ h₁ =>
    split at hx
    · cases hx
    next s₂ h₂ =>
    refine ⟨s₁, s₂, if elf then s₂.setSpace s.tasks.currentProcess
      (fun x => { x with program := prog }) else s₂, kmalloc_grabbed h₁, ?_, ?_, ?_⟩
    · split_ifs at h₂ with hp0
      · exact .inl ⟨hp0, (Except.ok.inj h₂).symm⟩
      · exact .inr (kmalloc_grabbed h₂)
    · cases elf with
      | false => exact .inl rfl
      | true => exact .inr rfl
    · split at hx
      · cases hx
      next s₄ h₄ =>
        cases hx
        exact ⟨h₄, rfl⟩

/-- A block that no process of the list has. -/
def Loose (s : OsState) (live : List Word) (b : Word) : Prop := ∀ p ∈ live, b ∉ (s.spaces p).blocks

/-- A process takes a new page directory; its old one, if not shared, has no owner then. -/
theorem Owned.newPdir {a : Word} {s₁ : OsState} (ho : Owned s live) (hp : p ∈ live)
    (hpd : (s.spaces p).pdir ≠ s.initialPdir) (hg : Grabbed s a s₁) :
    Owned (s₁.setSpace p fun x => { x with pdir := a }) live ∧
      Loose (s₁.setSpace p fun x => { x with pdir := a }) live (s.spaces p).pdir := by
  have ho₁ := ho.grabbed hg
  obtain ⟨h1, h2, h3⟩ := ho.held p hp
  obtain ⟨d1, d2, d3⟩ := ho.distinct p hp
  have hsp : s₁.spaces = s.spaces := hg.spaces
  have hpa : (s.spaces p).program ≠ a := fun he =>
    h3.elim (fun h0 => hg.ne_zero (he ▸ h0)) fun hm => hg.fresh (he ▸ hm)
  refine ⟨ho₁.put (fun q hq => .inr hq) ⟨hg.self, ?_, ?_⟩ ⟨?_, ?_, ?_⟩ ?_ fun q hq hne b hb hb' => ?_,
    fun q hq hm => ?_⟩
  · rw [hsp]
    exact hg.mem h2
  · rw [hsp]
    exact h3.imp_right hg.mem
  · rw [hsp]
    intro he
    change a = (s.spaces p).esp0 at he
    exact hg.fresh (he ▸ h2)
  · rw [hsp]
    exact hpa
  · rw [hsp]
    exact d3
  · rw [hsp, hg.initial]
    exact ho.own p hp
  · rw [hsp] at hb hb'
    rw [hg.initial]
    rcases Space.mem_blocks.mp hb with rfl | rfl | rfl
    · exact ho.shared p hp q hq (Ne.symm hne) _ (by simp [Space.blocks]) hb'
    · exact absurd hb' (ho.unused hq hg.ne_zero hg.fresh)
    · exact ho.shared p hp q hq (Ne.symm hne) _ (by simp [Space.blocks]) hb'
  · by_cases hqp : q = p
    · have hs : (s₁.setSpace p fun x => { x with pdir := a }).spaces q =
          { s.spaces p with pdir := a } := by
        rw [← hsp, hqp]
        exact if_pos rfl
      rw [hs] at hm
      rcases Space.mem_blocks.mp hm with he | he | he
      · exact d2 he.symm
      · change (s.spaces p).pdir = a at he
        exact hg.fresh (he ▸ h1)
      · exact d1 he
    · have hs : (s₁.setSpace p fun x => { x with pdir := a }).spaces q = s.spaces q := by
        rw [← hsp]
        exact if_neg hqp
      rw [hs] at hm
      exact ho.ne_zero h1 (ho.alone hp hq (Ne.symm hqp) hpd (by simp [Space.blocks]) hm)

theorem Owned.newProgram {a b : Word} (ho : Owned s live) (hp : p ∈ live)
    (ha : a = 0 ∨ a ∈ s.heap ∧ a ≠ s.initialPdir ∧ Loose s live a) (hb : Loose s live b)
    (hab : a ≠ b) : Owned (s.setSpace p fun x => { x with program := a }) live ∧
      Loose (s.setSpace p fun x => { x with program := a }) live b := by
  obtain ⟨h1, h2, h3⟩ := ho.held p hp
  have hloose : a ≠ 0 → Loose s live a := fun h0 => (ha.resolve_left h0).2.2
  have hne : ∀ c ∈ s.heap, c ∈ (s.spaces p).blocks → a ≠ c := by
    intro c hc hm he
    exact hloose (he ▸ ho.ne_zero hc) p hp (he ▸ hm)
  refine ⟨ho.put (fun q hq => .inr hq) ⟨h1, h2, ha.imp_right (·.1)⟩
    ⟨(ho.distinct p hp).1, hne _ h1 (by simp [Space.blocks]), hne _ h2 (by simp [Space.blocks])⟩
    ⟨(ho.own p hp).1, fun he => ?_⟩ fun q hq hqp c hc hc' => ?_, fun q hq hm => ?_⟩
  · exact ha.elim (fun h0 => ho.ne_zero ho.initial (he ▸ h0)) fun hm => hm.2.1 he
  · rcases Space.mem_blocks.mp hc with he | rfl | rfl
    · change c = a at he
      by_cases h0 : a = 0
      · exact .inl (he.trans h0)
      · exact absurd (he ▸ hc') (hloose h0 q hq)
    · exact ho.shared p hp q hq (Ne.symm hqp) _ (by simp [Space.blocks]) hc'
    · exact ho.shared p hp q hq (Ne.symm hqp) _ (by simp [Space.blocks]) hc'
  · by_cases hqp : q = p
    · have hs : (s.setSpace p fun x => { x with program := a }).spaces q =
          { s.spaces p with program := a } := by
        rw [hqp]
        exact if_pos rfl
      rw [hs] at hm
      rcases Space.mem_blocks.mp hm with he | he | he
      · exact hab he.symm
      · exact hb p hp (by simp [Space.blocks, he])
      · exact hb p hp (by simp [Space.blocks, he])
    · have hs : (s.setSpace p fun x => { x with program := a }).spaces q = s.spaces q := if_neg hqp
      exact hb q hq (hs ▸ hm)

theorem Queued.visits_live {t : Tasks} (hq : Queued t h) (hv : Visits 0 t.nextOf t.processList p) :
    p ∈ h.live := hq.chain.mem_of_visits hv

theorem Guarded.exec {prog : Word} {elf : Bool} (hg : Guarded s h)
    (hrun : s.tasks.stateOf s.tasks.currentProcess ≠ .finished)
    (hpd : (s.spaces s.tasks.currentProcess).pdir ≠ s.initialPdir)
    (hx : execSpace s d supply path pdir prog elf = .ok (frees, s')) :
    Guarded s' h ∧ ∀ e ∈ frees, Spared e := by
  have hcur := hg.queued.current_live hrun
  have hne : s.tasks.processList ≠ s.tasks.currentProcess := fun he => hpd (he ▸ hg.first)
  obtain ⟨s₀, hr₀, ⟨rfl, rfl⟩ | ⟨s₁, s₂, s₃, h₁, h₂, h₃, h₄, rfl⟩⟩ := execSpace_ok hx
  · refine ⟨⟨by rw [hr₀.tasks]; exact hg.queued, hg.owned.released hr₀ (by simp) (by simp), ?_⟩,
      by simp⟩
    rw [hr₀.tasks, hr₀.spaces, hr₀.initial]
    exact hg.first
  have ho₀ := hg.owned.released hr₀ (by simp) (by simp)
  have hpd₀ : (s₀.spaces s.tasks.currentProcess).pdir ≠ s₀.initialPdir := by
    rw [hr₀.spaces, hr₀.initial]
    exact hpd
  obtain ⟨ho₁, hl₁⟩ := ho₀.newPdir hcur hpd₀ h₁
  have hold₀ := (ho₀.held _ hcur).1
  rw [hr₀.spaces] at hl₁ hold₀
  -- the program: nothing, or a block that no process has
  have hprog : Owned s₂ h.live ∧ Loose s₂ h.live (s.spaces s.tasks.currentProcess).pdir ∧
      (prog = 0 ∨ prog ∈ s₂.heap ∧ prog ≠ s₂.initialPdir ∧ Loose s₂ h.live prog) ∧
      prog ≠ (s.spaces s.tasks.currentProcess).pdir ∧ s₂.tasks = s.tasks ∧
      s₂.initialPdir = s.initialPdir ∧
      s₂.spaces s.tasks.processList = s.spaces s.tasks.processList := by
    have hsame : (s₁.setSpace s.tasks.currentProcess fun x => { x with pdir := pdir }).spaces
        s.tasks.processList = s.spaces s.tasks.processList := by
      refine (if_neg hne).trans ?_
      rw [h₁.spaces, hr₀.spaces]
    have htasks : s₁.tasks = s.tasks := h₁.tasks.trans hr₀.tasks
    have hinit : s₁.initialPdir = s.initialPdir := h₁.initial.trans hr₀.initial
    rcases h₂ with ⟨h0, rfl⟩ | h₂
    · refine ⟨ho₁, hl₁, .inl h0, ?_, htasks, hinit, hsame⟩
      exact fun he => ho₀.ne_zero hold₀ (he ▸ h0)
    · have ho₂ := ho₁.grabbed h₂
      refine ⟨ho₂, ?_, .inr ⟨h₂.self, fun he => h₂.fresh ?_, fun p hp => ?_⟩, fun he => h₂.fresh ?_,
        h₂.tasks.trans htasks, h₂.initial.trans hinit, by rw [h₂.spaces, hsame]⟩
      · intro p hp
        rw [h₂.spaces]
        exact hl₁ p hp
      · rw [he, h₂.initial]
        exact ho₁.initial
      · rw [h₂.spaces]
        exact ho₁.unused hp h₂.ne_zero h₂.fresh
      · exact he ▸ h₁.mem hold₀
  obtain ⟨ho₂, hl₂, hp₂, hpo, ht₂, hi₂, hf₂⟩ := hprog
  have hfin : Owned s₃ h.live ∧ Loose s₃ h.live (s.spaces s.tasks.currentProcess).pdir ∧
      s₃.tasks = s.tasks ∧ s₃.initialPdir = s.initialPdir ∧
      s₃.spaces s.tasks.processList = s.spaces s.tasks.processList := by
    rcases h₃ with rfl | rfl
    · exact ⟨ho₂, hl₂, ht₂, hi₂, hf₂⟩
    · obtain ⟨ho₃, hl₃⟩ := ho₂.newProgram hcur hp₂ hl₂ hpo
      exact ⟨ho₃, hl₃, ht₂, hi₂, (if_neg hne).trans hf₂⟩
  obtain ⟨ho₃, hl₃, ht₃, hi₃, hf₃⟩ := hfin
  have hr := kfree_released h₄
  refine ⟨⟨?_, ho₃.released hr ?_ ?_, ?_⟩, ?_⟩
  · rw [hr.tasks, ht₃]
    exact hg.queued
  · rw [hi₃]
    simpa using Ne.symm hpd
  · intro p hp a ha hm
    exact absurd (List.mem_singleton.mp hm ▸ ha) (hl₃ p hp)
  · rw [hr.tasks, hr.spaces, hr.initial, ht₃, hf₃, hi₃]
    exact hg.first
  · intro e he p hv _
    obtain rfl := List.mem_singleton.mp he
    rw [ht₃] at hv
    have hp := hg.queued.visits_live hv
    show (s₃.spaces p).pdir ≠ (s.spaces s.tasks.currentProcess).pdir ∧
      (s₃.spaces p).esp0 ≠ (s.spaces s.tasks.currentProcess).pdir
    exact ⟨fun he => hl₃ p hp (by rw [← he]; simp [Space.blocks]),
      fun he => hl₃ p hp (by rw [← he]; simp [Space.blocks])⟩

theorem exitSpace_ok (hx : exitSpace s = .ok (frees, s')) :
    ∃ freed k s₂ tasks, sysExit s.joined s.caller = .ok (freed, k) ∧
      (s.apart k).kfreeAll (s.spaces s.tasks.currentProcess).blocks = .ok s₂ ∧
      Scheduler.exit s.tasks = .ok tasks ∧ s' = { s₂ with tasks := tasks } ∧
      frees = (freed.map freedBlock ++ (s₂.spaces s.tasks.currentProcess).blocks).map fun a =>
        ⟨a, s.tasks.setState s.tasks.currentProcess .finished, s₂.spaces⟩ := by
  simp only [exitSpace] at hx
  split at hx
  · cases hx
  next freed k h₁ =>
  split at hx
  · cases hx
  next s₂ h₂ =>
  split at hx
  · cases hx
  next tasks h₃ =>
    cases hx
    exact ⟨freed, k, s₂, tasks, h₁, h₂, h₃, rfl, rfl⟩

theorem Guarded.exit (hg : Guarded s h) (hrun : s.tasks.stateOf s.tasks.currentProcess ≠ .finished)
    (hw : s.tasks.waits s.tasks.currentProcess = none)
    (hpd : (s.spaces s.tasks.currentProcess).pdir ≠ s.initialPdir)
    (hslots : SlotInodes s.kernel s.caller (· ∈ s.kernel.vfs.inodeBlocks))
    (hx : exitSpace s = .ok (frees, s')) :
    Guarded s' { h with exited := h.exited ++ [s.tasks.currentProcess] } ∧
      ∀ e ∈ frees, Spared e := by
  have hcur := hg.queued.current_live hrun
  have hne : s.tasks.currentProcess ≠ s.tasks.processList := fun he => hpd (he ▸ hg.first)
  obtain ⟨freed, k, s₂, tasks, h₁, h₂, h₃, rfl, rfl⟩ := exitSpace_ok hx
  obtain ⟨hfreed, hkept⟩ := exitLoop_frees (k := s.joined) hslots h₁
  have hr₁ : Released s [] (s.apart k) := released_apart fun a ha _ =>
    hkept a (List.mem_append_right _ ha) (hg.owned.apart a ha) (hg.owned.ne_zero ha)
  have hr₂ := kfreeAll_released h₂
  have ho₁ := hg.owned.released hr₁ (by simp) (by simp)
  have hsp : s₂.spaces = s.spaces := hr₂.spaces
  obtain ⟨xs, prev, ys, hl, hex⟩ := hg.queued.exited_of_exit hrun hne h₃
  have hq := hg.queued.exit hrun hw hne hl hex
  have hlive : ∀ p ∈ History.live { h with exited := h.exited ++ [s.tasks.currentProcess] },
      p ∈ h.live ∧ p ≠ s.tasks.currentProcess := by
    intro p hp
    obtain ⟨hc, he⟩ := History.mem_live.mp hp
    rw [List.mem_append, not_or, List.mem_singleton] at he
    exact ⟨History.mem_live.mpr ⟨hc, he.1⟩, he.2⟩
  -- what the process owns belongs to nobody else
  have hloose : ∀ p ∈ h.live, p ≠ s.tasks.currentProcess → ∀ a ∈ (s.spaces p).blocks,
      a ∈ (s.spaces s.tasks.currentProcess).blocks → a = 0 :=
    fun p hp hpc a ha hb => hg.owned.alone hcur hp (Ne.symm hpc) hpd hb ha
  refine ⟨⟨hq, ?_, ?_⟩, ?_⟩
  · have ho₂ := (ho₁.mono fun p hp => (hlive p hp).1).released hr₂ ?_ ?_
    · exact ho₂.withKernel tasks rfl
    · intro hm
      obtain ⟨he, hp⟩ := hg.owned.own _ hcur
      rcases Space.mem_blocks.mp hm with hi | hi | hi
      · exact hp hi.symm
      · exact hpd hi.symm
      · exact he hi.symm
    · intro p hp a ha hb
      exact hloose p (hlive p hp).1 (hlive p hp).2 a ha hb
  · rw [hsp, hr₂.initial, hex.rest.1]
    exact hg.first
  · intro e he p hv hst
    obtain ⟨a, ha, rfl⟩ := List.mem_map.mp he
    have hnext : ∀ b, (s.tasks.setState s.tasks.currentProcess .finished).nextOf b =
        s.tasks.nextOf b := by
      intro b
      simp only [Tasks.setState, nextOf, set_processes]
      split_ifs <;> rfl
    have hp : p ∈ h.live := (hg.queued.chain.congr fun b _ => hnext b).mem_of_visits hv
    have hpc : p ≠ s.tasks.currentProcess := by
      intro he
      refine hst ?_
      simp [Tasks.setState, stateOf, he]
    obtain ⟨hm1, hm2, -⟩ := hg.owned.held p hp
    rw [hsp] at ha ⊢
    rcases List.mem_append.mp ha with ha | ha
    · obtain ⟨x, hxm, rfl⟩ := List.mem_map.mp ha
      have hi := hfreed x hxm
      exact ⟨fun he => hg.owned.apart _ hm1 (he ▸ hi), fun he => hg.owned.apart _ hm2 (he ▸ hi)⟩
    · refine ⟨fun he => ?_, fun he => ?_⟩
      · exact hg.owned.ne_zero hm1 (hloose p hp hpc _ (by simp [Space.blocks]) (he ▸ ha))
      · exact hg.owned.ne_zero hm2 (hloose p hp hpc _ (by simp [Space.blocks]) (he ▸ ha))

end Calls

/-- A process gives up its page directory only if it is not the initial one, and at an exit
its files point to inodes. -/
def SpaceCall.Proper (s : OsState) : SpaceCall → Prop
  | .exec _ _ _ _ _ _ => (s.spaces s.tasks.currentProcess).pdir ≠ s.initialPdir
  | .exit => (s.spaces s.tasks.currentProcess).pdir ≠ s.initialPdir ∧
      SlotInodes s.kernel s.caller (· ∈ s.kernel.vfs.inodeBlocks)
  | _ => True

theorem Guarded.step {s s' : OsState} {h : History} {c : SpaceCall} (hg : Guarded s h)
    (hc : c.Proper s) (hs : spaceStep s c = .ok (frees, s')) :
    (∃ h', Guarded s' h') ∧ ∀ e ∈ frees, Spared e := by
  cases c with
  | fork pdir child esp0 node =>
    simp only [spaceStep] at hs
    split_ifs at hs with hrun
    have hrun := runs_iff.mp (by simpa using hrun)
    obtain ⟨s₁, hf, he⟩ := map_eq_ok hs
    cases he
    exact ⟨⟨_, hg.fork hrun.1 hf⟩, by simp⟩
  | exec d supply path pdir prog elf =>
    simp only [spaceStep] at hs
    split_ifs at hs with hrun
    have hrun := runs_iff.mp (by simpa using hrun)
    obtain ⟨hg', hfree⟩ := hg.exec hrun.1 hc hs
    exact ⟨⟨_, hg'⟩, hfree⟩
  | exit =>
    simp only [spaceStep] at hs
    split_ifs at hs with hrun
    have hrun := runs_iff.mp (by simpa using hrun)
    obtain ⟨hg', hfree⟩ := hg.exit hrun.1 hrun.2 hc.1 hc.2 hs
    exact ⟨⟨_, hg'⟩, hfree⟩
  | switch =>
    simp only [spaceStep, hg.queued.switchTask] at hs
    cases hs
    exact ⟨⟨h, hg.queued.switched, hg.owned.withKernel _ rfl, hg.first⟩, by simp⟩

/-- The blocks of setup_initial_process are different, and no inode lies there. -/
structure Apart (init idle root : Word) (first : Space) (idleEsp0 : Word) (k : Kernel) : Prop where
  nodup : (first.blocks ++ [idleEsp0, init, idle, root]).Nodup
  zero : 0 ∉ first.blocks ++ [idleEsp0, init, idle, root]
  inodes : ∀ a ∈ first.blocks ++ [idleEsp0, init, idle, root], a ∉ k.vfs.inodeBlocks

theorem setup_guarded {init idle root : Word} {first : Space} {idleEsp0 : Word}
    (h : Apart init idle root first idleEsp0 k) :
    Guarded (setupSpaces init idle root first idleEsp0 k) (boot init idle) := by
  have hz := h.zero
  have hn := h.nodup
  simp only [Space.blocks, List.cons_append, List.nil_append, List.mem_cons, List.not_mem_nil,
    or_false, not_or, List.nodup_cons] at hz hn
  obtain ⟨z1, z2, z3, z4, z5, z6, z7⟩ := hz
  obtain ⟨⟨n1, n2, n3, -⟩, ⟨n4, n5, -⟩, ⟨n6, -⟩, -, ⟨n7, -⟩, -⟩ := hn
  have hcase : ∀ p ∈ (boot init idle).live, p = init ∨ p = idle := by
    intro p hp
    have hlive : (boot init idle).live = [init, idle] := rfl
    simpa [hlive] using hp
  have hi : (setupSpaces init idle root first idleEsp0 k).spaces init = first := if_pos rfl
  have hd : (setupSpaces init idle root first idleEsp0 k).spaces idle = ⟨first.pdir, idleEsp0, 0⟩ :=
    if_neg (Ne.symm n7)
  refine ⟨setup_queued (Ne.symm z5) (Ne.symm z6) n7, ⟨h.zero, h.inodes, ?_, ?_, ?_, ?_, ?_⟩, ?_⟩
  · simp [setupSpaces, Space.blocks]
  · intro p hp
    rcases hcase p hp with rfl | rfl
    · rw [hi]
      simp [setupSpaces, Space.blocks]
    · rw [hd]
      simp [setupSpaces, Space.blocks]
  · intro p hp
    rcases hcase p hp with rfl | rfl
    · rw [hi]
      exact ⟨n4, n1, n2⟩
    · rw [hd]
      exact ⟨n5, z2, z4⟩
  · intro p hp
    rcases hcase p hp with rfl | rfl
    · rw [hi]
      exact ⟨Ne.symm n4, n1⟩
    · rw [hd]
      exact ⟨Ne.symm n5, z2⟩
  · -- the two processes share the page directory and nothing else
    have hboth : ∀ a ∈ first.blocks, a ∈ (⟨first.pdir, idleEsp0, 0⟩ : Space).blocks →
        a = 0 ∨ a = first.pdir := by
      intro a ha hb
      rcases Space.mem_blocks.mp hb with he | he | he
      · exact .inl he
      · exact .inr he
      · rcases Space.mem_blocks.mp ha with he' | he' | he'
        · exact absurd (he'.symm.trans he) n3
        · exact .inr he'
        · exact absurd (he'.symm.trans he) n6
    intro p hp q hq hne a ha hb
    rcases hcase p hp with rfl | rfl <;> rcases hcase q hq with rfl | rfl
    · exact absurd rfl hne
    · rw [hi] at ha
      rw [hd] at hb
      exact hboth a ha hb
    · rw [hd] at ha
      rw [hi] at hb
      exact hboth a hb ha
    · exact absurd rfl hne
  · exact congrArg Space.pdir hi

/-- In every run of proper calls kfree spares the page directories and the kernel stacks of
the processes that have not finished, and these blocks stay in use. -/
theorem spaces_spared {init idle root : Word} {first : Space} {idleEsp0 : Word} {k : Kernel}
    {calls : List SpaceCall} {tr : List (Transition OsState SpaceCall (List KfreeCall))}
    (ha : Apart init idle root first idleEsp0 k)
    (hr : run spaceStep (setupSpaces init idle root first idleEsp0 k) calls = some tr)
    (hc : ∀ x ∈ tr, x.input.Proper x.pre) :
    ∀ x ∈ tr, (∀ e ∈ x.output, Spared e) ∧
      ∀ p, Visits 0 x.post.tasks.nextOf x.post.tasks.processList p →
        x.post.tasks.stateOf p ≠ .finished →
        (x.post.spaces p).pdir ∈ x.post.heap ∧ (x.post.spaces p).esp0 ∈ x.post.heap := by
  have hinv := run_invariant (I := fun s => ∃ h, Guarded s h) (C := fun s c => c.Proper s)
    (fun s c o t ⟨h, hg⟩ hc hs => (hg.step hc hs).1) hr ⟨_, setup_guarded ha⟩ hc
  intro x hx
  obtain ⟨⟨h, hg⟩, h', hg'⟩ := hinv x hx
  refine ⟨(hg.step (hc x hx) (run_step hr x hx)).2, fun p hv _ => ?_⟩
  obtain ⟨h1, h2, -⟩ := hg'.owned.held p (hg'.queued.visits_live hv)
  exact ⟨h1, h2⟩

instance (k : Kernel) (p : Nat) : Decidable (SlotInodes k p (· ∈ k.vfs.inodeBlocks)) :=
  inferInstanceAs (Decidable (∀ i : Fd, k.fds p i ≠ 0 → _ = 0 ∨ _ ∈ k.vfs.inodeBlocks))

instance (s : OsState) : DecidablePred (SpaceCall.Proper s)
  | .fork _ _ _ _ => .isTrue trivial
  | .exec _ _ _ _ _ _ => inferInstanceAs (Decidable (_ ≠ _))
  | .exit => inferInstanceAs (Decidable (_ ∧ SlotInodes _ _ _))
  | .switch => .isTrue trivial

/-- Pid 1 at 0x10000 and the idle task at 0x11000, with the page directory 0x20000. -/
def booted : OsState :=
  setupSpaces 0x10000 0x11000 0x12000 ⟨0x20000, 0x21000, 0x22000⟩ 0x23000 { bareRoot with procs := 2 }

theorem booted_apart : Apart 0x10000 0x11000 0x12000 ⟨0x20000, 0x21000, 0x22000⟩ 0x23000
    { bareRoot with procs := 2 } :=
  ⟨by decide, by decide, by simp [Space.blocks, bareRoot]⟩

/-- The child of pid 1 executes a program and exits. -/
def forkExecExit : List SpaceCall :=
  [.fork 0x30000 0x31000 0x32000 0x33000, .switch, .switch,
    .exec openOnly [0x40000] [slash] 0x34000 0x35000 true, .exit, .switch]

/-- Pid 1 has forked. -/
def forked : OsState :=
  { (forkSpace booted 0x30000 0x31000 0x32000 0x33000).toOption.getD booted with
    kernel := booted.kernel.newProcess fun q => if q = 2 then [slash] else booted.kernel.cwd q }

theorem booted_fork :
    spaceStep booted (.fork 0x30000 0x31000 0x32000 0x33000) = .ok ([], forked) := by
  have hk := fork_of_empty (k := booted.kernel) (p := booted.caller) (by decide) fun _ => rfl
  show Except.ok ([], { forked with kernel := Task.fork booted.kernel booted.caller }) = _
  rw [hk]
  rfl

theorem spaces_spared_forkExecExit : ∃ tr, run spaceStep booted forkExecExit = some tr ∧
    (tr.map fun x => x.output.map (·.ptr)) =
      [[], [], [], [0x30000], [0x35000, 0x34000, 0x32000], []] ∧
    ∀ x ∈ tr, (∀ e ∈ x.output, Spared e) ∧
      ∀ p, Visits 0 x.post.tasks.nextOf x.post.tasks.processList p →
        x.post.tasks.stateOf p ≠ .finished →
        (x.post.spaces p).pdir ∈ x.post.heap ∧ (x.post.spaces p).esp0 ∈ x.post.heap := by
  obtain ⟨tr, hr, hp, ho⟩ : ∃ tr ∈ run spaceStep forked forkExecExit.tail,
      (∀ x ∈ tr, x.input.Proper x.pre) ∧ (tr.map fun x => x.output.map (·.ptr)) =
        [[], [], [0x30000], [0x35000, 0x34000, 0x32000], []] := by
    decide +kernel
  have hrun := run_start booted_fork hr
  refine ⟨_, hrun, congrArg ([] :: ·) ho, spaces_spared booted_apart hrun ?_⟩
  exact List.forall_mem_cons.mpr ⟨trivial, hp⟩

/-- Pid 1 executes a program, which frees the page directory of the idle task. -/
theorem idle_loses_pdir : ∃ tr, run spaceStep booted
      [.exec openOnly [0x40000] [slash] 0x34000 0x35000 true] = some tr ∧
    ∃ x ∈ tr, ∃ e ∈ x.output, e.ptr = 0x20000 ∧
      Visits 0 e.tasks.nextOf e.tasks.processList 0x11000 ∧ e.tasks.stateOf 0x11000 = .running ∧
      (e.spaces 0x11000).pdir = e.ptr ∧ ¬Spared e := by
  refine run_test (fun tr => ∃ x ∈ tr, ∃ e ∈ x.output, e.ptr = 0x20000 ∧
    e.tasks.processList = 0x10000 ∧ e.tasks.nextOf 0x10000 = 0x11000 ∧
    e.tasks.stateOf 0x11000 = .running ∧ (e.spaces 0x11000).pdir = e.ptr) (by decide) ?_
  intro tr _ ht
  obtain ⟨x, hx, e, he, hptr, hlist, hnext, hst, hpdir⟩ := ht
  have hv : Visits 0 e.tasks.nextOf e.tasks.processList 0x11000 := by
    rw [hlist]
    refine .later (by decide) ?_
    rw [hnext]
    exact .here (by decide)
  exact ⟨x, hx, e, he, hptr, hv, hst, hpdir,
    fun hsp => (hsp _ hv (by rw [hst]; decide)).1 hpdir⟩

end TapiOS.Task.Scheduler
