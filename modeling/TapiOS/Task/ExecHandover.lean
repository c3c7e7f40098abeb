import TapiOS.Task.ExecArgs

/-!
# The copied arguments are the arguments

Every array and every string is copied to a block of its own behind the ones before it, and
what comes later is written behind the break. An array holds the strings it held in the old
address space. Only an empty environment has no copy: `envp_copy` is NULL.
-/
namespace TapiOS.Task.ExecCopy

open Lib Util Mem.Vmm Task.Sbrk
open BitVec (ofNat)

section Copying
variable {A : Set Word} {old : Nat} {oldPdir pdir first array : Word} {p p' : Process}
  {l : List (Word × List Byte)}

/-- An array of strings, as the pointers and texts. -/
structure Strings (m : Machine) (array : Word) (l : List (Word × List Byte)) : Prop where
  pointers : Pointers m array (l.map Prod.fst)
  spells : ∀ x ∈ l, Spells m x.1 x.2

/-- The addresses of an array and of its strings are in `A`. -/
structure Reads (A : Set Word) (array : Word) (l : List (Word × List Byte)) : Prop where
  array : ∀ i < 4 * (l.length + 1), array + ofNat 32 i ∈ A
  strings : ∀ x ∈ l, ∀ i < x.2.length + 1, x.1 + ofNat 32 i ∈ A

/-- Blocks one behind the other between `lo` and `hi`. -/
def Stacked (hi : Nat) : Nat → List (Word × Nat) → Prop
  | lo, [] => lo ≤ hi
  | lo, b :: blocks => lo ≤ b.1.toNat ∧ Stacked hi (b.1.toNat + b.2) blocks

/-- The block of each string. -/
def textBlocks (l : List (Word × List Byte)) : List (Word × Nat) :=
  l.map fun x => (x.1, x.2.length + 1)

/-- The break after the strings are copied. -/
def breakAfterTexts (brk : Nat) (texts : List (List Byte)) : Nat :=
  texts.foldl (fun brk s => breakAfter brk (s.length + 1)) brk

theorem le_breakAfterTexts (brk : Nat) (texts : List (List Byte)) :
    brk ≤ breakAfterTexts brk texts := by
  induction texts generalizing brk with
  | nil => exact Nat.le_refl _
  | cons s texts ih =>
    exact ((Nat.le_add_right _ _).trans (le_breakAfter _ _)).trans (ih _)

theorem slot_succ (array : Word) (i : Nat) : slot array (i + 1) = slot array i + 4 := by
  unfold slot
  rw [Nat.mul_succ, BitVec.ofNat_add, BitVec.add_assoc]
  rfl

theorem Stacked.mono {hi lo lo' : Nat} {blocks : List (Word × Nat)} (h : Stacked hi lo blocks)
    (hle : lo' ≤ lo) : Stacked hi lo' blocks := by
  cases blocks with
  | nil => exact hle.trans h
  | cons b blocks => exact ⟨hle.trans h.1, h.2⟩

theorem Stacked.mem {hi lo : Nat} {blocks : List (Word × Nat)} (h : Stacked hi lo blocks)
    {b : Word × Nat} (hb : b ∈ blocks) : lo ≤ b.1.toNat ∧ b.1.toNat + b.2 ≤ hi := by
  have hle : ∀ {lo blocks}, Stacked hi lo blocks → lo ≤ hi := by
    intro lo blocks h
    induction blocks generalizing lo with
    | nil => exact h
    | cons b blocks ih =>
      have hrest := ih h.2
      have hfirst := h.1
      omega
  induction blocks generalizing lo with
  | nil => exact absurd hb List.not_mem_nil
  | cons c blocks ih =>
    rcases List.mem_cons.mp hb with rfl | hb
    · exact ⟨h.1, hle h.2⟩
    · have hrest := ih h.2 hb
      have hfirst := h.1
      omega

/-- The loop over the strings, from the one with index `k` on. -/
theorem Copying.copyStrings {left top k : Nat} (hleft : left < KERNEL_STACK_SIZE) (copy : Word)
    (l : List (Word × List Byte))
    (h : Copying A old oldPdir pdir first p) (hroom : Room p top)
    (harray : Source A (p.machine.under old) (slot array k) ((l.map Prod.fst).flatMap wordBytes))
    (hl : ∀ x ∈ l, 0 ∉ x.2 ∧ x.2.length + 1 ≤ left ∧
      Source A (p.machine.under old) x.1 (x.2 ++ [0]))
    (hle : breakAfterTexts p.brk.toNat (l.map Prod.snd) ≤ top)
    (hlo : first.toNat ≤ (slot copy k).toNat)
    (hhi : (slot copy k).toNat + 4 * l.length ≤ p.brk.toNat) :
    ∃ p' l', (List.range' k l.length).foldlM (ExecCopy.copyString left oldPdir pdir array copy) p =
        .ok p' ∧
      l'.map Prod.snd = l.map Prod.snd ∧
      p'.brk.toNat = breakAfterTexts p.brk.toNat (l.map Prod.snd) ∧
      Copying A old oldPdir pdir first p' ∧ Room p' top ∧
      BytesAt p'.machine (slot copy k) ((l'.map Prod.fst).flatMap wordBytes) ∧
      (∀ x ∈ l', Spells p'.machine x.1 x.2) ∧
      Stacked p'.brk.toNat p.brk.toNat (textBlocks l') ∧
      Kept A old first
        (fun x => Between (slot copy k) (4 * l.length) x ∨ p.brk.toNat ≤ x.toNat) p p' := by
  induction l generalizing p k with
  | nil =>
    exact ⟨p, [], rfl, rfl, rfl, h, hroom, trivial, fun _ hx => absurd hx List.not_mem_nil,
      Nat.le_refl _, fun _ _ => rfl, fun _ _ _ => rfl⟩
  | cons x l ih =>
    obtain ⟨hfirst, hrest⟩ := harray.append
    obtain ⟨hs, hsize, hsource⟩ := hl x (.head _)
    rw [List.length_cons] at hhi ⊢
    have hmono := le_breakAfterTexts (breakAfter p.brk.toNat (x.2.length + 1)) (l.map Prod.snd)
    have hnext : (slot copy (k + 1)).toNat = (slot copy k).toNat + 4 := by
      rw [slot_succ]
      exact add_ofNat_toNat (i := 4) (by omega)
    obtain ⟨p₁, hcall, hbrk₁, h₁, hroom₁, hslot, hspells, hkept₁⟩ := h.copyString hroom
      (loadWord_of_bytes hfirst.bytes) hs hsource hleft hsize (hmono.trans hle) hlo (by omega)
    have hgrown : p.brk.toNat + (x.2.length + 1) ≤ p₁.brk.toNat := hbrk₁ ▸ le_breakAfter _ _
    obtain ⟨p', l', hloop, htexts, hbrk, h', hroom', hbytes, htext, hstack, hkept⟩ :=
      ih (p := p₁) (k := k + 1) h₁ hroom₁ (by rw [slot_succ]; exact hrest.kept hkept₁)
        (fun y hy => by
          obtain ⟨h1, h2, h3⟩ := hl y (.tail _ hy)
          exact ⟨h1, h2, h3.kept hkept₁⟩)
        (by rw [hbrk₁]; exact hle) (by omega) (by omega)
    refine ⟨p', (p.brk, x.2) :: l', ?_, ?_, ?_, h', hroom', ?_, ?_, ?_, ?_⟩
    · rw [List.range'_succ, List.foldlM_cons, hcall]
      exact hloop
    · rw [List.map_cons, List.map_cons, htexts]
    · rw [hbrk, hbrk₁]
      rfl
    · rw [List.map_cons, List.flatMap_cons, bytesAt_append]
      constructor
      · apply hslot.kept hkept hlo (by show _ + 4 ≤ _; omega)
        intro y hy hw
        have h1 : y.toNat < (slot copy k).toNat + 4 := hy.2
        rcases hw with hw | hw
        · have h2 := hw.1
          omega
        · omega
      · rw [slot_succ] at hbytes
        exact hbytes
    · intro y hy
      rcases List.mem_cons.mp hy with rfl | hy
      · refine ⟨hs, hspells.2.kept hkept (by omega) ?_ ?_⟩
        · rw [List.length_append]
          exact hgrown
        · intro z hz hw
          have h1 := hz.1
          have h2 : z.toNat < p.brk.toNat + (x.2.length + 1) := by
            have h3 := hz.2
            rw [List.length_append] at h3
            exact h3
          rcases hw with hw | hw
          · have h4 := hw.2
            omega
          · omega
      · exact htext y hy
    · exact ⟨Nat.le_refl _, hstack.mono hgrown⟩
    · apply (hkept₁.trans hkept (by omega)).mono
      intro y hy
      rcases hy with (hy | hy) | (hy | hy)
      · obtain ⟨h1, h2⟩ := hy
        exact .inl ⟨h1, by omega⟩
      · exact .inr hy
      · obtain ⟨h1, h2⟩ := hy
        exact .inl ⟨by omega, by omega⟩
      · exact .inr (by omega)

theorem Strings.congr {m m' : Machine} (h : Strings m array l) (hA : Reads A array l)
    (hsame : ∀ a ∈ A, m'.loadByte a = m.loadByte a) : Strings m' array l := by
  constructor
  · refine ⟨h.pointers.1, h.pointers.2.congr fun i hi => hsame _ (hA.array i ?_)⟩
    rw [length_flatMap_wordBytes, List.length_append, List.length_map] at hi
    exact hi
  · intro x hx
    refine ⟨(h.spells x hx).1, (h.spells x hx).2.congr fun i hi => hsame _ ?_⟩
    rw [List.length_append] at hi
    exact hA.strings x hx i hi

theorem length_le_breakAfterTexts {brk : Nat} (h : brk % 8 = 0) (texts : List (List Byte)) :
    brk + 8 * texts.length ≤ breakAfterTexts brk texts := by
  induction texts generalizing brk with
  | nil => exact Nat.le_refl _
  | cons s texts ih =>
    have hrest : breakAfter brk (s.length + 1) + 8 * texts.length ≤
        breakAfterTexts (breakAfter brk (s.length + 1)) texts := ih (Nat.mul_mod_left _ _)
    show _ ≤ breakAfterTexts (breakAfter brk (s.length + 1)) texts
    rw [List.length_cons]
    unfold breakAfter at hrest ⊢
    omega

/-- The break after an array and its strings are copied. -/
def breakAfterArray (brk : Nat) (l : List (Word × List Byte)) : Nat :=
  breakAfterTexts (breakAfter brk (4 * (l.length + 1))) (l.map Prod.snd)

theorem le_breakAfterArray (brk : Nat) (l : List (Word × List Byte)) :
    brk + 4 * (l.length + 1) ≤ breakAfterArray brk l :=
  (le_breakAfter _ _).trans (le_breakAfterTexts _ _)

/-- The blocks of an array and of its strings. -/
def blocks (array : Word) (l : List (Word × List Byte)) : List (Word × Nat) :=
  (array, 4 * (l.length + 1)) :: textBlocks l

/-- A copied array is at the break, and its strings are behind it. -/
theorem Copying.copyArray {left top : Nat} (hleft : left < KERNEL_STACK_SIZE)
    (h : Copying A old oldPdir pdir first p) (hroom : Room p top) (hlo : first.toNat ≤ p.brk.toNat)
    (hl : Strings (p.machine.under old) array l)
    (hA : Reads A array l) (hsize : ∀ x ∈ l, x.2.length + 1 ≤ left)
    (hle : breakAfterArray p.brk.toNat l ≤ top) :
    ∃ p' l', ExecCopy.copyArray left oldPdir pdir array l.length p = .ok (p.brk, p') ∧
      l'.map Prod.snd = l.map Prod.snd ∧ Strings p'.machine p.brk l' ∧
      p'.brk.toNat = breakAfterArray p.brk.toNat l ∧
      Copying A old oldPdir pdir first p' ∧ Room p' top ∧
      Stacked p'.brk.toNat p.brk.toNat (blocks p.brk l') ∧
      Kept A old first (fun x => p.brk.toNat ≤ x.toNat) p p' := by
  have hwin := hroom.window
  have hbound : breakAfter p.brk.toNat (4 * (l.length + 1)) + 8 * (l.map Prod.snd).length ≤
      breakAfterTexts (breakAfter p.brk.toNat (4 * (l.length + 1))) (l.map Prod.snd) :=
    length_le_breakAfterTexts (Nat.mul_mod_left _ _) _
  rw [List.length_map] at hbound
  have hfit := le_breakAfter p.brk.toNat (4 * (l.length + 1))
  unfold breakAfterArray at hle ⊢
  have hlen : (ofNat 32 (4 * (l.length + 1))).toNat = 4 * (l.length + 1) := by
    rw [toNat_ofNat_of_lt (by omega)]
  obtain ⟨p₁, hsbrk, hbrk₁, h₁, hroom₁, hkept₁⟩ := h.sbrk (ofNat 32 (4 * (l.length + 1)))
    hroom (by omega) (by omega) (by rw [hlen]; omega)
  rw [hlen] at hbrk₁
  have hl₁ := hl.congr hA hkept₁.oldBytes
  have hslot0 : ∀ a : Word, slot a 0 = a := BitVec.add_zero
  have harray : Source A (p₁.machine.under old) (slot array 0)
      ((l.map Prod.fst).flatMap wordBytes) := by
    have hsource : Source A (p₁.machine.under old) array
        ((l.map Prod.fst ++ [0]).flatMap wordBytes) := by
      refine ⟨hl₁.pointers.2, fun i hi => hA.array i ?_⟩
      rw [length_flatMap_wordBytes, List.length_append, List.length_map] at hi
      exact hi
    rw [List.flatMap_append] at hsource
    rw [hslot0]
    exact hsource.append.1
  obtain ⟨p₂, l', hloop, htexts, hbrk₂, h₂, hroom₂, hbytes, htext, hstack, hkept₂⟩ :=
    h₁.copyStrings hleft p.brk l hroom₁ harray (by
      intro x hx
      have hx' := hl₁.spells x hx
      refine ⟨hx'.1, hsize x hx, hx'.2, fun i hi => hA.strings x hx i ?_⟩
      rw [List.length_append] at hi
      exact hi) (by rw [hbrk₁]; exact hle) (by rw [hslot0]; exact hlo) (by rw [hslot0]; omega)
  rw [hslot0] at hbytes hkept₂
  have hgrown : p₁.brk.toNat ≤ p₂.brk.toNat := by
    rw [hbrk₂]
    exact le_breakAfterTexts _ _
  have hcount : l'.length = l.length := by
    have hc := congrArg List.length htexts
    rw [List.length_map, List.length_map] at hc
    exact hc
  have hnull : (slot p.brk l.length).toNat = p.brk.toNat + 4 * l.length :=
    add_ofNat_toNat (by omega)
  obtain ⟨m₃, hstore, h₃, hroom₃, hnullBytes, hkept₃⟩ := h₂.storeAll (a := slot p.brk l.length)
    (wordBytes 0) hroom₂ (by omega) (by show _ + 4 ≤ _; omega)
  refine ⟨⟨m₃, p₂.brk⟩, l', ?_, htexts, ⟨⟨?_, ?_⟩, ?_⟩, ?_, h₃, hroom₃, ?_, ?_⟩
  · rw [ExecCopy.copyArray, hsbrk, ok_bind]
    dsimp only
    rw [List.range_eq_range', hloop, ok_bind, storeWord_eq, hstore]
    rfl
  · intro hz
    obtain ⟨x, hx, hzero⟩ := List.mem_map.mp hz
    have hlow := (hstack.mem (List.mem_map_of_mem hx)).1
    rw [hzero] at hlow
    have h0 : (0 : Word).toNat = 0 := rfl
    omega
  · rw [List.flatMap_append, bytesAt_append, length_flatMap_wordBytes, List.length_map, hcount]
    refine ⟨?_, hnullBytes⟩
    apply hbytes.kept hkept₃ hlo
    · rw [length_flatMap_wordBytes, List.length_map, hcount]
      omega
    · intro x hx hw
      have h1 := hx.2
      have h2 := hw.1
      rw [length_flatMap_wordBytes, List.length_map, hcount] at h1
      omega
  · intro x hx
    obtain ⟨hlow, hhigh⟩ := hstack.mem (List.mem_map_of_mem hx)
    dsimp only at hlow hhigh
    refine ⟨(htext x hx).1, (htext x hx).2.kept hkept₃ (by omega) ?_ ?_⟩
    · rw [List.length_append]
      exact hhigh
    · intro y hy hw
      have h1 := hy.1
      have h2 : y.toNat < (slot p.brk l.length).toNat + 4 := hw.2
      omega
  · rw [← hbrk₁]
    exact hbrk₂
  · refine ⟨Nat.le_refl _, hstack.mono ?_⟩
    show p.brk.toNat + 4 * (l'.length + 1) ≤ _
    omega
  · apply ((hkept₁.trans hkept₂ (by omega)).trans hkept₃ (by omega)).mono
    intro x hx
    rcases hx with (hf | hx | hx) | hx
    · exact hf.elim
    · exact hx.1
    · omega
    · have h1 := hx.1
      omega

/-! ## The arguments and the environment -/

theorem Stacked.append {hi mid lo : Nat} {bs cs : List (Word × Nat)} (hb : Stacked mid lo bs)
    (hc : Stacked hi mid cs) : Stacked hi lo (bs ++ cs) := by
  induction bs generalizing lo with
  | nil => exact hc.mono hb
  | cons b bs ih => exact ⟨hb.1, ih hb.2⟩

variable {bs : List (Word × Nat)}

theorem Stacked.pairwise {hi lo : Nat} (h : Stacked hi lo bs) :
    bs.Pairwise fun b c => b.1.toNat + b.2 ≤ c.1.toNat := by
  induction bs generalizing lo with
  | nil => exact List.Pairwise.nil
  | cons b bs ih => exact List.pairwise_cons.mpr ⟨fun c hc => (h.2.mem hc).1, ih h.2⟩

theorem Strings.count_eq {m : Machine} (h : Strings m array l) (hl : l.length < 2 ^ 32) :
    count m array = .ok l.length := by
  rw [count, countFrom_pointers h.pointers (by rw [List.length_map]; exact hl), List.length_map]

/-- An array below the break stays while the next one is copied. -/
theorem Strings.below (h : Strings p.machine array l)
    (hb : Stacked p.brk.toNat first.toNat (blocks array l))
    (hk : Kept A old first (fun x => p.brk.toNat ≤ x.toNat) p p') : Strings p'.machine array l := by
  have hout : ∀ {a : Word} {n : Nat}, a.toNat + n ≤ p.brk.toNat →
      ∀ x, Between a n x → ¬ p.brk.toNat ≤ x.toNat := by
    intro a n hle x hx
    have h2 := hx.2
    omega
  obtain ⟨hlo, hhi⟩ := hb.mem (.head _)
  have hlen : ((l.map Prod.fst ++ [0]).flatMap wordBytes).length = 4 * (l.length + 1) := by
    rw [length_flatMap_wordBytes, List.length_append, List.length_map]
    rfl
  rw [← hlen] at hhi
  constructor
  · exact ⟨h.pointers.1, h.pointers.2.kept hk hlo hhi (hout hhi)⟩
  · intro x hx
    obtain ⟨hlo', hhi'⟩ := hb.mem (.tail _ (List.mem_map_of_mem hx))
    have htext : x.1.toNat + (x.2 ++ [0]).length ≤ p.brk.toNat := by
      rw [List.length_append]
      exact hhi'
    exact ⟨(h.spells x hx).1, (h.spells x hx).2.kept hk hlo' htext (hout htext)⟩

/-- The break after everything is copied. -/
def breakAfterAll (brk : Nat) (args env : List (Word × List Byte)) : Nat :=
  if env.isEmpty then breakAfterArray brk args
  else breakAfterArray (breakAfterArray brk args) env

/-- The blocks of the arguments and of the environment. -/
def allBlocks (argv envp : Word) (args env : List (Word × List Byte)) : List (Word × Nat) :=
  if env.isEmpty then blocks argv args else blocks argv args ++ blocks envp env

/-- `argv` and `envp` hold the given strings, and there is no `envp` without strings. The
blocks are one behind the other from `lo` on, and mapped. -/
structure Handed (m : Machine) (lo : Nat) (texts envTexts : List (List Byte)) (argv envp : Word)
    (args env : List (Word × List Byte)) : Prop where
  sameArgs : args.map Prod.snd = texts
  sameEnv : env.map Prod.snd = envTexts
  arguments : Strings m argv args
  environment : if env = [] then envp = 0 else Strings m envp env
  disjoint : (allBlocks argv envp args env).Pairwise fun b c => b.1.toNat + b.2 ≤ c.1.toNat
  above : ∀ b ∈ allBlocks argv envp args env, lo ≤ b.1.toNat
  mapped : ∀ b ∈ allBlocks argv envp args env, ∀ x, Between b.1 b.2 x →
    (m.translate x).isSome

theorem Copying.mapped (h : Copying A old oldPdir pdir first p)
    (hb : Stacked p.brk.toNat first.toNat bs) {b : Word × Nat} (hmem : b ∈ bs) {x : Word}
    (hx : Between b.1 b.2 x) : (p.machine.translate x).isSome := by
  obtain ⟨hlo, hhi⟩ := hb.mem hmem
  obtain ⟨h1, h2⟩ := hx
  obtain ⟨f, hf, -⟩ := h.heap x ⟨Nat.div_le_div_right (by omega), Nat.div_le_div_right (by omega)⟩
  rw [hf]
  rfl

theorem le_breakAfterAll (brk : Nat) (args env : List (Word × List Byte)) :
    breakAfterArray brk args ≤ breakAfterAll brk args env := by
  have h := le_breakAfterArray (breakAfterArray brk args) env
  unfold breakAfterAll
  split_ifs <;> omega

theorem Copying.copyArguments {left : Nat} (hleft : left < KERNEL_STACK_SIZE) {argv envp : Word}
    {args env : List (Word × List Byte)}
    (h : Copying A old oldPdir pdir p.brk p) (hroom : Room p (breakAfterAll p.brk.toNat args env))
    (hargv : Strings (p.machine.under old) argv args) (hA : Reads A argv args)
    (henvp : env ≠ [] → Strings (p.machine.under old) envp env ∧ Reads A envp env)
    (hsize : ∀ x ∈ args ++ env, x.2.length + 1 ≤ left) :
    ∃ argvCopy envpCopy p' args' env',
      ExecCopy.copyArguments left oldPdir pdir argv envp args.length env.length p =
        .ok (argvCopy, envpCopy, p') ∧
      Handed p'.machine p.brk.toNat (args.map Prod.snd) (env.map Prod.snd) argvCopy envpCopy
        args' env' := by
  have hsize' : ∀ x ∈ args, x.2.length + 1 ≤ left := fun x hx =>
    hsize x (List.mem_append_left _ hx)
  obtain ⟨p₁, args', hcall, htexts, hstr, hbrk, h₁, hroom₁, hstack, hkept⟩ :=
    h.copyArray hleft hroom le_rfl hargv hA hsize' (le_breakAfterAll _ _ _)
  by_cases hne : env = []
  · subst hne
    refine ⟨p.brk, 0, p₁, args', [], ?_, htexts, rfl, hstr, rfl, hstack.pairwise,
      fun b hb => (hstack.mem hb).1, fun b hb x hx => h₁.mapped hstack hb hx⟩
    rw [ExecCopy.copyArguments, hcall]
    rfl
  · obtain ⟨henv, hE⟩ := henvp hne
    have hle : p.brk.toNat ≤ p₁.brk.toNat := by
      rw [hbrk]
      exact (Nat.le_add_right _ _).trans (le_breakAfterArray _ _)
    have htop : breakAfterArray p₁.brk.toNat env ≤ breakAfterAll p.brk.toNat args env := by
      rw [breakAfterAll, if_neg (by rwa [List.isEmpty_iff]), hbrk]
    obtain ⟨p₂, env', hcall₂, htexts₂, hstr₂, hbrk₂, h₂, hroom₂, hstack₂, hkept₂⟩ :=
      h₁.copyArray hleft hroom₁ hle (henv.congr hE hkept.oldBytes) hE
        (fun x hx => hsize x (List.mem_append_right _ hx)) htop
    have hne' : env' ≠ [] := by
      intro he
      rw [he] at htexts₂
      exact hne (List.map_eq_nil_iff.mp htexts₂.symm)
    have hblocks : allBlocks p.brk p₁.brk args' env' = blocks p.brk args' ++ blocks p₁.brk env' :=
      if_neg (by rw [List.isEmpty_iff]; exact hne')
    have hall := hstack.append hstack₂
    rw [← hblocks] at hall
    refine ⟨p.brk, p₁.brk, p₂, args', env', ?_, htexts, htexts₂, hstr.below hstack hkept₂, ?_,
      hall.pairwise, fun b hb => (hall.mem hb).1, fun b hb x hx => h₂.mapped hall hb hx⟩
    · rw [ExecCopy.copyArguments, hcall, ok_bind]
      dsimp only
      rw [if_pos (List.length_pos_iff.mpr hne), hcall₂]
      rfl
    · rw [if_neg hne']
      exact hstr₂

/-- The arrays that the new program gets hold the strings that the caller of _exec passed. -/
theorem arguments_handed_over {left : Nat} {m : Machine} {argv envp : Word}
    {args env : List (Word × List Byte)}
    (h : Copying A old oldPdir pdir p.brk p)
    (hsame : ∀ a ∈ A, (p.machine.under old).loadByte a = m.loadByte a)
    (hargv : Strings m argv args) (hA : Reads A argv args)
    (henvp : if envp = 0 then env = [] else Strings m envp env ∧ Reads A envp env)
    (hleft : left < KERNEL_STACK_SIZE) (hsize : ∀ x ∈ args ++ env, x.2.length + 1 ≤ left)
    (hroom : Room p (breakAfterAll p.brk.toNat args env)) :
    ∃ argvCopy envpCopy p' args' env',
      passArguments left m oldPdir pdir argv envp p = .ok (argvCopy, envpCopy, p') ∧
      Handed p'.machine p.brk.toNat (args.map Prod.snd) (env.map Prod.snd) argvCopy envpCopy
        args' env' := by
  have hwin := hroom.window
  have hargs : args.length < 2 ^ 32 ∧ env.length < 2 ^ 32 := by
    have h1 := le_breakAfterArray p.brk.toNat args
    have h2 := le_breakAfterArray (breakAfterArray p.brk.toNat args) env
    unfold breakAfterAll at hwin
    by_cases he : env.isEmpty
    · rw [if_pos he] at hwin
      rw [List.isEmpty_iff.mp he, List.length_nil]
      omega
    · rw [if_neg he] at hwin
      omega
  have henv : countEnv m envp = .ok env.length := by
    unfold countEnv
    by_cases h0 : envp = 0
    · rw [if_pos h0] at henvp ⊢
      rw [henvp]
      rfl
    · rw [if_neg h0] at henvp ⊢
      exact henvp.1.count_eq hargs.2
  have henv' : env ≠ [] → Strings (p.machine.under old) envp env ∧ Reads A envp env := by
    intro hne
    by_cases h0 : envp = 0
    · rw [if_pos h0] at henvp
      exact absurd henvp hne
    · rw [if_neg h0] at henvp
      exact ⟨henvp.1.congr henvp.2 hsame, henvp.2⟩
  obtain ⟨argvCopy, envpCopy, p', args', env', hcall, hhanded⟩ :=
    h.copyArguments hleft hroom (hargv.congr hA hsame) hA henv' hsize
  refine ⟨argvCopy, envpCopy, p', args', env', ?_, hhanded⟩
  rw [passArguments, hargv.count_eq hargs.1, ok_bind, henv, ok_bind]
  exact hcall

end Copying

/-! ## Two small address spaces -/

/-- The new space is in frame 1 and the old one in frame 2, with their first tables in the
frames 3 and 4, and the table of the kernel, which maps both directories, in frame 5. Page 1
is in frame 6 of the new space, where the break is, and in frame 7 of the old one, with an
argument "a" and a variable "b". -/
def smallExec : Process where
  machine :=
    { ram := fun g j =>
        if g = 1 then
          if j = 1023 then 0x1003 else if j = 0 then 0x3007 else if j = 1 then 0x5003 else 0
        else if g = 2 then
          if j = 1023 then 0x2003 else if j = 0 then 0x4007 else if j = 1 then 0x5003 else 0
        else if g = 3 then if j = 1 then 0x6007 else 0
        else if g = 4 then if j = 1 then 0x7007 else 0
        else if g = 5 then if j = 0 then 0x1003 else if j = 1 then 0x2003 else 0
        else if g = 7 then
          if j = 0 then 0x1010 else if j = 2 then 0x1018
          else if j = 4 then 0x61 else if j = 6 then 0x62 else 0
        else 0
      cr3 := 1
      pmm := ⟨fun i => if i = 0 then 0xFF000000 else 0, 0x8000⟩ }
  brk := 0x1FF8

/-- Where the old program has its arguments. -/
def smallArgs : Set Word := {a | a.toNat / 0x1000 = 1}

theorem smallExec_directory {c : Nat} (hc : c = 1 ∨ c = 2) {i : Index}
    (h : present ((smallExec.machine.under c).pde i)) : i = 0 ∨ i = 1 ∨ i = 1023 := by
  rcases hc with rfl | rfl
  · exact entry_cases (a := 0x1003) (b := 0x3007) (c := 0x5003) h
  · exact entry_cases (a := 0x2003) (b := 0x4007) (c := 0x5003) h

theorem smallExec_reserved {g : Nat} (hg : g < 8) : Reserved smallExec.machine g := by
  have hfree : ∀ g < 8, Mem.Pmm.isFreePage smallExec.machine.pmm.bitmap
      (ofNat 32 (g * 0x1000)) = false := by
    decide
  intro q hq
  have hsame : frameOf q = frameOf (ofNat 32 (g * 0x1000)) := by
    unfold frameOf at hq ⊢
    rw [BitVec.toNat_ofNat]
    omega
  rw [isFreePage_congr hsame]
  exact hfree g hg

theorem smallExec_data {g c : Nat} (hg : g = 6 ∨ g = 7) (hc : c = 1 ∨ c = 2) :
    DataFrame (smallExec.machine.under c) g := by
  refine ⟨smallExec_reserved (by omega), ?_⟩
  intro i hi
  have hentry := smallExec_directory hc hi
  rcases hc with rfl | rfl
  all_goals
    rcases hentry with rfl | rfl | rfl
    all_goals
      rcases hg with rfl | rfl
      all_goals decide

theorem smallExec_page {a : Word} (h : a.toNat / 0x1000 = 1) :
    smallExec.machine.translate a = some 6 ∧ (smallExec.machine.under 2).translate a = some 7 := by
  have hpage : a.toNat / 0x1000 = (0x1000 : Word).toNat / 0x1000 := h
  rw [translate_page _ hpage, translate_page _ hpage]
  decide

theorem smallExec_copying :
    Copying smallArgs 2 0x401000 0x400000 smallExec.brk smallExec := by
  have hheap : ∀ a, InHeap smallExec.brk smallExec a → a.toNat / 0x1000 = 1 := by
    intro a ha
    exact Nat.le_antisymm ha.2 ha.1
  refine ⟨⟨⟨by decide, by decide⟩, ?_⟩, ?_, ⟨⟨by decide, by decide⟩, ?_⟩,
    ⟨smallExec_reserved (by decide), ?_⟩, by decide, by decide, ?_, ?_, ?_⟩
  · intro i hi
    rcases smallExec_directory (.inl rfl) hi with rfl | rfl | rfl
    all_goals decide
  · intro i k hi hk
    rcases smallExec_directory (.inl rfl) hi with rfl | rfl | rfl
    all_goals
      rcases smallExec_directory (.inl rfl) hk with rfl | rfl | rfl
      all_goals decide
  · intro i hi
    rcases smallExec_directory (.inr rfl) hi with rfl | rfl | rfl
    all_goals decide
  · intro i hi
    rcases smallExec_directory (.inl rfl) hi with rfl | rfl | rfl
    all_goals decide
  · intro a ha
    exact ⟨7, (smallExec_page ha).2, smallExec_data (.inr rfl) (.inl rfl)⟩
  · intro a ha
    refine ⟨6, (smallExec_page (hheap a ha)).1, smallExec_data (.inl rfl) (.inl rfl),
      smallExec_data (.inl rfl) (.inr rfl), ?_⟩
    intro x hx
    rw [(smallExec_page hx).2]
    decide
  · intro a b ha hb _
    rw [hheap a ha, hheap b hb]

theorem smallExec_strings :
    Strings (smallExec.machine.under 2) 0x1000 [(0x1010, [0x61])] ∧
      Strings (smallExec.machine.under 2) 0x1008 [(0x1018, [0x62])] := by
  refine ⟨⟨⟨by decide, by decide⟩, ?_⟩, ⟨⟨by decide, by decide⟩, ?_⟩⟩
  · exact List.forall_mem_singleton.mpr ⟨by decide, by decide⟩
  · exact List.forall_mem_singleton.mpr ⟨by decide, by decide⟩

theorem smallExec_reads :
    Reads smallArgs 0x1000 [(0x1010, [0x61])] ∧ Reads smallArgs 0x1008 [(0x1018, [0x62])] := by
  unfold smallArgs
  refine ⟨⟨by decide, ?_⟩, ⟨by decide, ?_⟩⟩
  · exact List.forall_mem_singleton.mpr (by decide)
  · exact List.forall_mem_singleton.mpr (by decide)

theorem smallExec_room : Room smallExec 0x2018 := by
  refine ⟨by decide, ?_, ?_⟩
  · intro a h1 h2
    have hpage : a.toNat / 0x1000 = (0x2000 : Word).toNat / 0x1000 := Nat.le_antisymm h2 h1
    rw [translate_page _ hpage]
    decide
  · unfold Supplies
    decide +kernel

/-- One argument and one variable, for which the heap gets a page. -/
theorem arguments_handed_over_small :
    ∃ argvCopy envpCopy p' args' env',
      passArguments 1024 (smallExec.machine.under 2) 0x401000 0x400000 0x1000 0x1008 smallExec =
        .ok (argvCopy, envpCopy, p') ∧
      Handed p'.machine 0x1FF8 [[0x61]] [[0x62]] argvCopy envpCopy args' env' := by
  have henvp : if (0x1008 : Word) = 0 then [((0x1018 : Word), [(0x62 : Byte)])] = []
      else Strings (smallExec.machine.under 2) 0x1008 [(0x1018, [0x62])] ∧
        Reads smallArgs 0x1008 [(0x1018, [0x62])] := by
    rw [if_neg (by decide)]
    exact ⟨smallExec_strings.2, smallExec_reads.2⟩
  exact arguments_handed_over smallExec_copying (fun _ _ => rfl) smallExec_strings.1
    smallExec_reads.1 henvp (by decide) (by decide) smallExec_room

/-- Without variables there is no array: its first word cannot be read. -/
theorem empty_environment_null :
    Strings (smallExec.machine.under 2) 0x1004 [] ∧
      ∃ argvCopy p',
        passArguments 1024 (smallExec.machine.under 2) 0x401000 0x400000 0x1000 0x1004 smallExec =
          .ok (argvCopy, 0, p') ∧ p'.machine.loadWord 0 = .error .pageFault := by
  refine ⟨⟨⟨by decide, by decide⟩, fun _ hx => absurd hx List.not_mem_nil⟩, ?_⟩
  have hrun : (passArguments 1024 (smallExec.machine.under 2) 0x401000 0x400000 0x1000 0x1004
      smallExec).map (fun r => (r.2.1, r.2.2.machine.loadWord 0)) =
        .ok (0, .error .pageFault) := by
    decide +kernel
  obtain ⟨⟨argvCopy, envpCopy, p'⟩, hcall, hr⟩ := map_eq_ok hrun
  obtain ⟨h1, h2⟩ := Prod.mk.inj hr
  obtain rfl : envpCopy = 0 := h1
  exact ⟨argvCopy, p', hcall, h2⟩

end TapiOS.Task.ExecCopy
