import TapiOS.Util.Memory

/-!
# Stacks of new processes, task/process.c

fork, setup_child_stack and setup_usermode_stack write the words that switch_task,
_return_to_userspace and the start code of a program pop. A stack is the list of the words
from `stack_top` up: what is pushed comes in front of what memory held there.
-/
namespace TapiOS.Task.StartStacks

open Util

structure Stack where
  top : Word
  words : List Word

def push (s : Stack) (x : Word) : Stack := ⟨s.top - 4, x :: s.words⟩

/-- `if(c) PUSH(x);` with a PUSH of two statements: only the decrement is conditional, and
without it the word at `stack_top` is overwritten. -/
def pushIf (c : Prop) [Decidable c] (s : Stack) (x : Word) : Stack :=
  if c then push s x else ⟨s.top, x :: s.words.tail⟩

def pushAll (s : Stack) (xs : List Word) : Stack := xs.foldl push s

/-- The words from an address on. -/
def Stack.from (s : Stack) (a : Word) : List Word := s.words.drop ((a - s.top).toNat / 4)

structure Cpu where
  edi : Word
  esi : Word
  ebp : Word
  ebx : Word
  edx : Word
  ecx : Word
  eax : Word
  eip : Word
  cs : Word
  eflags : Word
  esp : Word
  ss : Word
  ds : Word
  es : Word
  fs : Word
  gs : Word
  deriving DecidableEq

/-- An instruction that takes words from the stack. -/
abbrev Pop := Cpu → List Word → Option (Cpu × List Word)

/-- The fourth of the eight words is the saved esp, which is not loaded. -/
def popad : Pop
  | c, edi :: esi :: ebp :: _ :: ebx :: edx :: ecx :: eax :: s =>
    some ({ c with
      edi := edi, esi := esi, ebp := ebp, ebx := ebx, edx := edx, ecx := ecx, eax := eax }, s)
  | _, _ => none

/-- iret to user mode. -/
def iret : Pop
  | c, eip :: cs :: eflags :: esp :: ss :: s =>
    some ({ c with eip := eip, cs := cs, eflags := eflags, esp := esp, ss := ss }, s)
  | _, _ => none

def returnToUserspace : Pop
  | c, gs :: fs :: es :: ds :: s =>
    (popad { c with gs := gs, fs := fs, es := es, ds := ds } s).bind fun r => iret r.1 r.2
  | _, _ => none

/-- The end of switch_task: popad and ret. `retAddr` is the address of _return_to_userspace;
a return to anywhere else is not followed. -/
def switchTask (retAddr : Word) : Pop := fun c s =>
  match popad c s with
  | some (c, eip :: s) => if eip = retAddr then returnToUserspace c s else none
  | _ => none

/-! ## fork -/

/-- struct regs, the 13 words at the top of a kernel stack. -/
structure Regs where
  edi : Word
  esi : Word
  ebp : Word
  ebx : Word
  origEspNotUsed : Word
  edx : Word
  ecx : Word
  eax : Word
  eip : Word
  cs : Word
  eflags : Word
  esp : Word
  ss : Word

def Regs.words (r : Regs) : List Word :=
  [r.edi, r.esi, r.ebp, r.ebx, r.origEspNotUsed, r.edx, r.ecx, r.eax, r.eip, r.cs, r.eflags, r.esp,
    r.ss]

def setupChildStack (retAddr : Word) (s : Stack) : Stack :=
  let s := pushAll s (List.replicate 4 0x23)
  let s := push s retAddr
  pushAll s (List.replicate 8 0)

/-- The child's kernel stack after fork, from `kesp` to its end; `stale` is what kmalloc's
block held where the registers go. -/
def forkStack (retAddr esp0 : Word) (pregs stale : Regs) : Stack :=
  let cregs := { stale with
    edi := pregs.edi, esi := pregs.esi, ebp := pregs.ebp, ebx := pregs.ebx, edx := pregs.edx
    ecx := pregs.ecx, eax := 0, eip := pregs.eip, cs := pregs.cs, eflags := pregs.eflags
    esp := pregs.esp, ss := pregs.ss }
  setupChildStack retAddr ⟨esp0 + 2048 - 52, cregs.words⟩

/-- The child goes on with the registers that popad and iret take from the parent's frame,
but 0 in eax, and its stack is used up. -/
def ResumesAsParent (retAddr esp0 : Word) (c : Cpu) (pregs stale : Regs) : Prop :=
  ∃ parent, ((popad c pregs.words).bind fun r => iret r.1 r.2) = some (parent, []) ∧
    switchTask retAddr c (forkStack retAddr esp0 pregs stale).words =
      some ({ parent with eax := 0, ds := 0x23, es := 0x23, fs := 0x23, gs := 0x23 }, [])

theorem setupChildStack_words (retAddr : Word) (s : Stack) : (setupChildStack retAddr s).words =
    [0, 0, 0, 0, 0, 0, 0, 0, retAddr, 0x23, 0x23, 0x23, 0x23] ++ s.words := rfl

/-- The child goes on as its parent exactly if its stack block happened to hold the parent's
ebx where popad takes it from: struct regs has ebx and the unused esp the other way round
than pushad, so that word is not copied. -/
theorem forked_child_resumes_iff (retAddr esp0 : Word) (c : Cpu) (pregs stale : Regs) :
    ResumesAsParent retAddr esp0 c pregs stale ↔
      stale.origEspNotUsed = pregs.origEspNotUsed := by
  unfold ResumesAsParent forkStack
  rw [setupChildStack_words]
  simp [popad, iret, switchTask, returnToUserspace, Regs.words]

/-- The parent's ebx is 1 and the child's block held 7 there. -/
theorem forked_child_loses_ebx : ¬ResumesAsParent 0xC0100000 0xC0400000
    ⟨0, 0, 0, 0, 0, 0, 0, 0, 0, 0, 0, 0, 0, 0, 0, 0⟩ ⟨0, 0, 0, 0, 1, 0, 0, 0, 0, 0, 0, 0, 0⟩
    ⟨7, 7, 7, 7, 7, 7, 7, 7, 7, 7, 7, 7, 7⟩ := by
  intro h
  obtain ⟨parent, hp, hc⟩ := h
  obtain rfl := (Prod.mk.inj (Option.some.inj hp)).1
  exact absurd hc (by decide)

/-! ## setup_usermode_stack -/

/-- USER_CODE_SEGMENT|3 -/
def userCode : Word := 0x18 ||| 3

/-- USER_DATA_SEGMENT|3 -/
def userData : Word := 0x20 ||| 3

/-- The first two lines of setup_usermode_stack. -/
def pushArgs (argc argv : Word) (s : Stack) : Stack :=
  let s := pushIf (argv ≠ 0) s argv
  pushIf (argc ≠ 0) s argc

/-- The rest of it. -/
def pushFrame (eflags entryPoint envp : Word) (s : Stack) : Stack :=
  let s := push s envp
  let s := push s userData
  -- the argument is read after the decrement
  let s := push s (s.top - 4 + 4)
  let s := push s (eflags ||| 0x200)
  let s := push s userCode
  let s := push s entryPoint
  let s := pushAll s (List.replicate 8 0)
  pushAll s (List.replicate 4 userData)

def setupUsermodeStack (eflags entryPoint argc argv envp : Word) (s : Stack) : Stack :=
  pushFrame eflags entryPoint envp (pushArgs argc argv s)

/-- What main finds. -/
structure MainArgs where
  argc : Word
  argv : Word
  environ : Word

/-- _start of crt0.s on the words from esp on; the bss that it clears is not on the stack. -/
def crt0Start (environ : Word) : List Word → Option MainArgs
  | _ :: envp :: argc :: argv :: _ => some ⟨argc, argv, if envp = 0 then environ else envp⟩
  | _ => none

/-- The program runs at its entry point in user mode with its arguments. -/
structure Started (entryPoint argc argv envp : Word) (user : Cpu) (args : MainArgs) : Prop where
  entry : user.eip = entryPoint
  segments : user.cs = userCode ∧ user.ss = userData ∧ user.ds = userData ∧ user.es = userData ∧
    user.fs = userData ∧ user.gs = userData
  interrupts : user.eflags.getLsbD 9
  argc : args.argc = argc
  argv : args.argv = argv
  environ : envp ≠ 0 → args.environ = envp

/-- Whatever registers, `environ` and the words from `top` up were before, a program gets its
arguments, and the words from `top` up are still there. -/
def StartsMain (entryPoint argc argv envp : Word) : Prop :=
  ∀ (top eflags environ : Word) (c : Cpu) (above : List Word),
    let s := setupUsermodeStack eflags entryPoint argc argv envp ⟨top, above⟩
    above <:+ s.words ∧ ∃ user rest args, returnToUserspace c s.words = some (user, rest) ∧
      crt0Start environ (s.from user.esp) = some args ∧
      Started entryPoint argc argv envp user args

/-- The registers after _return_to_userspace. -/
def enteredCpu (eflags entryPoint esp : Word) : Cpu :=
  ⟨0, 0, 0, 0, 0, 0, 0, entryPoint, userCode, eflags ||| 0x200, esp, userData, userData, userData,
    userData, userData⟩

theorem enteredCpu_esp (eflags entryPoint esp : Word) :
    (enteredCpu eflags entryPoint esp).esp = esp := rfl

/-- Below the arguments stand 18 words, of which the user's esp names the last but one. -/
theorem pushFrame_words (eflags entryPoint envp : Word) (p : Stack) :
    let s := pushFrame eflags entryPoint envp p
    (∃ l, s.words = l ++ p.words) ∧ s.from (p.top - 8) = userData :: envp :: p.words ∧
      ∀ c, returnToUserspace c s.words =
        some (enteredCpu eflags entryPoint (p.top - 8), envp :: p.words) := by
  intro s
  have hesp : p.top - 4 - 4 - 4 + 4 = p.top - 8 := by
    simp [BitVec.sub_eq_add_neg, BitVec.add_assoc]
  have hdist : p.top - 8 - (p.top - 72) = 72 - 8 := sub_sub_sub_cancel_left _ _ _
  have htop : s.top = p.top - 72 := by
    show p.top - 4 - 4 - 4 - 4 - 4 - 4 - 4 - 4 - 4 - 4 - 4 - 4 - 4 - 4 - 4 - 4 - 4 - 4 = p.top - 72
    simp [BitVec.sub_eq_add_neg, BitVec.add_assoc]
  have hwords : s.words = [userData, userData, userData, userData, 0, 0, 0, 0, 0, 0, 0, 0,
      entryPoint, userCode, eflags ||| 0x200, p.top - 8, userData, envp] ++ p.words := by
    rw [← hesp]
    rfl
  refine ⟨⟨_, hwords⟩, ?_, fun c => ?_⟩
  · rw [Stack.from, htop, hdist]
    rfl
  · rw [hwords]
    rfl

theorem pushArgs_words (argc argv top : Word) (above : List Word) :
    (pushArgs argc argv ⟨top, above⟩).words =
      if argv = 0 then if argc = 0 then [] ++ 0 :: above.tail else [argc] ++ 0 :: above.tail
      else if argc = 0 then 0 :: above else argc :: argv :: above := by
  by_cases hv : argv = 0 <;> by_cases hc : argc = 0 <;>
    simp only [pushArgs, pushIf, push, hv, hc, ne_eq, not_true_eq_false, not_false_eq_true, if_true,
      if_false, List.tail_cons, List.nil_append, List.cons_append]

/-- A program gets its arguments exactly if there are some: without argv zero is written at
the stack top, and without argc it takes the place of argv. -/
theorem program_starts_iff (entryPoint argc argv envp : Word) :
    StartsMain entryPoint argc argv envp ↔ argc ≠ 0 ∧ argv ≠ 0 := by
  constructor
  · intro h
    -- with a word at the stack top that is neither argv nor what replaces it
    obtain ⟨⟨pushed, hsuffix⟩, user, rest, args, hpop, hstart, hok⟩ :=
      h 0 0 0 (enteredCpu 0 0 0) [argv + 1]
    have hargs := pushArgs_words argc argv 0 [argv + 1]
    unfold setupUsermodeStack at hsuffix hpop hstart
    generalize pushArgs argc argv ⟨0, [argv + 1]⟩ = p at hsuffix hpop hstart hargs
    obtain ⟨⟨l, hwords⟩, hfrom, hret⟩ := pushFrame_words 0 entryPoint envp p
    rw [hret] at hpop
    obtain rfl := (Prod.mk.inj (Option.some.inj hpop)).1
    have hv : argv ≠ 0 := by
      intro hv
      have hlast : ∃ xs, p.words = xs ++ [0] := by
        rw [if_pos hv] at hargs
        split_ifs at hargs
        · exact ⟨_, hargs⟩
        · exact ⟨_, hargs⟩
      obtain ⟨xs, hxs⟩ := hlast
      rw [hwords, hxs, ← List.append_assoc] at hsuffix
      have hone := (List.append_inj' hsuffix rfl).2
      rw [hv] at hone
      cases hone
    refine ⟨fun hc => ?_, hv⟩
    rw [if_neg hv, if_pos hc] at hargs
    have hargv := hok.argv
    rw [enteredCpu_esp, hfrom, hargs] at hstart
    cases hstart
    exact absurd hargv (by simp)
  · intro ⟨hc, hv⟩ top eflags environ c above
    have hargs := pushArgs_words argc argv top above
    rw [if_neg hv, if_neg hc] at hargs
    obtain ⟨⟨l, hwords⟩, hfrom, hret⟩ :=
      pushFrame_words eflags entryPoint envp (pushArgs argc argv ⟨top, above⟩)
    rw [hargs] at hwords hfrom
    refine ⟨⟨l ++ [argc, argv], ?_⟩, _, _, ⟨argc, argv, if envp = 0 then environ else envp⟩, hret c,
      ?_, ⟨rfl, ⟨rfl, rfl, rfl, rfl, rfl, rfl⟩, ?_, rfl, rfl, fun he => if_neg he⟩⟩
    · rw [setupUsermodeStack, hwords, List.append_assoc]
      rfl
    · rw [setupUsermodeStack, enteredCpu_esp, hfrom]
      rfl
    · simp [enteredCpu]

theorem program_without_arguments : ¬StartsMain 0x400000 0 0 0 := by
  intro h
  obtain ⟨⟨pushed, hsuffix⟩, -⟩ := h 0x10000000 0 0 (enteredCpu 0 0 0) [1]
  exact absurd (congrArg List.getLast? hsuffix) (by simp; decide)

end TapiOS.Task.StartStacks
