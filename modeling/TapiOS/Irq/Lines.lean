import Mathlib.Tactic.FinCases
import TapiOS.Util.Memory

/-!
# Interrupt lines, irq/irq.c, irq/pic.c and send_eoi of irq/irq_asm.s

A line that neither controller masks goes into service and stays there until the end of
interrupt. The handlers run with interrupts off, so that one line is in service at a time.
-/
namespace TapiOS.Irq

open Util

structure Isr where
  irq : Fin 16
  func : Word
  data : Word

/-- The list `isrs`, and the masks and the lines in service of both controllers. -/
structure Irqs where
  isrs : List Isr
  mask1 : Byte
  mask2 : Byte
  service1 : Byte
  service2 : Byte

def remapPic : Irqs := ⟨[], 0xFF - 0x1, 0xFF, 0, 0⟩

/-- register_isr; `1 << 8` is no bit of the mask. -/
def registerIsr (s : Irqs) (isr : Isr) : Irqs :=
  let s := { s with isrs := s.isrs ++ [isr] }
  if 8 < isr.irq.val then
    { s with mask1 := s.mask1 &&& (0xFF - 0x4), mask2 := s.mask2 &&& (0xFF - 1#8 <<< (isr.irq.val - 8)) }
  else { s with mask1 := s.mask1 &&& (0xFF - 1#8 <<< isr.irq.val) }

/-- `uninit` is what `ret` holds at first. -/
def picGetIrq (uninit : Byte) (s : Irqs) : Byte :=
  let getLsb := fun data : Byte => BitVec.ofInt 8 (bsr uninit.toNat (data.setWidth 32))
  if s.service1 = 0x4 then getLsb s.service2 + 0x8 else getLsb s.service1

/-- The handler that is called, none for the PANIC. -/
def genericIsr (uninit : Byte) (s : Irqs) : Option Isr :=
  s.isrs.find? fun isr => isr.irq.val == (picGetIrq uninit s).toNat

/-- A controller takes its first line out of service. -/
def sendEoi (al : Byte) (s : Irqs) : Irqs :=
  if al = 0xFF then s
  else
    let s := { s with service1 := s.service1 &&& (s.service1 - 1) }
    if 8 ≤ al.toInt then { s with service2 := s.service2 &&& (s.service2 - 1) } else s

def masked (s : Irqs) (i : Fin 16) : Bool :=
  if i.val < 8 then s.mask1.getLsbD i.val
  else s.mask1.getLsbD 2 || s.mask2.getLsbD (i.val - 8)

def accept (s : Irqs) (i : Fin 16) : Irqs :=
  if i.val < 8 then { s with service1 := s.service1 ||| 1#8 <<< i.val }
  else { s with service1 := s.service1 ||| 0x4, service2 := s.service2 ||| 1#8 <<< (i.val - 8) }

inductive Outcome where
  | ignored
  | panic
  | served (isr : Isr) (after : Irqs)

/-- A line is raised: _generic_isr up to its iret. -/
def interrupt (uninit : Byte) (s : Irqs) (i : Fin 16) : Outcome :=
  if masked s i then .ignored
  else
    let s := accept s i
    (genericIsr uninit s).elim .panic fun isr => .served isr (sendEoi (picGetIrq uninit s) s)

/-- The open lines are those in the list, apart from line 8, with the timer and the cascade. -/
structure Opened (s : Irqs) : Prop where
  mask1 : ∀ j : Fin 8, s.mask1.getLsbD j = false ↔
    j = 0 ∨ ∃ isr ∈ s.isrs, isr.irq.val = j.val ∨ 8 < isr.irq.val ∧ j = 2
  mask2 : ∀ j : Fin 8, s.mask2.getLsbD j = false ↔
    ∃ isr ∈ s.isrs, 8 < isr.irq.val ∧ isr.irq.val = j.val + 8
  service1 : s.service1 = 0
  service2 : s.service2 = 0

variable {s : Irqs}

theorem getLsbD_clear (k : Fin 16) (j : Fin 8) :
    (0xFF - 1#8 <<< k.val : Byte).getLsbD j = decide (k.val ≠ j.val) := by
  decide +revert

theorem getLsbD_cascade (j : Fin 8) : (0xFF - 0x4 : Byte).getLsbD j = decide (j ≠ 2) := by
  decide +revert

theorem registerIsr_opened (h : Opened s) (isr : Isr) : Opened (registerIsr s isr) := by
  unfold registerIsr
  by_cases hi : 8 < isr.irq.val
  · rw [if_pos hi]
    refine ⟨fun j => ?_, fun j => ?_, h.service1, h.service2⟩
    · have hbit := h.mask1 j
      simp only [BitVec.getLsbD_and, getLsbD_cascade, Bool.and_eq_false_iff, hbit]
      grind
    · have hc := getLsbD_clear ⟨isr.irq.val - 8, by omega⟩ j
      have hbit := h.mask2 j
      simp only [BitVec.getLsbD_and, hc, Bool.and_eq_false_iff, hbit]
      grind
  · rw [if_neg hi]
    refine ⟨fun j => ?_, fun j => ?_, h.service1, h.service2⟩
    · have hbit := h.mask1 j
      simp only [BitVec.getLsbD_and, getLsbD_clear, Bool.and_eq_false_iff, hbit]
      grind
    · have hbit := h.mask2 j
      simp only [hbit]
      grind

theorem run_opened (isrs : List Isr) : Opened (isrs.foldl registerIsr remapPic) ∧
    (isrs.foldl registerIsr remapPic).isrs = isrs := by
  induction isrs using List.reverseRecOn with
  | nil => exact ⟨⟨by decide, by decide, rfl, rfl⟩, rfl⟩
  | append_singleton isrs isr ih =>
    rw [List.foldl_concat]
    refine ⟨registerIsr_opened ih.1 isr, ?_⟩
    unfold registerIsr
    split <;> exact congrArg (· ++ [isr]) ih.2

theorem accept_served (h : Opened s) (uninit : Byte) {i : Fin 16} (hi : i ≠ 2) :
    picGetIrq uninit (accept s i) = BitVec.ofNat 8 i.val ∧
      sendEoi (BitVec.ofNat 8 i.val) (accept s i) = s := by
  obtain ⟨isrs, mask1, mask2, service1, service2⟩ := s
  obtain rfl : service1 = 0 := h.service1
  obtain rfl : service2 = 0 := h.service2
  fin_cases i
  case «2» => exact absurd rfl hi
  all_goals simp [picGetIrq, sendEoi, accept, bsr]

theorem masked_eq (h : Opened s) {i : Fin 16} (h0 : i ≠ 0) (h2 : i ≠ 2) :
    masked s i = false ↔ i ≠ 8 ∧ ∃ isr ∈ s.isrs, isr.irq = i := by
  have hc := h.mask1 2
  unfold masked
  by_cases hi : i.val < 8
  · have hline := h.mask1 ⟨i.val, hi⟩
    grind
  · have hline := h.mask2 ⟨i.val - 8, by omega⟩
    grind

/-- A line calls the handler that was registered first for it, and both controllers are as
before. Lines that were not registered do not interrupt, and neither does line 8. -/
theorem lines_served (uninit : Byte) (isrs : List Isr) (i : Fin 16) (h0 : i ≠ 0) (h2 : i ≠ 2) :
    let s := isrs.foldl registerIsr remapPic
    interrupt uninit s i = if i = 8 then .ignored
      else (isrs.find? fun isr => isr.irq == i).elim .ignored (.served · s) := by
  intro s
  obtain ⟨ho, hs⟩ := run_opened isrs
  obtain ⟨hirq, heoi⟩ := accept_served ho uninit h2
  have hm := masked_eq ho h0 h2
  have hisrs : (accept s i).isrs = isrs := by
    unfold accept
    split <;> exact hs
  have hfound : genericIsr uninit (accept s i) = isrs.find? fun isr => isr.irq == i := by
    rw [genericIsr, hirq, toNat_ofNat_of_lt (by omega), hisrs]
    congr 1
    funext isr
    rw [Bool.eq_iff_iff, beq_iff_eq, beq_iff_eq, Fin.ext_iff]
  rw [hs] at hm
  unfold interrupt
  simp only [hfound]
  cases hf : isrs.find? fun isr => isr.irq == i with
  | none =>
    have hnone := List.find?_eq_none.mp hf
    grind
  | some isr =>
    have hline := List.find?_some hf
    have hmem := List.mem_of_find?_eq_some hf
    grind

/-- The keyboard's line. -/
theorem lines_served_keyboard : let s := registerIsr remapPic ⟨1, 0x1000, 0⟩
    interrupt 0 s 1 = .served ⟨1, 0x1000, 0⟩ s :=
  lines_served 0 [⟨1, 0x1000, 0⟩] 1 (by decide) (by decide)

end TapiOS.Irq
