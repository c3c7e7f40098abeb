import TapiOS.Util.Memory

/-!
# The keyboard buffer, drivers/keyboard.c

Keys are pushed by the interrupt handler and popped by kbd_read. A system call runs with
interrupts off, so keys arrive between two calls or while kbd_read waits in sched_yield:
one test of its loop, with the pops that follow a successful one, is one step.
-/
namespace TapiOS.Drivers

open Util

variable {count : Word}

/-- kbd_buffer and kbd_buf_size. -/
structure Keyboard where
  buffer : BitVec 8 → Byte
  size : BitVec 8

variable {k : Keyboard}

/-- The state after register_kbd_driver. -/
def registerKbdDriver : Keyboard := ⟨fun _ => 0, 0⟩

def kbdBufferPush (k : Keyboard) (c : Byte) : Keyboard :=
  if k.size = 255 then k
  else { buffer := Function.update k.buffer k.size c, size := k.size + 1 }

def kbdBufferPop (k : Keyboard) : Byte × Keyboard :=
  (k.buffer (k.size - 1), { k with size := k.size - 1 })

/-- The for loop of kbd_read: `n` pops, in the order they are stored. -/
def popBytes : Nat → Keyboard → List Byte × Keyboard
  | 0, k => ([], k)
  | n + 1, k =>
    let (c, k) := kbdBufferPop k
    let (cs, k) := popBytes n k
    (c :: cs, k)

/-- kbd_read up to its return, or `none` where it calls sched_yield and tests again. -/
def kbdRead (k : Keyboard) (count : Word) : Option (List Byte × Keyboard) :=
  if count = 0 then some ([], k)
  else if k.size.toNat < count.toNat then none
  else some (popBytes count.toNat k)

section Stack

/-! The buffer is a stack: the bytes waiting, the oldest first. -/

def waiting (k : Keyboard) : List Byte :=
  (List.range k.size.toNat).map (fun i => k.buffer (BitVec.ofNat 8 i))

@[simp] theorem waiting_length (k : Keyboard) : (waiting k).length = k.size.toNat := by
  simp [waiting]

theorem kbdBufferPush_full (c : Byte) (h : k.size = 255) : kbdBufferPush k c = k := if_pos h

theorem waiting_push (c : Byte) (h : k.size ≠ 255) :
    waiting (kbdBufferPush k c) = waiting k ++ [c] := by
  have hlt : k.size.toNat < 255 := by
    have h2 : k.size.toNat ≠ 255 := fun e => h (BitVec.eq_of_toNat_eq e)
    omega
  have hsize : (k.size + 1).toNat = k.size.toNat + 1 := by
    exact Nat.mod_eq_of_lt (by change k.size.toNat + 1 < 256; omega)
  unfold kbdBufferPush
  rw [if_neg h]
  unfold waiting
  simp only [hsize, List.range_succ, List.map_append, List.map_singleton, BitVec.ofNat_toNat,
    BitVec.setWidth_eq, Function.update_self]
  congr 1
  apply List.map_congr_left
  intro i hi
  apply Function.update_of_ne
  intro he
  have hi := List.mem_range.mp hi
  have he := congrArg BitVec.toNat he
  rw [toNat_ofNat_of_lt (by omega)] at he
  omega

theorem waiting_pop (h : 0 < k.size.toNat) :
    waiting (kbdBufferPop k).2 ++ [(kbdBufferPop k).1] = waiting k := by
  have hsize : (k.size - 1).toNat = k.size.toNat - 1 := by bv_omega
  have hs : k.size.toNat = k.size.toNat - 1 + 1 := by omega
  have hat : BitVec.ofNat 8 (k.size.toNat - 1) = k.size - 1 := by
    rw [← hsize, BitVec.ofNat_toNat, BitVec.setWidth_eq]
  unfold waiting kbdBufferPop
  rw [hs, List.range_succ, List.map_append, List.map_singleton, hat]
  simp only [hsize]

/-- The bytes popped are the newest ones, the newest first. -/
theorem popBytes_waiting (n : Nat) (k : Keyboard) (h : n ≤ k.size.toNat) :
    waiting (popBytes n k).2 ++ (popBytes n k).1.reverse = waiting k ∧
      (popBytes n k).1.length = n := by
  induction n generalizing k with
  | zero => exact ⟨List.append_nil _, rfl⟩
  | succ n ih =>
    have hpop := waiting_pop (k := k) (by omega)
    have hsize : ((kbdBufferPop k).2.size).toNat = k.size.toNat - 1 := by
      have hlen := congrArg List.length hpop
      simp only [List.length_append, waiting_length, List.length_singleton] at hlen
      omega
    obtain ⟨hw, hlen⟩ := ih (kbdBufferPop k).2 (by omega)
    constructor
    · show waiting (popBytes n (kbdBufferPop k).2).2 ++
        ((kbdBufferPop k).1 :: (popBytes n (kbdBufferPop k).2).1).reverse = waiting k
      rw [List.reverse_cons, ← List.append_assoc, hw, hpop]
    · show ((popBytes n (kbdBufferPop k).2).1).length + 1 = n + 1
      rw [hlen]

theorem kbdRead_waiting {k' : Keyboard} {cs : List Byte} (h : kbdRead k count = some (cs, k')) :
    waiting k' ++ cs.reverse = waiting k ∧ cs.length = count.toNat := by
  unfold kbdRead at h
  split at h
  · rename_i h0
    cases h
    exact ⟨List.append_nil _, by rw [h0]; rfl⟩
  · split at h
    · cases h
    · have hp := popBytes_waiting count.toNat k (by omega)
      rw [Option.some.inj h] at hp
      exact hp

end Stack

section Order

inductive Call (α : Type) where
  | push (c : α)
  | read (count : Word)

/-- A call without the byte it pushes. -/
def Call.shape {α : Type} : Call α → Call Unit
  | .push _ => .push ()
  | .read count => .read count

/-- The keyboard, the bytes it accepted and the bytes the reads returned so far. -/
structure Log where
  kbd : Keyboard
  accepted : List Byte
  returned : List Byte

variable {s : Log}

def start : Log := ⟨registerKbdDriver, [], []⟩

def step (s : Log) : Call Byte → Log
  | .push c =>
    { s with kbd := kbdBufferPush s.kbd c
             accepted := if s.kbd.size = 255 then s.accepted else s.accepted ++ [c] }
  | .read count =>
    match kbdRead s.kbd count with
    | none => s
    | some (cs, k) => { s with kbd := k, returned := s.returned ++ cs }

def run (s : Log) (cs : List (Call Byte)) : Log := cs.foldl step s

/-- The bytes returned are the first ones accepted, in their order. -/
def InOrder (s : Log) : Prop := s.returned <+: s.accepted

/-- The number of bytes waiting after a call, if `n` wait before it. -/
def level (n : Nat) : Call Unit → Nat
  | .push _ => if n = 255 then n else n + 1
  | .read count => if n < count.toNat then n else n - count.toNat

/-- Every read that takes bytes finds only one waiting. -/
def KeepsUp : Nat → List (Call Unit) → Prop
  | _, [] => True
  | n, .push c :: cs => KeepsUp (level n (.push c)) cs
  | n, .read count :: cs =>
    (0 < count.toNat → count.toNat ≤ n → n = 1) ∧ KeepsUp (level n (.read count)) cs

/-- Nothing is lost: what was accepted was returned or is waiting. -/
def Queued (s : Log) : Prop := s.accepted = s.returned ++ waiting s.kbd

theorem Queued.inOrder (h : Queued s) : InOrder s := by
  unfold InOrder
  rw [h]
  exact List.prefix_append _ _

theorem start_queued : Queued start := rfl

theorem size_eq_iff (k : Keyboard) : k.size = 255 ↔ k.size.toNat = 255 :=
  ⟨fun h => by rw [h]; rfl, fun h => BitVec.eq_of_toNat_eq h⟩

/-- What a read does: it waits for more bytes, or takes the newest ones. -/
theorem step_read_cases (s : Log) (count : Word) :
    (s.kbd.size.toNat < count.toNat ∧ step s (.read count) = s) ∨
      ∃ cs k, step s (.read count) = { s with kbd := k, returned := s.returned ++ cs } ∧
        waiting k ++ cs.reverse = waiting s.kbd ∧ cs.length = count.toNat ∧
        k.size.toNat + count.toNat = s.kbd.size.toNat := by
  cases hr : kbdRead s.kbd count with
  | none =>
    left
    constructor
    · by_contra hle
      simp only [kbdRead, hle, if_false] at hr
      split at hr <;> cases hr
    · simp only [step, hr]
  | some r =>
    obtain ⟨hw, hlen⟩ := kbdRead_waiting hr
    have hsize := congrArg List.length hw
    simp only [List.length_append, waiting_length, List.length_reverse] at hsize
    right
    refine ⟨r.1, r.2, ?_, hw, hlen, by omega⟩
    simp only [step, hr]

theorem step_level (s : Log) (c : Call Byte) :
    (step s c).kbd.size.toNat = level s.kbd.size.toNat c.shape := by
  cases c with
  | push c =>
    show (kbdBufferPush s.kbd c).size.toNat = if s.kbd.size.toNat = 255 then _ else _
    by_cases h : s.kbd.size = 255
    · rw [kbdBufferPush_full c h, if_pos ((size_eq_iff _).mp h)]
    · rw [if_neg (fun e => h ((size_eq_iff _).mpr e)), ← waiting_length, waiting_push c h,
        List.length_append, waiting_length, List.length_singleton]
  | read count =>
    show _ = if s.kbd.size.toNat < count.toNat then _ else _
    obtain ⟨hlt, hs⟩ | ⟨cs, k, hs, -, -, hsize⟩ := step_read_cases s count
    · rw [hs, if_pos hlt]
    · rw [hs, if_neg (by omega)]
      show k.size.toNat = _
      omega

theorem step_push_queued (c : Byte) (h : Queued s) : Queued (step s (.push c)) := by
  show (if s.kbd.size = 255 then s.accepted else s.accepted ++ [c]) =
    s.returned ++ waiting (kbdBufferPush s.kbd c)
  by_cases hf : s.kbd.size = 255
  · rw [if_pos hf, kbdBufferPush_full c hf]
    exact h
  · rw [if_neg hf, waiting_push c hf, ← List.append_assoc, ← h]

/-- A read that finds one byte cannot take it out of order. -/
theorem step_read_queued (h : Queued s)
    (hone : 0 < count.toNat → count.toNat ≤ s.kbd.size.toNat → s.kbd.size.toNat = 1) :
    Queued (step s (.read count)) := by
  obtain ⟨-, hs⟩ | ⟨cs, k, hs, hw, hlen, hsize⟩ := step_read_cases s count
  · rw [hs]
    exact h
  · rw [hs]
    show s.accepted = s.returned ++ cs ++ waiting k
    rw [h, ← hw, List.append_assoc]
    -- either nothing was taken or nothing is left
    rcases Nat.eq_zero_or_pos count.toNat with h0 | hpos
    · rw [List.length_eq_zero_iff.mp (hlen.trans h0), List.reverse_nil, List.append_nil,
        List.nil_append]
    · have hk : (waiting k).length = 0 := by
        rw [waiting_length]
        omega
      have hcs : cs.length = 1 := by
        omega
      obtain ⟨c, rfl⟩ := List.length_eq_one_iff.mp hcs
      rw [List.length_eq_zero_iff.mp hk]
      rfl

theorem run_queued {cs : List (Call Byte)} (h : Queued s)
    (hup : KeepsUp s.kbd.size.toNat (cs.map Call.shape)) : Queued (run s cs) := by
  induction cs generalizing s with
  | nil => exact h
  | cons c cs ih =>
    have hl := step_level s c
    cases c with
    | push c =>
      apply ih (step_push_queued c h)
      rw [hl]
      exact hup
    | read count =>
      obtain ⟨hone, hup⟩ := hup
      apply ih (step_read_queued h hone)
      rw [hl]
      exact hup

/-- Two bytes at the same place of the sequences differ. -/
def Broken (s : Log) : Prop :=
  ∃ p x y, x ≠ y ∧ p ++ [x] <+: s.returned ∧ p ++ [y] <+: s.accepted

theorem Broken.not_inOrder (h : Broken s) : ¬ InOrder s := by
  intro hin
  obtain ⟨p, x, y, hne, hr, ha⟩ := h
  have he := List.prefix_of_prefix_length_le (hr.trans hin) ha (by simp)
  have he := he.eq_of_length (by simp)
  exact hne (List.singleton_injective (List.append_cancel_left he))

theorem step_grows (s : Log) (c : Call Byte) :
    s.returned <+: (step s c).returned ∧ s.accepted <+: (step s c).accepted := by
  cases c with
  | push c =>
    refine ⟨List.prefix_refl _, ?_⟩
    show s.accepted <+: if s.kbd.size = 255 then s.accepted else s.accepted ++ [c]
    split
    · exact List.prefix_refl _
    · exact List.prefix_append _ _
  | read count =>
    obtain ⟨-, hs⟩ | ⟨cs, k, hs, -⟩ := step_read_cases s count
    · rw [hs]
      exact ⟨List.prefix_refl _, List.prefix_refl _⟩
    · rw [hs]
      exact ⟨List.prefix_append _ _, List.prefix_refl _⟩

theorem run_broken (cs : List (Call Byte)) (h : Broken s) : Broken (run s cs) := by
  induction cs generalizing s with
  | nil => exact h
  | cons c cs ih =>
    apply ih
    obtain ⟨p, x, y, hne, hr, ha⟩ := h
    exact ⟨p, x, y, hne, hr.trans (step_grows s c).1, ha.trans (step_grows s c).2⟩

/-- The calls with the byte 0 for a key that finds no other waiting, and 1 for the rest. -/
def marked : Nat → List (Call Unit) → List (Call Byte)
  | _, [] => []
  | n, .push c :: cs => .push (if n = 0 then 0 else 1) :: marked (level n (.push c)) cs
  | n, .read count :: cs => .read count :: marked (level n (.read count)) cs

theorem marked_shape (n : Nat) (cs : List (Call Unit)) :
    (marked n cs).map Call.shape = cs := by
  induction cs generalizing n with
  | nil => rfl
  | cons c cs ih =>
    cases c with
    | push u => exact congrArg₂ List.cons rfl (ih _)
    | read count => exact congrArg₂ List.cons rfl (ih _)

/-- The bytes that `marked` leaves in the buffer. -/
def Marked (l : List Byte) : Prop := l = [] ∨ ∃ n, l = 0 :: List.replicate n 1

theorem step_push_marked (h : Marked (waiting s.kbd)) :
    Marked (waiting (step s (.push (if s.kbd.size.toNat = 0 then 0 else 1))).kbd) := by
  show Marked (waiting (kbdBufferPush s.kbd _))
  by_cases hf : s.kbd.size = 255
  · rw [kbdBufferPush_full _ hf]
    exact h
  · rw [waiting_push _ hf, ← waiting_length]
    right
    obtain h | ⟨n, h⟩ := h
    · exact ⟨0, by simp [h]⟩
    · exact ⟨n + 1, by simp [h, List.replicate_succ']⟩

theorem step_read_marked (h : Marked (waiting s.kbd))
    (hone : 0 < count.toNat → count.toNat ≤ s.kbd.size.toNat → s.kbd.size.toNat = 1) :
    Marked (waiting (step s (.read count)).kbd) := by
  obtain ⟨-, hs⟩ | ⟨cs, k, hs, hw, hlen, hsize⟩ := step_read_cases s count
  · rw [hs]
    exact h
  · rw [hs]
    show Marked (waiting k)
    rcases Nat.eq_zero_or_pos count.toNat with h0 | hpos
    · rw [List.length_eq_zero_iff.mp (hlen.trans h0), List.reverse_nil, List.append_nil] at hw
      rw [hw]
      exact h
    · left
      apply List.length_eq_zero_iff.mp
      rw [waiting_length]
      omega

/-- With several bytes waiting, a read starts with the newest, which is not the oldest. -/
theorem step_read_broken (h : Queued s) (hm : Marked (waiting s.kbd)) (hpos : 0 < count.toNat)
    (hle : count.toNat ≤ s.kbd.size.toNat) (hone : s.kbd.size.toNat ≠ 1) :
    Broken (step s (.read count)) := by
  obtain ⟨hlt, -⟩ | ⟨cs, k, hs, hw, hlen, -⟩ := step_read_cases s count
  · omega
  have hlen' := waiting_length s.kbd
  obtain hm | ⟨n, hm⟩ := hm
  · rw [hm] at hlen'
    simp at hlen'
    omega
  obtain ⟨c, cs', rfl⟩ := List.exists_cons_of_length_pos (by omega : 0 < cs.length)
  obtain ⟨n, rfl⟩ : ∃ n', n = n' + 1 := by
    rw [hm] at hlen'
    simp at hlen'
    exact ⟨n - 1, by omega⟩
  have hc : c = 1 := by
    rw [hm, List.reverse_cons, ← List.append_assoc, List.replicate_succ', ← List.cons_append] at hw
    exact List.singleton_injective (List.append_inj_right' hw rfl)
  refine ⟨s.returned, 1, 0, by decide, ?_, ?_⟩
  · rw [hs, hc]
    exact (List.prefix_append_right_inj _).mpr (List.prefix_append [1] cs')
  · rw [hs]
    rw [h, hm]
    exact (List.prefix_append_right_inj _).mpr (List.prefix_append [0] _)

theorem run_marked_broken {cs : List (Call Unit)} (h : Queued s) (hm : Marked (waiting s.kbd))
    (hup : ¬ KeepsUp s.kbd.size.toNat cs) : Broken (run s (marked s.kbd.size.toNat cs)) := by
  induction cs generalizing s with
  | nil => exact absurd trivial hup
  | cons c cs ih =>
    cases c with
    | push u =>
      have hl := step_level s (.push (if s.kbd.size.toNat = 0 then 0 else 1))
      have hnext := ih (step_push_queued _ h) (step_push_marked hm) (by rw [hl]; exact hup)
      rw [hl] at hnext
      exact hnext
    | read count =>
      have hl := step_level s (.read count)
      by_cases hone : 0 < count.toNat → count.toNat ≤ s.kbd.size.toNat → s.kbd.size.toNat = 1
      · have hm' := step_read_marked hm hone
        have hnext := ih (step_read_queued h hone) hm' (by rw [hl]; exact fun e => hup ⟨hone, e⟩)
        rw [hl] at hnext
        exact hnext
      · push Not at hone
        obtain ⟨hpos, hle, hne⟩ := hone
        have hb := step_read_broken h hm hpos hle hne
        exact run_broken (marked (level _ (.read count)) cs) hb

/-- The keys come in the order typed, whatever they are, exactly if each read that takes
bytes finds only one waiting: the buffer is a stack. -/
theorem reads_inOrder_iff (cs : List (Call Unit)) :
    (∀ calls, calls.map Call.shape = cs → InOrder (run start calls)) ↔ KeepsUp 0 cs := by
  constructor
  · intro hall
    by_contra hup
    exact (run_marked_broken start_queued (.inl rfl) hup).not_inOrder
      (hall _ (marked_shape 0 cs))
  · intro hup calls hcalls
    subst hcalls
    exact (run_queued start_queued hup).inOrder

/-- Two keys typed before the first read come back in reverse. -/
theorem reads_reversed :
    ¬ InOrder (run start [.push 97, .push 98, .read 1, .read 1]) := by
  unfold InOrder
  decide

end Order
end TapiOS.Drivers
