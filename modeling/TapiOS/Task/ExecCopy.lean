import TapiOS.Mem.DataFrames
import TapiOS.Task.Sbrk

/-!
# The arguments of _exec, syscall/syscalls.c

Each string is read in the old address space and written to memory from _sbrk in the new
one, where the pointers to the copies form an array. The buffer `str` on the kernel stack
is in both spaces.
-/
namespace TapiOS.Task.ExecCopy

open Lib Util Mem.Vmm Task.Sbrk
open BitVec (ofNat)

/-- `&array[i]` -/
def slot (array : Word) (i : Nat) : Word := array + ofNat 32 (4 * i)

/-- The pointers up to NULL; there are no more than `n`. -/
def countFrom (m : Machine) (array : Word) : Nat → Except Stop Nat
  | 0 => .error .endless
  | n + 1 => do
    if (← m.loadWord array) = 0 then return 0
    else return (← countFrom m (array + 4) n) + 1

/-- `for(int i=0;; ++i, ++argc)`, up to a NULL pointer. -/
def count (m : Machine) (array : Word) : Except Stop Nat := countFrom m array (2 ^ 32)

def strlenFrom (m : Machine) (str : Word) : Nat → Except Stop Nat
  | 0 => .error .endless
  | n + 1 => do
    if (← m.loadByte str) = 0 then return 0
    else return (← strlenFrom m (str + 1) n) + 1

def strlen (m : Machine) (str : Word) : Except Stop Nat := strlenFrom m str (2 ^ 32)

/-- strncpy from memory: the bytes that it copies. -/
def strncpyFrom (m : Machine) (src : Word) : Nat → Except Stop (List Byte)
  | 0 => .ok []
  | n + 1 => do
    let b ← m.loadByte src
    if b = 0 then return [b]
    else return b :: (← strncpyFrom m (src + 1) n)

/-- strncpy to memory. -/
def strncpyTo (m : Machine) (dst : Word) : Nat → List Byte → Except Stop Machine
  | n + 1, b :: src => do
    let m ← m.storeByte dst b
    if b = 0 then return m else strncpyTo m (dst + 1) n src
  | _, _ => .ok m

def KERNEL_STACK_SIZE : Nat := 2048

/-- `char str[len]; strncpy(str, src, len)` with `left` bytes left on the kernel stack. The
code does not check them. -/
def stackCopy (left : Nat) (m : Machine) (src : Word) (len : Nat) : Except Stop (List Byte) :=
  if left < len then .error .stackOverflow else strncpyFrom m src len

/-- The body of the loop over `argv`, and of that over `envp`. -/
def copyString (left : Nat) (oldPdir pdir array copy : Word) (p : Process) (i : Nat) :
    Except Stop Process := do
  let m ← p.machine.changePdir oldPdir
  let len := (← strlen m (← m.loadWord (slot array i))) + 1
  let str ← stackCopy left m (← m.loadWord (slot array i)) len
  let m ← m.changePdir pdir
  let (block, p) ← sbrk ⟨m, p.brk⟩ (ofNat 32 len)
  let m ← p.machine.storeWord (slot copy i) block
  let m ← strncpyTo m (← m.loadWord (slot copy i)) len str
  return ⟨m, p.brk⟩

/-- The copy of an array of `n` strings. -/
def copyArray (left : Nat) (oldPdir pdir array : Word) (n : Nat) (p : Process) :
    Except Stop (Word × Process) := do
  let (copy, p) ← sbrk p (ofNat 32 (4 * (n + 1)))
  let p ← (List.range n).foldlM (copyString left oldPdir pdir array copy) p
  let m ← p.machine.storeWord (slot copy n) 0
  return (copy, ⟨m, p.brk⟩)

/-- `argv_copy` and `envp_copy`, which is NULL if there is no environment. -/
def copyArguments (left : Nat) (oldPdir pdir argv envp : Word) (argc envc : Nat)
    (p : Process) : Except Stop (Word × Word × Process) := do
  let (argvCopy, p) ← copyArray left oldPdir pdir argv argc p
  if 0 < envc then
    let (envpCopy, p) ← copyArray left oldPdir pdir envp envc p
    return (argvCopy, envpCopy, p)
  else return (argvCopy, 0, p)

/-- `envp` may be NULL. -/
def countEnv (m : Machine) (envp : Word) : Except Stop Nat :=
  if envp = 0 then .ok 0 else count m envp

/-- The arguments are counted when _exec is called, in `m`, and copied once the image is
loaded. -/
def passArguments (left : Nat) (m : Machine) (oldPdir pdir argv envp : Word)
    (p : Process) : Except Stop (Word × Word × Process) := do
  let argc ← count m argv
  let envc ← countEnv m envp
  copyArguments left oldPdir pdir argv envp argc envc p

/-! ## Bytes in a row -/

/-- The bytes from an address on. -/
def BytesAt (m : Machine) : Word → List Byte → Prop
  | _, [] => True
  | a, b :: l => m.loadByte a = .ok b ∧ BytesAt m (a + 1) l

instance (m : Machine) : (a : Word) → (l : List Byte) → Decidable (BytesAt m a l)
  | _, [] => inferInstanceAs (Decidable True)
  | a, b :: l =>
    have := instDecidableBytesAt m (a + 1) l
    inferInstanceAs (Decidable (m.loadByte a = .ok b ∧ BytesAt m (a + 1) l))

section BytesAt
variable {m : Machine} {a : Word} {b : Byte} {l l' : List Byte}

theorem add_one_ofNat (a : Word) (n : Nat) :
    a + 1 + ofNat 32 n = a + ofNat 32 (n + 1) := by
  rw [Nat.add_comm, BitVec.ofNat_add, BitVec.add_assoc]
  rfl

theorem bytesAt_append :
    BytesAt m a (l ++ l') ↔ BytesAt m a l ∧ BytesAt m (a + ofNat 32 l.length) l' := by
  induction l generalizing a with
  | nil =>
    rw [List.length_nil, BitVec.add_zero]
    exact ⟨fun h => ⟨trivial, h⟩, fun h => h.2⟩
  | cons b l ih =>
    rw [List.cons_append, BytesAt, BytesAt, ih, add_one_ofNat, and_assoc]
    rfl

theorem BytesAt.congr {m' : Machine} (h : BytesAt m a l)
    (he : ∀ i < l.length, m'.loadByte (a + ofNat 32 i) =
      m.loadByte (a + ofNat 32 i)) : BytesAt m' a l := by
  induction l generalizing a with
  | nil => trivial
  | cons b l ih =>
    constructor
    · have h0 := he 0 (Nat.zero_lt_succ _)
      rw [BitVec.add_zero] at h0
      exact h0.trans h.1
    · apply ih h.2
      intro i hi
      rw [add_one_ofNat]
      exact he (i + 1) (Nat.succ_lt_succ hi)

theorem wordBytes_join (w : Word) :
    (wordByte w 3 ++ wordByte w 2 ++ wordByte w 1 ++ wordByte w 0 : Word) = w := by
  have h := Mem.word_setWord (fun _ => 0) 0 w
  exact h

theorem loadWord_of_bytes {w : Word} (h : BytesAt m a (wordBytes w)) : m.loadWord a = .ok w := by
  obtain ⟨h0, h1, h2, h3, -⟩ := h
  rw [BitVec.add_assoc] at h2
  rw [BitVec.add_assoc, BitVec.add_assoc] at h3
  rw [Machine.loadWord, h0, ok_bind, h1, ok_bind, show (2 : Word) = 1 + 1 from rfl, h2, ok_bind,
    show (3 : Word) = 1 + (1 + 1) from rfl, h3, ok_bind, wordBytes_join]
  rfl

end BytesAt

/-! ## Reading -/

section Reading
variable {m : Machine} {a : Word}

/-- The text of a string, and the NUL behind it. -/
def Spells (m : Machine) (a : Word) (s : List Byte) : Prop := 0 ∉ s ∧ BytesAt m a (s ++ [0])

theorem strlenFrom_spells {s : List Byte} (h : Spells m a s) {n : Nat} (hn : s.length < n) :
    strlenFrom m a n = .ok s.length := by
  induction s generalizing a n with
  | nil =>
    cases n with
    | zero => exact absurd hn (Nat.not_lt_zero _)
    | succ n =>
      rw [strlenFrom, h.2.1]
      rfl
  | cons b s ih =>
    cases n with
    | zero => exact absurd hn (Nat.not_lt_zero _)
    | succ n =>
      have hb : b ≠ 0 := fun he => h.1 (by rw [he]; exact .head _)
      rw [strlenFrom, h.2.1, ok_bind, if_neg hb,
        ih ⟨fun hm => h.1 (.tail _ hm), h.2.2⟩ (Nat.lt_of_succ_lt_succ hn)]
      rfl

theorem strncpyFrom_spells {s : List Byte} (h : Spells m a s) :
    strncpyFrom m a (s.length + 1) = .ok (s ++ [0]) := by
  induction s generalizing a with
  | nil =>
    rw [strncpyFrom, h.2.1]
    rfl
  | cons b s ih =>
    have hb : b ≠ 0 := fun he => h.1 (by rw [he]; exact .head _)
    rw [List.length_cons, strncpyFrom, h.2.1, ok_bind, if_neg hb,
      ih ⟨fun hm => h.1 (.tail _ hm), h.2.2⟩]
    rfl

/-- The pointers of an array, with NULL behind them. -/
def Pointers (m : Machine) (a : Word) (ptrs : List Word) : Prop :=
  0 ∉ ptrs ∧ BytesAt m a ((ptrs ++ [0]).flatMap wordBytes)

theorem length_flatMap_wordBytes (ws : List Word) : (ws.flatMap wordBytes).length = 4 * ws.length := by
  induction ws with
  | nil => rfl
  | cons w ws ih =>
    rw [List.flatMap_cons, List.length_append, List.length_cons]
    show 4 + _ = _
    omega

theorem countFrom_pointers {ptrs : List Word} (h : Pointers m a ptrs) {n : Nat}
    (hn : ptrs.length < n) : countFrom m a n = .ok ptrs.length := by
  induction ptrs generalizing a n with
  | nil =>
    cases n with
    | zero => exact absurd hn (Nat.not_lt_zero _)
    | succ n =>
      rw [countFrom, loadWord_of_bytes (w := 0) h.2]
      rfl
  | cons w ptrs ih =>
    cases n with
    | zero => exact absurd hn (Nat.not_lt_zero _)
    | succ n =>
      have hw : w ≠ 0 := fun he => h.1 (by rw [he]; exact .head _)
      obtain ⟨hfirst, hrest⟩ := bytesAt_append.mp h.2
      have hptrs : Pointers m (a + 4) ptrs := ⟨fun hm => h.1 (.tail _ hm), hrest⟩
      rw [countFrom, loadWord_of_bytes hfirst, ok_bind, if_neg hw,
        ih hptrs (Nat.lt_of_succ_lt_succ hn)]
      rfl

end Reading

/-! ## Writing -/

/-- Stores in a row. -/
def storeAll (m : Machine) : Word → List Byte → Except Stop Machine
  | _, [] => .ok m
  | a, b :: l => do
    let m ← m.storeByte a b
    storeAll m (a + 1) l

section Writing
variable {m : Machine} {a : Word}

theorem storeWord_eq (w : Word) : m.storeWord a w = storeAll m a (wordBytes w) := by
  have h2 : a + 2 = a + 1 + 1 := by rw [BitVec.add_assoc]; rfl
  have h3 : a + 3 = a + 1 + 1 + 1 := by rw [BitVec.add_assoc, BitVec.add_assoc]; rfl
  rw [Machine.storeWord, h2, h3]
  congr 1
  funext m
  congr 1
  funext m
  congr 1
  funext m
  exact (bind_pure _).symm

theorem strncpyTo_eq {s : List Byte} (hs : 0 ∉ s) :
    strncpyTo m a (s.length + 1) (s ++ [0]) = storeAll m a (s ++ [0]) := by
  induction s generalizing m a with
  | nil =>
    congr 1
  | cons b s ih =>
    have hb : b ≠ 0 := fun he => hs (by rw [he]; exact .head _)
    rw [List.length_cons, List.cons_append, strncpyTo]
    congr 1
    funext m
    rw [if_neg hb, ih fun hm => hs (List.mem_cons_of_mem _ hm)]

end Writing

end TapiOS.Task.ExecCopy
