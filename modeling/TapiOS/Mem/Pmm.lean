import TapiOS.Lib.Runs
import TapiOS.Lib.Scan
import TapiOS.Util.BitScan
import TapiOS.Util.Pages

/-!
# The page frame allocator, mem/pmm.c

One bit per page frame, most significant bit first: the frame of an address is
bit `31 - offset` of word `addr >> 17`. `kallocPageFrame` takes a bit from the
first word that is not full, at a position it derives from the lowest set bit.
-/
namespace TapiOS.Mem.Pmm

open Lib Util

abbrev PhysAddr := BitVec 32

/-- BITMAP_SIZE -/
def bitmapSize : Nat := 32768

abbrev Bitmap := Nat → Word

/-- A word whose 32 frames are all reserved. -/
def fullWord : Word := 0xFFFFFFFF

def wordIndex (addr : PhysAddr) : Nat := (addr >>> 17).toNat
def frameOffset (addr : PhysAddr) : Nat := ((addr % 0x20000#32) >>> 12).toNat
def frameMask (addr : PhysAddr) : Word := 0x80000000#32 >>> frameOffset addr

def isFreePage (b : Bitmap) (addr : PhysAddr) : Bool :=
  (b (wordIndex addr) &&& frameMask addr) == 0#32

def setPageReserved (b : Bitmap) (addr : PhysAddr) (set : Bool) : Bitmap :=
  Function.update b (wordIndex addr)
    (if set then b (wordIndex addr) ||| frameMask addr
     else b (wordIndex addr) &&& ~~~frameMask addr)

/-- The allocator's two globals. -/
structure State where
  bitmap : Bitmap
  kernelEndAddr : PhysAddr

/-- The places of pmm.c that call PANIC. -/
inductive Panic where
  | frameNotFree
  | doubleFree
  deriving DecidableEq, Repr

/-- The loop of `setup_bitmap` over the first `n` frames. -/
def reserveFrames (b : Bitmap) : Nat → Bitmap
  | 0 => b
  | n + 1 => setPageReserved (reserveFrames b n) (BitVec.ofNat 32 (n * 0x1000)) true

/-- What boot knows of the kernel: `kernel_end_addr` as kmain left it (zero, or the
page after the multiboot module) and the address of `__kernel_end`, which link.ld
places above VIRTUAL_BASE. -/
structure KernelImage where
  kernelEndAddr : PhysAddr
  linkerKernelEnd : PhysAddr
  aligned : kernelEndAddr.toNat % 0x1000 = 0
  linked : 0xC0000000#32 ≤ linkerKernelEnd

/-- The value `setup_bitmap` leaves in `kernel_end_addr`. -/
def KernelImage.kernelEnd (k : KernelImage) : PhysAddr :=
  if k.kernelEndAddr = 0 then pageAlign k.linkerKernelEnd + 0x1000 - 0xC0000000
  else k.kernelEndAddr

def setupBitmap (k : KernelImage) : State :=
  { bitmap := reserveFrames (fun _ => 0) ((k.kernelEnd.toNat + 0xFFF) / 0x1000)
    kernelEndAddr := k.kernelEnd }

def kallocPageFrameAt (s : State) (addr : PhysAddr) : Except Panic (PhysAddr × State) :=
  let addr := pageAlign addr
  if isFreePage s.bitmap addr then
    .ok (addr, { s with bitmap := setPageReserved s.bitmap addr true })
  else .error .frameNotFree

/-- The scan for a word that is not full. -/
def firstOpenWord (b : Bitmap) : Option Nat :=
  firstFrom (fun i => b i != fullWord) bitmapSize 0

def kallocPageFrame (s : State) : PhysAddr × State :=
  match firstOpenWord s.bitmap with
  | none => (0, s)
  | some i =>
    let (msb, w) := getAndSetMsb 0 (s.bitmap i)
    (BitVec.ofInt 32 (i * 0x1000 * 32 + (32 - msb) * 0x1000),
      { s with bitmap := Function.update s.bitmap i w })

def kfreePageFrame (s : State) (addr : PhysAddr) : Except Panic State :=
  let addr := pageAlign addr
  if addr < s.kernelEndAddr then .ok s
  else if isFreePage s.bitmap addr then .error .doubleFree
  else .ok { s with bitmap := setPageReserved s.bitmap addr false }

/-- One call into the allocator. -/
inductive Call where
  | kallocPageFrame
  | kallocPageFrameAt (addr : PhysAddr)
  | kfreePageFrame (addr : PhysAddr)
  deriving DecidableEq, Repr

/-- A call, its result (`kfree_page_frame` returns nothing) and the new state. -/
def step (s : State) : Call → Except Panic (Option PhysAddr × State)
  | .kallocPageFrame => let (a, t) := kallocPageFrame s; .ok (some a, t)
  | .kallocPageFrameAt addr => (kallocPageFrameAt s addr).map (fun (a, t) => (some a, t))
  | .kfreePageFrame addr => (kfreePageFrame s addr).map (fun t => (none, t))

/-! ## Addresses and bits -/

/-- The address of frame `o` of word `i`. -/
def frameAddr (i o : Nat) : PhysAddr := BitVec.ofNat 32 (i * 0x20000 + o * 0x1000)

variable {i o : Nat}

theorem frameAddr_toNat (hi : i < bitmapSize) (ho : o < 32) :
    (frameAddr i o).toNat = i * 0x20000 + o * 0x1000 := by
  unfold frameAddr bitmapSize at *
  rw [BitVec.toNat_ofNat]
  omega

theorem wordIndex_eq (addr : PhysAddr) : wordIndex addr = addr.toNat / 0x20000 := by
  simp [wordIndex, Nat.shiftRight_eq_div_pow]

theorem frameOffset_eq (addr : PhysAddr) : frameOffset addr = addr.toNat % 0x20000 / 0x1000 := by
  simp [frameOffset, Nat.shiftRight_eq_div_pow]

theorem wordIndex_lt (addr : PhysAddr) : wordIndex addr < bitmapSize := by
  rw [wordIndex_eq, bitmapSize]
  omega

theorem frameOffset_lt (addr : PhysAddr) : frameOffset addr < 32 := by
  rw [frameOffset_eq]
  omega

theorem wordIndex_frameAddr (hi : i < bitmapSize) (ho : o < 32) :
    wordIndex (frameAddr i o) = i := by
  rw [wordIndex_eq, frameAddr_toNat hi ho]
  omega

theorem frameOffset_frameAddr (hi : i < bitmapSize) (ho : o < 32) :
    frameOffset (frameAddr i o) = o := by
  rw [frameOffset_eq, frameAddr_toNat hi ho]
  omega

theorem frameMask_eq (addr : PhysAddr) :
    frameMask addr = BitVec.twoPow 32 (31 - frameOffset addr) := by
  have ho := frameOffset_lt addr
  unfold frameMask
  generalize frameOffset addr = o at ho
  revert o
  decide

/-- A frame is free exactly when its bit is clear. -/
theorem isFreePage_iff (b : Bitmap) (addr : PhysAddr) :
    isFreePage b addr ↔
      (b (wordIndex addr)).getLsbD (31 - frameOffset addr) = false := by
  rw [isFreePage, frameMask_eq, beq_iff_eq]
  constructor
  · intro h
    have hb := congrArg (fun w : Word => w.getLsbD (31 - frameOffset addr)) h
    simpa [BitVec.getLsbD_twoPow, show 31 - frameOffset addr < 32 by omega] using hb
  · intro h
    apply BitVec.eq_of_getLsbD_eq
    intro k hk
    by_cases he : 31 - frameOffset addr = k
    · subst he; simp [h]
    · simp [BitVec.getLsbD_twoPow, he]

theorem sameFrame_iff (a c : PhysAddr) :
    (wordIndex a = wordIndex c ∧ frameOffset a = frameOffset c) ↔
      a.toNat / 0x1000 = c.toNat / 0x1000 := by
  rw [wordIndex_eq, wordIndex_eq, frameOffset_eq, frameOffset_eq]
  omega

/-- Setting the bit of one frame decides that frame and no other. -/
theorem isFreePage_setPageReserved (b : Bitmap) (a c : PhysAddr) (v : Bool) :
    isFreePage (setPageReserved b a v) c =
      if a.toNat / 0x1000 = c.toNat / 0x1000 then !v else isFreePage b c := by
  have ha := frameOffset_lt a
  have hc := frameOffset_lt c
  rw [Bool.eq_iff_iff, isFreePage_iff, setPageReserved, frameMask_eq]
  by_cases hw : wordIndex a = wordIndex c
  · rw [← hw]
    by_cases ho : frameOffset a = frameOffset c
    · rw [if_pos ((sameFrame_iff a c).mp ⟨hw, ho⟩), ← ho]
      cases v <;> simp [show 31 - frameOffset a < 32 by omega]
    · have hne : 31 - frameOffset a ≠ 31 - frameOffset c := by omega
      rw [if_neg (fun h => ho ((sameFrame_iff a c).mpr h).2), isFreePage_iff, hw]
      cases v <;> simp [Ne.symm hne, show 31 - frameOffset c < 32 by omega]
  · rw [Function.update_of_ne (Ne.symm hw),
      if_neg (fun h => hw ((sameFrame_iff a c).mpr h).1), isFreePage_iff]

/-! ## What one call does -/

/-- Either every word is full and nothing happens, or the first open word yields a
frame, which is then reserved. The frame is taken unseen when bit 0 is set. -/
theorem kallocPageFrame_spec (s : State) :
    (firstOpenWord s.bitmap = none ∧ kallocPageFrame s = (0, s)) ∨
    ∃ i o, firstOpenWord s.bitmap = some i ∧ i < bitmapSize ∧ o < 32 ∧
      kallocPageFrame s =
        (frameAddr i o, { s with bitmap := setPageReserved s.bitmap (frameAddr i o) true }) ∧
      ((s.bitmap i).getLsbD 0 = false → isFreePage s.bitmap (frameAddr i o)) ∧
      ((s.bitmap i).getLsbD 0 → o = 0) := by
  cases hf : firstOpenWord s.bitmap with
  | none => exact Or.inl ⟨rfl, by simp [kallocPageFrame, hf]⟩
  | some i =>
    right
    obtain ⟨-, hi, -, -⟩ := firstFrom_eq_some_iff.mp hf
    obtain ⟨m, hm1, hm32, hget, hfree, hlast⟩ := getAndSetMsb_spec (s.bitmap i)
    have ho : 32 - m < 32 := by omega
    have hbit : 31 - (32 - m) = m - 1 := by omega
    refine ⟨i, 32 - m, rfl, hi, ho, ?_, ?_, fun h => by have := hlast h; omega⟩
    · simp only [kallocPageFrame, hf, hget, Prod.mk.injEq, State.mk.injEq, and_true]
      constructor
      · unfold frameAddr
        rw [show ((i : Int) * 0x1000 * 32 + (32 - (m : Int)) * 0x1000) =
          ((i * 0x20000 + (32 - m) * 0x1000 : Nat) : Int) by omega, BitVec.ofInt_natCast]
      · rw [setPageReserved, frameMask_eq, wordIndex_frameAddr hi ho,
          frameOffset_frameAddr hi ho, hbit, if_pos rfl]
    · intro h0
      rw [isFreePage_iff, wordIndex_frameAddr hi ho, frameOffset_frameAddr hi ho, hbit]
      exact hfree h0

/-- Frame 0 belongs to the kernel for good. -/
def KernelHeld (s : State) : Prop := s.kernelEndAddr ≠ 0 ∧ isFreePage s.bitmap 0 = false

theorem reserveFrames_held (b : Bitmap) {n : Nat} (hn : 0 < n) :
    isFreePage (reserveFrames b n) 0 = false := by
  induction n with
  | zero => omega
  | succ n ih =>
    rw [reserveFrames, isFreePage_setPageReserved]
    by_cases hz : n = 0
    · subst hz; simp
    · split
      · rfl
      · exact ih (by omega)

theorem KernelImage.kernelEnd_ne_zero (k : KernelImage) : k.kernelEnd ≠ 0 := by
  have hl := k.linked
  have hm := pageAlign_toNat k.linkerKernelEnd
  unfold KernelImage.kernelEnd
  split
  · bv_omega
  · assumption

theorem KernelImage.kernelEnd_aligned (k : KernelImage) : k.kernelEnd.toNat % 0x1000 = 0 := by
  have hm := pageAlign_toNat k.linkerKernelEnd
  unfold KernelImage.kernelEnd
  split
  · bv_omega
  · exact k.aligned

theorem setupBitmap_held (k : KernelImage) : KernelHeld (setupBitmap k) := by
  have hend := k.kernelEnd_ne_zero
  refine ⟨hend, reserveFrames_held _ ?_⟩
  have hpos : 0 < k.kernelEnd.toNat :=
    Nat.pos_of_ne_zero (fun h => hend (BitVec.eq_of_toNat_eq h))
  omega

theorem setPageReserved_held {s : State} (hs : KernelHeld s) (a : PhysAddr) :
    KernelHeld { s with bitmap := setPageReserved s.bitmap a true } := by
  refine ⟨hs.1, ?_⟩
  rw [isFreePage_setPageReserved]
  split
  · rfl
  · exact hs.2

/-- Frees never reach below `kernel_end_addr`, so frame 0 stays reserved. -/
theorem kfreePageFrame_held {s t : State} {addr : PhysAddr} (hs : KernelHeld s)
    (h : kfreePageFrame s addr = .ok t) : KernelHeld t := by
  unfold kfreePageFrame at h
  dsimp only at h
  split at h
  · obtain rfl := Except.ok.inj h; exact hs
  · rename_i hlow
    split at h
    · cases h
    · cases h
      refine ⟨hs.1, ?_⟩
      rw [isFreePage_setPageReserved, if_neg, hs.2]
      have ha := pageAlign_toNat addr
      have hk : 0 < s.kernelEndAddr.toNat :=
        Nat.pos_of_ne_zero (fun h => hs.1 (BitVec.eq_of_toNat_eq h))
      rw [BitVec.lt_def] at hlow
      change (pageAlign addr).toNat / 0x1000 ≠ 0 / 0x1000
      omega

theorem step_held (s : State) (c : Call) (o : Option PhysAddr) (t : State)
    (hs : KernelHeld s) (h : step s c = .ok (o, t)) : KernelHeld t := by
  cases c with
  | kallocPageFrame =>
    simp only [step, Except.ok.injEq, Prod.mk.injEq] at h
    obtain ⟨-, rfl⟩ := h
    rcases kallocPageFrame_spec s with ⟨-, he⟩ | ⟨i, o, -, -, -, he, -, -⟩
    · rw [he]; exact hs
    · rw [he]; exact setPageReserved_held hs _
  | kallocPageFrameAt addr =>
    simp only [step, kallocPageFrameAt] at h
    split at h
    · obtain ⟨-, rfl⟩ := h
      exact setPageReserved_held hs _
    · cases h
  | kfreePageFrame addr =>
    cases hk : kfreePageFrame s addr with
    | error e => simp [step, hk, Except.map] at h
    | ok u =>
      simp only [step, hk, Except.map, Except.ok.injEq, Prod.mk.injEq] at h
      obtain ⟨-, rfl⟩ := h
      exact kfreePageFrame_held hs hk

/-! ## Frames are handed out once -/

/-- What the callers of `kalloc_page_frame` rely on: an address is that of a frame
that was free, and 0 means that no frame is. -/
def FreshFrame (s : State) (a : PhysAddr) : Prop :=
  (a ≠ 0 → isFreePage s.bitmap a) ∧ (a = 0 → ∀ c, isFreePage s.bitmap c = false)

/-- The first word that is not full has its first or its last frame free. -/
def OpenWordUsable (b : Bitmap) : Prop :=
  ∀ i, firstOpenWord b = some i → ¬ ((b i).getLsbD 0 ∧ (b i).getLsbD 31)

theorem full_of_firstOpenWord_none {b : Bitmap} (h : firstOpenWord b = none) (c : PhysAddr) :
    isFreePage b c = false := by
  have hf := firstFrom_eq_none_iff.mp h (wordIndex c) (Nat.zero_le _)
    (by rw [Nat.zero_add]; exact wordIndex_lt c)
  have hw : b (wordIndex c) = fullWord := by simpa using hf
  have hb : (fullWord).getLsbD (31 - frameOffset c) := by
    rw [show fullWord = BitVec.allOnes 32 by decide, BitVec.getLsbD_allOnes]
    simp only [decide_eq_true_eq]; omega
  rw [Bool.eq_false_iff, ne_eq, isFreePage_iff, hw, hb]
  simp

theorem exists_free_of_firstOpenWord {b : Bitmap} {i : Nat} (h : firstOpenWord b = some i) :
    ∃ c, isFreePage b c := by
  obtain ⟨-, hi, hp, -⟩ := firstFrom_eq_some_iff.mp h
  have hne : b i ≠ BitVec.allOnes 32 := by
    simpa [fullWord, show (0xFFFFFFFF : Word) = BitVec.allOnes 32 by decide] using hp
  obtain ⟨k, hk, hbit⟩ : ∃ k, k < 32 ∧ (b i).getLsbD k = false := by
    by_contra hall
    push Not at hall
    refine hne (BitVec.eq_of_getLsbD_eq fun k hk => ?_)
    rw [BitVec.getLsbD_allOnes, decide_eq_true hk]
    simpa using hall k hk
  refine ⟨frameAddr i (31 - k), ?_⟩
  rw [isFreePage_iff, wordIndex_frameAddr hi (by omega), frameOffset_frameAddr hi (by omega),
    show 31 - (31 - k) = k by omega]
  exact hbit

/-- One call is sound exactly when the word it takes from is usable. -/
theorem freshFrame_iff {s : State} (hs : KernelHeld s) :
    FreshFrame s (kallocPageFrame s).1 ↔ OpenWordUsable s.bitmap := by
  rcases kallocPageFrame_spec s with ⟨hn, he⟩ | ⟨i, o, hf, hi, ho, he, hfree, hlast⟩
  · rw [he]
    constructor
    · intro _ i hi
      rw [hn] at hi
      cases hi
    · exact fun _ => ⟨fun h => absurd rfl h, fun _ => full_of_firstOpenWord_none hn⟩
  rw [he]
  have h31 : isFreePage s.bitmap (frameAddr i 0) ↔ (s.bitmap i).getLsbD 31 = false := by
    rw [isFreePage_iff, wordIndex_frameAddr hi (by omega), frameOffset_frameAddr hi (by omega)]
  constructor
  · rintro ⟨hne, hz⟩ j hj ⟨hb0, hb31⟩
    obtain rfl : i = j := Option.some.inj (hf.symm.trans hj)
    obtain rfl := hlast hb0
    by_cases ha : frameAddr i 0 = 0
    · obtain ⟨c, hc⟩ := exists_free_of_firstOpenWord hf
      rw [hz ha c] at hc
      cases hc
    · have := h31.mp (hne ha)
      rw [hb31] at this
      cases this
  · intro husable
    have hok : isFreePage s.bitmap (frameAddr i o) := by
      cases hb0 : (s.bitmap i).getLsbD 0 with
      | false => exact hfree hb0
      | true =>
        obtain rfl := hlast hb0
        refine h31.mpr (Bool.eq_false_iff.mpr fun hb31 => husable i hf ⟨hb0, hb31⟩)
    refine ⟨fun _ => hok, fun ha => ?_⟩
    change frameAddr i o = 0 at ha
    rw [ha, hs.2] at hok
    cases hok

/-- In every run after boot, the frames handed out are fresh exactly when every
`kalloc_page_frame` of the run finds a usable word. -/
theorem frames_fresh_iff (k : KernelImage) (calls : List Call)
    (tr : List (Transition State Call (Option PhysAddr)))
    (hr : run step (setupBitmap k) calls = some tr) :
    (∀ x ∈ tr, x.input = .kallocPageFrame → ∀ a, x.output = some a → FreshFrame x.pre a) ↔
      (∀ x ∈ tr, x.input = .kallocPageFrame → OpenWordUsable x.pre.bitmap) := by
  have hheld := run_invariant (I := KernelHeld) (C := fun _ _ => True)
    (fun s c o t hs _ => step_held s c o t hs) hr (setupBitmap_held k) (fun _ _ => trivial)
  have hstep := run_step hr
  have hout : ∀ x ∈ tr, x.input = .kallocPageFrame → x.output = some (kallocPageFrame x.pre).1 := by
    intro x hx hin
    have h := hstep x hx
    rw [hin] at h
    simp only [step, Except.ok.injEq, Prod.mk.injEq] at h
    exact h.1.symm
  constructor
  · intro h x hx hin
    exact (freshFrame_iff (hheld x hx).1).mp (h x hx hin _ (hout x hx hin))
  · intro h x hx hin a ha
    rw [hout x hx hin] at ha
    cases ha
    exact (freshFrame_iff (hheld x hx).1).mpr (h x hx hin)

/-- A kernel whose module ends below 0x120000. -/
def smallKernel : KernelImage := ⟨0x120000, 0xC0110000, by decide, by decide⟩

theorem frames_fresh_iff_smallKernel :
    ∃ tr, run step (setupBitmap smallKernel) [.kallocPageFrame] = some tr ∧
      ((∀ x ∈ tr, x.input = .kallocPageFrame → ∀ a, x.output = some a → FreshFrame x.pre a) ↔
        (∀ x ∈ tr, x.input = .kallocPageFrame → OpenWordUsable x.pre.bitmap)) := by
  have hsome : (run step (setupBitmap smallKernel) [.kallocPageFrame]).isSome := by
    decide +kernel
  obtain ⟨tr, htr⟩ := Option.isSome_iff_exists.mp hsome
  exact ⟨tr, htr, frames_fresh_iff smallKernel _ tr htr⟩

/-- Fill the first word above the kernel, free a frame in its middle, allocate. -/
def refill : List Call :=
  List.replicate 32 .kallocPageFrame ++ [.kfreePageFrame 0x125000, .kallocPageFrame]

/-- The frame handed out last is the first of the word, still reserved. -/
theorem frame_handed_out_twice :
    ¬ ∀ (k : KernelImage) (calls : List Call) (tr : List (Transition State Call (Option PhysAddr))),
      run step (setupBitmap k) calls = some tr →
      ∀ x ∈ tr, x.input = .kallocPageFrame → ∀ a, x.output = some a → FreshFrame x.pre a := by
  intro h
  obtain ⟨tr, htr, x, hx, hin, hout, hused⟩ : ∃ tr ∈ run step (setupBitmap smallKernel) refill,
      ∃ x ∈ tr, x.input = .kallocPageFrame ∧ x.output = some 0x120000#32 ∧
        isFreePage x.pre.bitmap 0x120000#32 = false := by decide +kernel
  have hf := (h smallKernel refill tr htr x hx hin _ hout).1 (by decide)
  rw [hused] at hf
  cases hf

end TapiOS.Mem.Pmm
