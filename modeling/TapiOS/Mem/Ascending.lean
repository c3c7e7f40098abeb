import TapiOS.Mem.Pmm

/-!
# Frames in ascending order

As long as no frame is freed, the reserved frames are those below a bound: the allocator
hands out the frame at the bound and moves it by one.
-/
namespace TapiOS.Mem.Pmm

open Lib Util
open BitVec (allOnes eq_of_getLsbD_eq ofNat toNat_ofNat)

/-- The number of frames that the bitmap counts. -/
def frameCount : Nat := 0x100000

/-- The frames below `n` are reserved, and no others. -/
def Ascending (s : State) (n : Nat) : Prop :=
  ∀ a, isFreePage s.bitmap a = decide (n ≤ a.toNat / 0x1000)

section Words
variable {s : State} {n : Nat}

/-- A word whose first `r` frames are reserved yields frame `r`. -/
theorem getAndSetMsb_row {w : Word} {r : Nat} (hr : r < 32)
    (hw : ∀ j < 32, w.getLsbD (31 - j) = decide (j < r)) :
    getAndSetMsb 0 w = (((32 - r : Nat) : Int), w ||| BitVec.twoPow 32 (31 - r)) := by
  have heq : w = allOnes 32 <<< (32 - r) := by
    apply eq_of_getLsbD_eq
    intro i hi
    have h := hw (31 - i) (by omega)
    rw [show 31 - (31 - i) = i by omega] at h
    rw [h, BitVec.getLsbD_shiftLeft, BitVec.getLsbD_allOnes]
    by_cases hlt : 31 - i < r
    · simp [hlt, hi, show ¬ i < 32 - r by omega, show i - (32 - r) < 32 by omega]
    · simp [hlt, show i < 32 - r by omega]
  rw [heq]
  clear heq hw
  revert r
  decide +kernel

variable (h : Ascending s n)
include h

theorem Ascending.bit {i o : Nat} (hi : i < bitmapSize) (ho : o < 32) :
    (s.bitmap i).getLsbD (31 - o) = decide (i * 32 + o < n) := by
  have hfree := h (frameAddr i o)
  have haddr : (frameAddr i o).toNat / 0x1000 = i * 32 + o := by
    rw [frameAddr_toNat hi ho]
    omega
  have hbit := isFreePage_iff s.bitmap (frameAddr i o)
  rw [wordIndex_frameAddr hi ho, frameOffset_frameAddr hi ho, hfree, decide_eq_true_eq] at hbit
  by_cases hlt : i * 32 + o < n
  · rw [decide_eq_true hlt, ← Bool.not_eq_false]
    intro hb
    exact absurd (hbit.mpr hb) (by omega)
  · rw [decide_eq_false hlt]
    exact hbit.mp (by omega)

theorem Ascending.full {i : Nat} (hi : i < bitmapSize) :
    s.bitmap i = fullWord ↔ i * 32 + 32 ≤ n := by
  constructor
  · intro hfull
    have hb := h.bit hi (o := 31) (by decide)
    rw [hfull] at hb
    have hlt := of_decide_eq_true hb.symm
    omega
  · intro hle
    apply eq_of_getLsbD_eq
    intro k hk
    have hb := h.bit hi (o := 31 - k) (by omega)
    rw [show 31 - (31 - k) = k by omega] at hb
    rw [hb, show fullWord = allOnes 32 by decide, BitVec.getLsbD_allOnes, decide_eq_true hk,
      decide_eq_true (show i * 32 + (31 - k) < n by omega)]

theorem Ascending.setPageReserved (hn : n < frameCount) :
    Ascending { s with bitmap := setPageReserved s.bitmap (ofNat 32 (n * 0x1000)) true }
      (n + 1) := by
  unfold frameCount at hn
  intro a
  have haddr : (ofNat 32 (n * 0x1000)).toNat / 0x1000 = n := by
    rw [toNat_ofNat]
    omega
  rw [isFreePage_setPageReserved, haddr, h a]
  by_cases he : n = a.toNat / 0x1000
  · rw [if_pos he, decide_eq_false (by omega)]
    rfl
  · rw [if_neg he, decide_eq_decide]
    omega

theorem Ascending.kallocPageFrame (hn : n < frameCount) :
    (kallocPageFrame s).1 = ofNat 32 (n * 0x1000) ∧
      Ascending (kallocPageFrame s).2 (n + 1) := by
  have hn' := hn
  unfold frameCount at hn
  have hword : n / 32 < bitmapSize := by
    unfold bitmapSize
    omega
  have hopen : firstOpenWord s.bitmap = some (n / 32) := by
    refine firstFrom_eq_some_iff.mpr ⟨Nat.zero_le _, by rw [Nat.zero_add]; exact hword, ?_, ?_⟩
    · rw [bne_iff_ne, ne_eq, h.full hword]
      omega
    · intro j _ hj
      have hfull := (h.full (i := j) (by omega)).mpr (by omega)
      simp [hfull]
  have hrow : ∀ j < 32, (s.bitmap (n / 32)).getLsbD (31 - j) = decide (j < n % 32) := by
    intro j hj
    rw [h.bit hword hj, decide_eq_decide]
    omega
  have hget := getAndSetMsb_row (Nat.mod_lt n (by decide)) hrow
  have hframe : ofNat 32 (n * 0x1000) = frameAddr (n / 32) (n % 32) := by
    rw [frameAddr, show n / 32 * 0x20000 + n % 32 * 0x1000 = n * 0x1000 by omega]
  have hcall : Pmm.kallocPageFrame s = (ofNat 32 (n * 0x1000),
      { s with bitmap := Pmm.setPageReserved s.bitmap (ofNat 32 (n * 0x1000)) true }) := by
    have hlt := Nat.mod_lt n (show 0 < 32 by decide)
    simp only [Pmm.kallocPageFrame, hopen, hget, Prod.mk.injEq, State.mk.injEq, and_true]
    constructor
    · rw [show ((n / 32 : Nat) : Int) * 0x1000 * 32 + (32 - ((32 - n % 32 : Nat) : Int)) * 0x1000 =
        ((n * 0x1000 : Nat) : Int) by omega, BitVec.ofInt_natCast]
    · rw [hframe, Pmm.setPageReserved, frameMask_eq, wordIndex_frameAddr hword hlt,
        frameOffset_frameAddr hword hlt, if_pos rfl]
  rw [hcall]
  exact ⟨rfl, h.setPageReserved hn'⟩

theorem Ascending.exhausted (hn : frameCount ≤ n) : Pmm.kallocPageFrame s = (0, s) := by
  have hnone : firstOpenWord s.bitmap = none := by
    refine firstFrom_eq_none_iff.mpr fun i _ hi => ?_
    unfold frameCount at hn
    have hfull := (h.full hi).mpr (by unfold bitmapSize at hi; omega)
    simp [hfull]
  simp only [Pmm.kallocPageFrame, hnone]

/-- A call keeps the order, and with it the frames that are reserved. -/
theorem Ascending.next : ∃ n', n ≤ n' ∧ Ascending (Pmm.kallocPageFrame s).2 n' := by
  by_cases hn : n < frameCount
  · exact ⟨n + 1, Nat.le_succ n, (h.kallocPageFrame hn).2⟩
  · refine ⟨n, Nat.le_refl n, ?_⟩
    rw [h.exhausted (Nat.le_of_not_lt hn)]
    exact h

theorem Ascending.reserved {s' : State} {n' : Nat} (h' : Ascending s' n') (hle : n ≤ n')
    {p : PhysAddr} (hp : isFreePage s.bitmap p = false) : isFreePage s'.bitmap p = false := by
  rw [h, decide_eq_false_iff_not] at hp
  rw [h', decide_eq_false_iff_not]
  omega

end Words

theorem reserveFrames_ascending (kend : PhysAddr) {n : Nat} (hn : n ≤ frameCount) :
    Ascending ⟨reserveFrames (fun _ => 0) n, kend⟩ n := by
  induction n with
  | zero =>
    intro a
    exact (isFreePage_iff _ a).mpr (BitVec.getLsbD_zero ..)
  | succ n ih => exact (ih (by omega)).setPageReserved (by omega)

/-- setup_bitmap reserves the frames of the kernel. -/
theorem setupBitmap_ascending (k : KernelImage) :
    Ascending (setupBitmap k) (k.kernelEnd.toNat / 0x1000) := by
  have ha := k.kernelEnd_aligned
  have he : (k.kernelEnd.toNat + 0xFFF) / 0x1000 = k.kernelEnd.toNat / 0x1000 := by omega
  unfold setupBitmap
  rw [he]
  exact reserveFrames_ascending _ (by unfold frameCount; omega)

/-! ## Runs of allocations -/

theorem run_kallocPageFrame {s : State} {n : Nat}
    {tr : List (Transition State Call (Option PhysAddr))}
    (hr : run step (kallocPageFrame s).2 (List.replicate n .kallocPageFrame) = some tr) :
    run step s (List.replicate (n + 1) .kallocPageFrame) =
      some (⟨s, .kallocPageFrame, some (kallocPageFrame s).1, (kallocPageFrame s).2⟩ :: tr) := by
  have hstep : step s .kallocPageFrame = .ok (some (kallocPageFrame s).1, (kallocPageFrame s).2) := rfl
  rw [List.replicate_succ]
  simp [run, hstep, hr]

/-- A run of allocations alone: the frames from the bound on, and after the last one nothing. -/
theorem Ascending.run {s : State} {bound : Nat} (h : Ascending s bound) (n : Nat) :
    ∃ tr, run step s (List.replicate n .kallocPageFrame) = some tr ∧ tr.length = n ∧
      ∀ j x, tr[j]? = some x →
        (bound + j < frameCount → x.output = some (ofNat 32 ((bound + j) * 0x1000))) ∧
        (frameCount ≤ bound + j → x.output = some 0 ∧ x.post = x.pre) := by
  induction n generalizing s bound with
  | zero => exact ⟨[], rfl, rfl, by simp⟩
  | succ n ih =>
    by_cases hb : bound < frameCount
    · obtain ⟨hframe, hnext⟩ := h.kallocPageFrame hb
      obtain ⟨tr, hr, hlen, hall⟩ := ih hnext
      refine ⟨_, run_kallocPageFrame hr, congrArg Nat.succ hlen, ?_⟩
      intro j x hx
      cases j with
      | zero =>
        cases hx
        exact ⟨fun _ => congrArg some hframe, fun hle => by omega⟩
      | succ j =>
        rw [show bound + (j + 1) = bound + 1 + j by omega]
        exact hall j x hx
    · -- Nothing is left, so the state stays and so does the bound.
      have hnone := h.exhausted (Nat.le_of_not_lt hb)
      obtain ⟨tr, hr, hlen, hall⟩ := ih (s := (Pmm.kallocPageFrame s).2) (by rw [hnone]; exact h)
      refine ⟨_, run_kallocPageFrame hr, congrArg Nat.succ hlen, ?_⟩
      intro j x hx
      refine ⟨fun hlt => by omega, fun _ => ?_⟩
      cases j with
      | zero =>
        cases hx
        rw [hnone]
        exact ⟨rfl, rfl⟩
      | succ j => exact (hall j x hx).2 (by omega)

/-- After boot, call `j` gives frame `j` behind the kernel; when the addresses end, every
call gives 0 and changes nothing. -/
theorem frames_in_order (k : KernelImage) (n : Nat) :
    ∃ tr, run step (setupBitmap k) (List.replicate n .kallocPageFrame) = some tr ∧
      tr.length = n ∧ ∀ j x, tr[j]? = some x →
        (k.kernelEnd.toNat + j * 0x1000 < 2 ^ 32 →
          x.output = some (k.kernelEnd + ofNat 32 (j * 0x1000))) ∧
        (2 ^ 32 ≤ k.kernelEnd.toNat + j * 0x1000 → x.output = some 0 ∧ x.post = x.pre) := by
  obtain ⟨tr, hr, hlen, hall⟩ := (setupBitmap_ascending k).run n
  refine ⟨tr, hr, hlen, fun j x hx => ?_⟩
  obtain ⟨hbelow, habove⟩ := hall j x hx
  have ha := k.kernelEnd_aligned
  unfold frameCount at hbelow habove
  constructor
  · intro hlt
    rw [hbelow (by omega)]
    congr 1
    apply BitVec.eq_of_toNat_eq
    rw [BitVec.toNat_add, toNat_ofNat, toNat_ofNat]
    omega
  · intro hle
    exact habove (by omega)

/-! ## Scan and index -/

variable {b : Bitmap}

theorem firstOpenWord_isSome {i : Nat} (hi : i < bitmapSize) (h : b i ≠ fullWord) :
    firstOpenWord b ≠ none := by
  intro hn
  have hfull := firstFrom_eq_none_iff.mp hn i (Nat.zero_le i) (by rw [Nat.zero_add]; exact hi)
  exact h (by simpa using hfull)

/-- Releasing a frame that was free before it was reserved. -/
theorem setPageReserved_undo {a : PhysAddr} (h : isFreePage b a) :
    setPageReserved (setPageReserved b a true) a false = b := by
  have hb := (isFreePage_iff b a).mp h
  unfold setPageReserved
  rw [Function.update_idem, frameMask_eq]
  refine Function.update_eq_self_iff.mpr (eq_of_getLsbD_eq fun k hk => ?_)
  by_cases he : 31 - frameOffset a = k
  · subst he
    simp [hb, BitVec.getLsbD_twoPow]
  · simp [Ne.symm he, hk]

theorem setPageReserved_reserved {a : PhysAddr} (h : isFreePage b a = false) :
    setPageReserved b a true = b := by
  have hb : (b (wordIndex a)).getLsbD (31 - frameOffset a) := by
    rw [← Bool.not_eq_false]
    intro hb
    rw [(isFreePage_iff b a).mpr hb] at h
    cases h
  unfold setPageReserved
  rw [frameMask_eq]
  refine Function.update_eq_self_iff.mpr (eq_of_getLsbD_eq fun k hk => ?_)
  by_cases he : 31 - frameOffset a = k
  · subst he
    simp [hb]
  · simp [Ne.symm he, hk]

/-- The scan of kalloc_page_frame reserves the frame it returns in the sense of is_free_page,
set_page_reserved decides its own page alone, and a free undoes an allocation. -/
theorem scan_index_agree (s : State) (hopen : ∃ i < bitmapSize, s.bitmap i ≠ fullWord) :
    (∀ c, isFreePage (kallocPageFrame s).2.bitmap c =
      if (kallocPageFrame s).1.toNat / 0x1000 = c.toNat / 0x1000 then false
      else isFreePage s.bitmap c) ∧
    (∀ b a c v, isFreePage (setPageReserved b a v) c =
      if a.toNat / 0x1000 = c.toNat / 0x1000 then !v else isFreePage b c) ∧
    (isFreePage s.bitmap (kallocPageFrame s).1 → s.kernelEndAddr ≤ (kallocPageFrame s).1 →
      kfreePageFrame (kallocPageFrame s).2 (kallocPageFrame s).1 = .ok s) := by
  obtain ⟨i, hi, hword⟩ := hopen
  rcases kallocPageFrame_spec s with ⟨hn, -⟩ | ⟨i, o, -, hi, ho, he, -⟩
  · exact absurd hn (firstOpenWord_isSome hi hword)
  rw [he]
  refine ⟨fun c => isFreePage_setPageReserved .., isFreePage_setPageReserved, ?_⟩
  intro hfree hend
  dsimp only at hfree hend ⊢
  have halign : pageAlign (frameAddr i o) = frameAddr i o := by
    apply BitVec.eq_of_toNat_eq
    rw [pageAlign_toNat, frameAddr_toNat hi ho]
    omega
  have hres : isFreePage (setPageReserved s.bitmap (frameAddr i o) true) (frameAddr i o) = false := by
    rw [isFreePage_setPageReserved, if_pos rfl]
    rfl
  unfold kfreePageFrame
  rw [halign, if_neg (BitVec.not_lt.mpr hend), hres, if_neg Bool.false_ne_true,
    setPageReserved_undo hfree]

/-- Behind a small kernel the first frame is taken and given back. -/
theorem scan_index_agree_smallKernel :
    kfreePageFrame (kallocPageFrame (setupBitmap smallKernel)).2 0x120000 =
      .ok (setupBitmap smallKernel) := by
  have hframe : (kallocPageFrame (setupBitmap smallKernel)).1 = 0x120000 := by decide +kernel
  have hundo := (scan_index_agree (setupBitmap smallKernel)
    ⟨9, by decide, by decide +kernel⟩).2.2 (by decide +kernel) (by decide +kernel)
  rwa [hframe] at hundo

end TapiOS.Mem.Pmm
