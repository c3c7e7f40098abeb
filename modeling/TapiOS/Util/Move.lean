import TapiOS.Util.Memory

/-!
# Overlapping moves, util/util.c

memmove towards lower addresses is memcpy. Towards higher addresses it runs downwards, over
the indices `size` to 1: the byte behind the range is copied in place of the first one.
-/
namespace TapiOS.Util

open BitVec (ofNat)

/-- `m'` is `m` with the `n` bytes at `src` moved to `dst`. -/
structure Moved (m m' : Mem) (dst src : Word) (n : Nat) : Prop where
  copied : ∀ i < n, m' (dst + ofNat 32 i) = m (src + ofNat 32 i)
  frame : ∀ a, (∀ i < n, a ≠ dst + ofNat 32 i) → m' a = m a

variable {m : Mem} {dst src : Word}

/-- What the downward loop overwrites has been read before. -/
theorem moveLoop_spec {n : Nat} (hlt : src < dst) (hd : dst.toNat + n ≤ 2 ^ 32) (a : Word) :
    moveLoop dst src n m a =
      if 0 < (a - dst).toNat ∧ (a - dst).toNat ≤ n then m (src + (a - dst)) else m a := by
  induction n generalizing m with
  | zero => rw [if_neg (by omega)]; rfl
  | succ n ih =>
    rw [moveLoop, ih (by omega)]
    by_cases ha : a = dst + ofNat 32 (n + 1)
    · have hk : (a - dst).toNat = n + 1 := by bv_omega
      have hsub : a - dst = ofNat 32 (n + 1) := by bv_omega
      rw [if_neg (by omega), if_pos (by omega), hsub, ha, Mem.set_same]
    · have hk : (a - dst).toNat ≠ n + 1 := fun h => ha (by bv_omega)
      split_ifs with h1 h2 h2
      · exact Mem.set_other _ _ (by bv_omega)
      · omega
      · omega
      · exact Mem.set_other _ _ ha

theorem memmove_down {size : Word} (hle : dst ≤ src) (hd : dst.toNat + size.toNat ≤ 2 ^ 32)
    (hs : src.toNat + size.toNat ≤ 2 ^ 32) :
    Moved m (memmove m dst src size) dst src size.toNat := by
  unfold memmove
  by_cases heq : src = dst
  · subst heq
    rw [if_pos rfl]
    exact ⟨fun _ _ => rfl, fun _ _ => rfl⟩
  · have hlt : dst < src := by bv_omega
    have hspec := copyLoop_spec (m := m) (i := 0) (n := size.toNat) (by omega) (by omega) hlt
    rw [if_neg heq, if_pos hlt, memcpy]
    refine ⟨fun i hi => ?_, fun a ha => ?_⟩
    · have hat := add_ofNat_toNat (a := dst) (i := i) (by omega)
      have hsub : dst + ofNat 32 i - dst = ofNat 32 i := by bv_omega
      rw [hspec, if_pos (by omega), hsub]
    · refine (hspec a).trans (if_neg fun hr => ?_)
      exact ha (a.toNat - dst.toNat) (by omega) (by bv_omega)

/-- The bytes of a move upwards: all but the first, and one more. -/
theorem memmove_up {size : Word} (hlt : src < dst) (hd : dst.toNat + size.toNat ≤ 2 ^ 32)
    (h0 : size ≠ 0) : Moved m (memmove m dst src size) dst src size.toNat ↔
      m dst = m src ∧ m (dst + size) = m (src + size) := by
  have hspec := moveLoop_spec (m := m) hlt hd
  have hne : src ≠ dst := fun h => by bv_omega
  have hpos : 0 < size.toNat := by bv_omega
  have hmv : memmove m dst src size = moveLoop dst src size.toNat m := by
    rw [memmove, if_neg hne, if_neg (by bv_omega)]
  have hlast : dst + size - dst = size := by bv_omega
  rw [hmv]
  constructor
  · intro h
    constructor
    · have hfirst := h.copied 0 hpos
      rwa [BitVec.add_zero, BitVec.add_zero, hspec, if_neg (by bv_omega)] at hfirst
    · have hout := h.frame (dst + size) fun i hi => by bv_omega
      rw [hspec, if_pos (by rw [hlast]; omega), hlast] at hout
      exact hout.symm
  · intro h
    refine ⟨fun i hi => ?_, fun a ha => ?_⟩
    · have hsub : dst + ofNat 32 i - dst = ofNat 32 i := by bv_omega
      have hat : (ofNat 32 i).toNat = i := by bv_omega
      rw [hspec, hsub]
      by_cases hi0 : i = 0
      · subst hi0
        rw [BitVec.add_zero, BitVec.add_zero]
        exact h.1
      · exact if_pos (by omega)
    · rw [hspec]
      split_ifs with hr
      · -- of the places the loop writes, only the one behind the range is outside
        have hend : a = dst + size := by
          by_contra hne
          exact ha (a - dst).toNat (by bv_omega) (by bv_omega)
        rw [hend, hlast]
        exact h.2.symm
      · rfl

/-- Downwards memmove moves its bytes and leaves the rest alone; upwards it does so only if the
first bytes and the bytes behind the two ranges already agree. -/
theorem memmove_moves_iff (m : Mem) (dst src size : Word)
    (hd : dst.toNat + size.toNat ≤ 2 ^ 32) (hs : src.toNat + size.toNat ≤ 2 ^ 32) :
    Moved m (memmove m dst src size) dst src size.toNat ↔
      size = 0 ∨ dst ≤ src ∨ (m dst = m src ∧ m (dst + size) = m (src + size)) := by
  by_cases hle : dst ≤ src
  · exact iff_of_true (memmove_down hle hd hs) (.inr (.inl hle))
  have hlt : src < dst := by bv_omega
  by_cases h0 : size = 0
  · subst h0
    have hid : memmove m dst src 0 = m := by
      rw [memmove, if_neg (fun h => hle (by bv_omega)), if_neg (by bv_omega)]
      rfl
    rw [hid]
    exact iff_of_true ⟨fun i hi => absurd hi (Nat.not_lt_zero i), fun _ _ => rfl⟩ (.inl rfl)
  · rw [memmove_up hlt hd h0]
    simp only [h0, hle, false_or]

theorem memmove_moves_iff_down : Moved (fun a => a.setWidth 8)
    (memmove (fun a => a.setWidth 8) 0x10 0x12 4) 0x10 0x12 4 :=
  (memmove_moves_iff _ 0x10 0x12 4 (by decide) (by decide)).mpr (.inr (.inl (by decide)))

/-- One byte moved one place up: the byte stays behind and another one is lost. -/
theorem memmove_loses_first :
    ¬Moved (fun a => a.setWidth 8) (memmove (fun a => a.setWidth 8) 0x11 0x10 1) 0x11 0x10 1 := by
  intro h
  exact absurd (h.copied 0 (by decide)) (by decide)

end TapiOS.Util
