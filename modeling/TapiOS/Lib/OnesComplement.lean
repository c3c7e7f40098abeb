import Mathlib.Data.Nat.ModEq
import Mathlib.Algebra.BigOperators.Group.List.Basic
import Mathlib.Tactic.Ring

/-!
# One's complement sums

Sums of digits below a base `b` in which a carry out of the digit is added at its lower
end. Such a sum is the ordinary one modulo `b - 1`, with `b - 1` in place of zero unless
all digits are zero.
-/
namespace TapiOS.Lib

section Sum
variable {b x y : Nat}

/-- Addition with end-around carry. -/
def carryAdd (b x y : Nat) : Nat := if x + y < b then x + y else x + y + 1 - b

def onesSum (b : Nat) (ws : List Nat) : Nat := ws.foldl (carryAdd b) 0

theorem carryAdd_lt (hx : x < b) (hy : y < b) : carryAdd b x y < b := by
  unfold carryAdd
  split <;> omega

theorem carryAdd_eq_zero_iff (hb : 0 < b) : carryAdd b x y = 0 ↔ x + y = 0 := by
  unfold carryAdd
  split <;> omega

theorem carryAdd_modEq (hb : 0 < b) : carryAdd b x y ≡ x + y [MOD b - 1] := by
  unfold carryAdd
  split
  · rfl
  · have h : x + y = x + y + 1 - b + (b - 1) := by omega
    conv_rhs => rw [h]
    simp [Nat.ModEq]

theorem mul_modEq_self (hb : 0 < b) : b * x ≡ x [MOD b - 1] := by
  have h : b * x = x + (b - 1) * x := by
    rw [Nat.add_comm, ← Nat.succ_mul]
    congr 1
    omega
  rw [h]
  simp [Nat.ModEq]

theorem foldl_carryAdd (hb : 0 < b) (ws : List Nat) (hx : x < b) (hws : ∀ w ∈ ws, w < b) :
    ws.foldl (carryAdd b) x < b ∧ (ws.foldl (carryAdd b) x = 0 ↔ x + ws.sum = 0) ∧
      ws.foldl (carryAdd b) x ≡ x + ws.sum [MOD b - 1] := by
  induction ws generalizing x with
  | nil => exact ⟨hx, Iff.rfl, rfl⟩
  | cons w ws ih =>
    obtain ⟨hlt, hzero, hmod⟩ := ih (carryAdd_lt hx (hws w (.head _)))
      (fun v hv => hws v (.tail _ hv))
    have hw := carryAdd_eq_zero_iff (x := x) (y := w) hb
    rw [List.foldl_cons, List.sum_cons, ← Nat.add_assoc]
    refine ⟨hlt, ?_, hmod.trans ((carryAdd_modEq hb).add_right _)⟩
    rw [hzero]
    omega

/-- A one's complement sum is all ones for the nonzero multiples of `b - 1`. -/
theorem onesSum_eq_iff (hb : 0 < b) {ws : List Nat} (hws : ∀ w ∈ ws, w < b) (hpos : ws.sum ≠ 0) :
    onesSum b ws = b - 1 ↔ (b - 1) ∣ ws.sum := by
  obtain ⟨hlt, hzero, hmod⟩ := foldl_carryAdd hb ws hb hws
  rw [Nat.zero_add] at hzero hmod
  have hne : onesSum b ws ≠ 0 := fun h => hpos (hzero.mp h)
  have hlt : onesSum b ws < b := hlt
  constructor
  · intro h
    have hd : b - 1 ∣ onesSum b ws := by rw [h]
    exact (Nat.ModEq.dvd_iff hmod (Nat.dvd_refl _)).mp hd
  · intro h
    have hd : b - 1 ∣ onesSum b ws := (Nat.ModEq.dvd_iff hmod (Nat.dvd_refl _)).mpr h
    have hle := Nat.le_of_dvd (Nat.pos_of_ne_zero hne) hd
    omega

/-- The complement of a sum `t` of two digits after adding them once: it completes `t` to
a multiple of `b - 1` exactly if that addition has no carry itself. -/
theorem dvd_add_complement_iff (hb : 2 < b) {t : Nat} (ht : t < b * b) :
    (b - 1) ∣ t + (b - 1 - (t % b + t / b) % b) ↔ t % b + t / b < b := by
  have hfold : t ≡ t % b + t / b [MOD b - 1] := by
    conv_lhs => rw [← Nat.mod_add_div t b]
    exact (mul_modEq_self (by omega)).add_left _
  have hle : t % b + t / b < 2 * b - 1 := by
    have hdiv : t / b < b := Nat.div_lt_of_lt_mul ht
    have hmod : t % b < b := Nat.mod_lt _ (by omega)
    omega
  rw [Nat.ModEq.dvd_iff (hfold.add_right _) (Nat.dvd_refl _)]
  generalize t % b + t / b = l at hle ⊢
  constructor
  · intro hd
    by_contra hl
    -- the lost carry leaves a sum of one
    have hl' : l % b = l - b := by
      rw [Nat.mod_eq_sub_mod (by omega), Nat.mod_eq_of_lt (by omega)]
    have hs : l + (b - 1 - l % b) = 1 + 2 * (b - 1) := by omega
    rw [hs, Nat.dvd_add_left (Nat.dvd_mul_left _ _)] at hd
    have h1 := Nat.le_of_dvd (by omega) hd
    omega
  · intro hl
    rw [Nat.mod_eq_of_lt hl]
    have hs : l + (b - 1 - l) = b - 1 := by omega
    rw [hs]

end Sum

section ByteOrder

/-! Pairs of bytes below `c` as digits below `c * c`, in both orders; an odd last byte is
followed by a zero. -/

variable {c : Nat}

def bigEndian (c : Nat) : List Nat → List Nat
  | [] => []
  | [a] => [c * a]
  | a :: b :: bs => (c * a + b) :: bigEndian c bs

def littleEndian (c : Nat) : List Nat → List Nat
  | [] => []
  | [a] => [a]
  | a :: b :: bs => (a + c * b) :: littleEndian c bs

variable {bs : List Nat}

theorem bigEndian_lt (h : ∀ b ∈ bs, b < c) : ∀ w ∈ bigEndian c bs, w < c * c := by
  induction bs using bigEndian.induct with
  | case1 => intro w hw; cases hw
  | case2 a =>
    intro w hw
    have ha := h a (.head _)
    rw [List.mem_singleton.mp hw]
    exact Nat.mul_lt_mul_of_pos_left ha (by omega)
  | case3 a b bs ih =>
    intro w hw
    have ha := h a (by simp)
    have hb := h b (by simp)
    obtain rfl | hw := List.mem_cons.mp hw
    · have hm := Nat.mul_le_mul_left c (Nat.succ_le_of_lt ha)
      rw [Nat.mul_succ] at hm
      omega
    · exact ih (fun d hd => h d (by simp [hd])) w hw

/-- The byte order multiplies the sum by the base of the bytes. -/
theorem bigEndian_sum_modEq (hc : 0 < c) (bs : List Nat) :
    (bigEndian c bs).sum ≡ c * (littleEndian c bs).sum [MOD c * c - 1] := by
  induction bs using bigEndian.induct with
  | case1 => rfl
  | case2 a => rfl
  | case3 a b bs ih =>
    have hb : b ≡ c * c * b [MOD c * c - 1] := (mul_modEq_self (Nat.mul_pos hc hc)).symm
    show c * a + b + (bigEndian c bs).sum ≡ c * (a + c * b + (littleEndian c bs).sum) [MOD _]
    have hr : c * (a + c * b + (littleEndian c bs).sum) =
        c * a + c * c * b + c * (littleEndian c bs).sum := by ring
    rw [hr]
    exact (hb.add_left _).add ih

theorem dvd_bigEndian_sum_iff (hc : 0 < c) (bs : List Nat) :
    (c * c - 1) ∣ (bigEndian c bs).sum ↔ (c * c - 1) ∣ (littleEndian c bs).sum := by
  rw [Nat.ModEq.dvd_iff (bigEndian_sum_modEq hc bs) (Nat.dvd_refl _)]
  constructor
  · intro h
    have h : c * c - 1 ∣ c * c * (littleEndian c bs).sum := by
      rw [Nat.mul_assoc]
      exact Dvd.dvd.mul_left h c
    exact (Nat.ModEq.dvd_iff (mul_modEq_self (Nat.mul_pos hc hc)) (Nat.dvd_refl _)).mp h
  · intro h
    exact Dvd.dvd.mul_left h c

theorem bigEndian_sum_pos {b : Nat} (hc : 0 < c) (hb : b ∈ bs) (h : b ≠ 0) :
    (bigEndian c bs).sum ≠ 0 := by
  induction bs using bigEndian.induct with
  | case1 => cases hb
  | case2 a =>
    rw [List.mem_singleton.mp hb] at h
    simp [bigEndian, h, Nat.pos_iff_ne_zero.mp hc]
  | case3 a d bs ih =>
    simp only [bigEndian, List.sum_cons]
    simp only [List.mem_cons] at hb
    obtain rfl | rfl | hb := hb
    · have := Nat.mul_pos hc (Nat.pos_of_ne_zero h)
      omega
    · omega
    · have := ih hb
      omega

/-- Whether the sum of the digits is all ones does not depend on the order of the bytes. -/
theorem onesSum_bigEndian_iff {b : Nat} (hbs : ∀ b ∈ bs, b < c) (hb : b ∈ bs)
    (hne : b ≠ 0) :
    onesSum (c * c) (bigEndian c bs) = c * c - 1 ↔ (c * c - 1) ∣ (littleEndian c bs).sum := by
  have hc : 0 < c := Nat.zero_lt_of_lt (hbs b hb)
  rw [onesSum_eq_iff (Nat.mul_pos hc hc) (bigEndian_lt hbs) (bigEndian_sum_pos hc hb hne)]
  exact dvd_bigEndian_sum_iff hc bs

end ByteOrder
end TapiOS.Lib
