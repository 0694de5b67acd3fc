import Mathlib.Tactic.Linarith
import Mathlib.Tactic.Positivity
import Mathlib.Tactic.Ring
import LockServo.Proofs.Arithmetic.Accuracy

/-!
# The error of one rounding to a double

A quotient of naturals and the double nearest to it differ by at most half a unit in the 53rd digit or
half of the smallest step. A quotient that is representable is not rounded at all.
-/

namespace LockServo.Binary64

/-! ## In steps -/

theorem roundHalfEven_near (n : Nat) {d : Nat} (hd : 0 < d) :
    2 * (roundHalfEven n d * d) ≤ 2 * n + d ∧ 2 * n ≤ 2 * (roundHalfEven n d * d) + d := by
  have split := Nat.div_add_mod n d
  have rest := Nat.mod_lt n hd
  rw [Nat.mul_comm] at split
  unfold roundHalfEven
  dsimp only
  split
  · omega
  · split
    · rw [Nat.add_one_mul (n / d) d]
      omega
    · rcases Nat.mod_two_eq_zero_or_one (n / d) with even | odd
      · rw [even, Nat.add_zero]
        omega
      · rw [odd, Nat.add_one_mul (n / d) d]
        omega

theorem roundHalfEven_mul (t : Nat) {d : Nat} (hd : 0 < d) : roundHalfEven (t * d) d = t := by
  unfold roundHalfEven
  rw [Nat.mul_mod_left, Nat.mul_div_cancel t hd]
  exact if_pos hd

theorem shiftLeft_pos {d : Nat} (hd : 0 < d) (e : Nat) : 0 < d <<< e := by
  rw [Nat.shiftLeft_eq]
  positivity

/-- The spacing of doubles around a quotient is one step or below its last digit. -/
theorem shift_lastPlace_le (n d : Nat) : d <<< lastPlace (n / d) * 2 ^ 52 ≤ n + d * 2 ^ 52 := by
  rw [Nat.shiftLeft_eq]
  rcases Nat.lt_or_ge (n / d).log2 52 with small | large
  · have zero : lastPlace (n / d) = 0 := by
      unfold lastPlace
      omega
    rw [zero]
    omega
  · have nonzero : n / d ≠ 0 := by
      intro zero
      rw [zero] at large
      simp at large
    have leading : 2 ^ (lastPlace (n / d) + 52) ≤ n / d := by
      have log : lastPlace (n / d) + 52 = (n / d).log2 := by
        unfold lastPlace
        omega
      rw [log]
      exact Nat.log2_self_le nonzero
    calc d * 2 ^ lastPlace (n / d) * 2 ^ 52 = d * 2 ^ (lastPlace (n / d) + 52) := by
          rw [Nat.pow_add, Nat.mul_assoc]
      _ ≤ d * (n / d) := Nat.mul_le_mul_left d leading
      _ ≤ n + d * 2 ^ 52 := (Nat.mul_div_le n d).trans (Nat.le_add_right _ _)

theorem nearestUnits_near (n : Nat) {d : Nat} (hd : 0 < d) :
    2 ^ 53 * (nearestUnits n d * d) ≤ 2 ^ 53 * n + (n + d * 2 ^ 52) ∧
      2 ^ 53 * n ≤ 2 ^ 53 * (nearestUnits n d * d) + (n + d * 2 ^ 52) := by
  obtain ⟨above, below⟩ := roundHalfEven_near n (shiftLeft_pos hd (lastPlace (n / d)))
  have spacing := shift_lastPlace_le n d
  have scaled : nearestUnits n d * d =
      roundHalfEven n (d <<< lastPlace (n / d)) * (d <<< lastPlace (n / d)) := by
    simp only [nearestUnits, Nat.shiftLeft_eq]
    ring
  rw [scaled]
  omega

theorem nearestUnits_mul {m d : Nat} (hd : 0 < d) (h : 1 <<< lastPlace m ∣ m) :
    nearestUnits (m * d) d = m := by
  obtain ⟨t, ht⟩ := h
  rw [Nat.one_shiftLeft] at ht
  have exact : m * d = t * (d <<< lastPlace m) := by
    rw [Nat.shiftLeft_eq]
    conv_lhs => rw [ht]
    ring
  rw [nearestUnits, Nat.mul_div_cancel m hd, exact, roundHalfEven_mul t (shiftLeft_pos hd _), Nat.shiftLeft_eq, Nat.mul_comm]
  exact ht.symm

/-! ## Common factors and leading digits -/

theorem roundHalfEven_mul_mul (n d : Nat) {c : Nat} (hc : 0 < c) :
    roundHalfEven (n * c) (d * c) = roundHalfEven n d := by
  have scale (a b : Nat) : a * c < b * c ↔ a < b := Nat.mul_lt_mul_right hc
  unfold roundHalfEven
  simp only [Nat.mul_div_mul_right _ _ hc, Nat.mul_mod_mul_right, ← Nat.mul_assoc, scale]

theorem nearestUnits_mul_mul (n d : Nat) {c : Nat} (hc : 0 < c) :
    nearestUnits (n * c) (d * c) = nearestUnits n d := by
  have place (e : Nat) : (d * c) <<< e = d <<< e * c := by
    simp only [Nat.shiftLeft_eq]
    ring
  simp only [nearestUnits, Nat.mul_div_mul_right _ _ hc, place, roundHalfEven_mul_mul _ _ hc]

theorem lt_of_lastPlace (m : Nat) : m < 2 ^ 53 * 2 ^ lastPlace m := by
  have short := shiftRight_lastPlace_lt m
  rwa [Nat.shiftRight_eq_div_pow, Nat.one_shiftLeft, Nat.div_lt_iff_lt_mul (Nat.two_pow_pos _)] at short

theorem le_of_lastPlace_pos {m : Nat} (h : 0 < lastPlace m) : 2 ^ 52 * 2 ^ lastPlace m ≤ m := by
  have log : 52 + lastPlace m = m.log2 := by
    unfold lastPlace at h ⊢
    omega
  have nonzero : m ≠ 0 := by
    rintro rfl
    simp [lastPlace] at h
  rw [← Nat.pow_add, log]
  exact Nat.log2_self_le nonzero

theorem lastPlace_mono {m m' : Nat} (le : m ≤ m') : lastPlace m ≤ lastPlace m' := by
  by_contra! coarser
  have power : 2 ^ (lastPlace m' + 1) ≤ 2 ^ lastPlace m := Nat.pow_le_pow_right two_pos coarser
  have long := le_of_lastPlace_pos (Nat.zero_lt_of_lt coarser)
  have short := lt_of_lastPlace m'
  rw [Nat.pow_succ] at power
  omega

end LockServo.Binary64
