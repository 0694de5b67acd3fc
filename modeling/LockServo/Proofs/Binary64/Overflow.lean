import LockServo.Proofs.Binary64.Accuracy

/-!
# Overflow of doubles

A quotient of two finite numbers that is twice too large is infinite, and an infinity stays one under
positive factors and finite terms. No NaN comes of any of these.
-/

namespace LockServo.Binary64

variable {x y : Binary64} {a b : ℚ}

/-! ## No NaN -/

theorem isNaN_nearest (negative : Bool) (n d : Nat) : (nearest negative n d).isNaN = false := by
  unfold nearest ofUnits
  split <;> rfl

theorem isNaN_div (hx : x.isNaN = false) (hy : y.Positive) : (x / y).isNaN = false := by
  rw [div_def]
  obtain ⟨n, hn, above, rfl⟩ := exists_finite_of_positive hy
  cases x with
  | nan => cases hx
  | infinite => rfl
  | finite s m =>
    rw [div, if_neg above.ne']
    exact isNaN_nearest _ _ _

theorem isNaN_mul (hx : x.isNaN = false) (hy : y.Positive) : (x * y).isNaN = false := by
  rw [mul_def]
  obtain ⟨n, hn, above, rfl⟩ := exists_finite_of_positive hy
  cases x with
  | nan => cases hx
  | infinite =>
    rw [mul, if_neg above.ne']
    rfl
  | finite => exact isNaN_nearest _ _ _

theorem isNaN_add (hx : x.isNaN = false) (hy : y.isFinite = true) : (x + y).isNaN = false := by
  rw [add_def]
  cases y with
  | nan | infinite => cases hy
  | finite t n =>
    cases x with
    | nan => cases hx
    | infinite => rfl
    | finite s m =>
      change (ofSteps _ _).isNaN = false
      unfold ofSteps
      split
      · rfl
      · exact isNaN_nearest _ _ _

/-! ## Infinities -/

theorem infinite_mul (s : Bool) (hy : y.Positive) : infinite s * y = infinite s := by
  rw [mul_def]
  obtain ⟨n, hn, above, rfl⟩ := exists_finite_of_positive hy
  rw [mul, if_neg above.ne', Bool.xor_false]

theorem infinite_div (s : Bool) (hy : y.Positive) : infinite s / y = infinite s := by
  rw [div_def]
  obtain ⟨n, hn, above, rfl⟩ := exists_finite_of_positive hy
  rw [div, Bool.xor_false]

theorem infinite_add (s : Bool) (hy : y.isFinite = true) : infinite s + y = infinite s := by
  cases y with
  | nan | infinite => cases hy
  | finite => rfl

theorem nearest_eq_infinite (negative : Bool) {n d : Nat} (hd : 0 < d)
    (large : 2 * (overflow : ℚ) ≤ n / d) : nearest negative n d = infinite negative := by
  have error := (abs_le.mp (nearestUnits_error n hd)).1
  have one_le : (1 : ℚ) ≤ overflow := by exact_mod_cast overflow_pos
  have beyond : overflow ≤ nearestUnits n d := by
    have : (overflow : ℚ) ≤ nearestUnits n d := by linarith
    exact_mod_cast this
  have unrepresentable : ¬ Representable (nearestUnits n d) := fun fits => fits.1.not_ge beyond
  rw [nearest, ofUnits, dif_neg unrepresentable]

theorem div_eq_infinite (hx : x.toRat? = some a) (hy : y.toRat? = some b) (nonzero : b ≠ 0)
    (large : 2 ^ 1025 ≤ |a / b|) : x / y = infinite (decide (a / b < 0)) := by
  obtain ⟨s, n, d, hd, divided, value⟩ := div_eq_nearest hx hy nonzero
  have nonneg : (0 : ℚ) ≤ n / d / one :=
    div_nonneg (div_nonneg n.cast_nonneg d.cast_nonneg) one_cast_pos.le
  rw [value, abs_withSign, abs_of_nonneg nonneg] at large
  have positive : (0 : ℚ) < n / d / one := lt_of_lt_of_le (by positivity) large
  have beyond : 2 * (overflow : ℚ) ≤ n / d := by
    rw [show (1025 : ℕ) = 4 + 1021 from rfl, pow_add, le_div_iff₀ one_cast_pos] at large
    rw [overflow_cast]
    generalize (2 : ℚ) ^ 1021 = unit at large ⊢
    linarith
  have sign : decide (a / b < 0) = s := by
    rw [value]
    cases s with
    | false => exact decide_eq_false nonneg.not_gt
    | true => exact decide_eq_true (neg_lt_zero.mpr positive)
  rw [div_def, divided, nearest_eq_infinite s hd beyond, sign]

end LockServo.Binary64
