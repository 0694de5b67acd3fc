import LockServo.Proofs.Binary64.Nearest
import LockServo.Proofs.Binary64.Sign

/-!
# Doubles are accurate

The operations on doubles round their exact results once, so what is shown of every accurate number
system holds of doubles. Infinities and NaNs stand for no rational.
-/

namespace LockServo

namespace Binary64

/-! ## One rounding -/

theorem one_pos : 0 < one := by
  rw [one, Nat.one_shiftLeft]
  exact Nat.two_pow_pos 1074

theorem one_cast_pos : (0 : ℚ) < one := by
  exact_mod_cast one_pos

theorem smallestStep_eq : smallestStep = 1 / one := by
  rw [smallestStep, one, Nat.one_shiftLeft, Nat.cast_pow]
  rfl

/-- A magnitude up to which a rounding stays below the overflow, with an eighth to spare. -/
def reach : ℚ := 7 * 2 ^ 1021

theorem moderate_le_reach : |(2 : ℚ) ^ 100| ≤ reach := by
  rw [abs_of_pos (by positivity)]
  have powers : (2 : ℚ) ^ 100 ≤ 2 ^ 1021 := pow_le_pow_right₀ one_le_two (by decide)
  have room : (2 : ℚ) ^ 1021 ≤ 7 * 2 ^ 1021 := le_mul_of_one_le_left (by positivity) (by norm_num)
  exact powers.trans room

theorem overflow_cast : (overflow : ℚ) = 8 * (2 ^ 1021 * one) := by
  have powers : (2 : ℚ) ^ 2098 = 2 ^ 3 * (2 ^ 1021 * 2 ^ 1074) := by rw [← pow_add, ← pow_add]
  rw [one, overflow, Nat.one_shiftLeft, Nat.one_shiftLeft, Nat.cast_pow, Nat.cast_pow,
    Nat.cast_ofNat, powers, show (2 : ℚ) ^ 3 = 8 by norm_num]

theorem representable_mul_one {k : Nat} (hk : k < 1 <<< 53) : Representable (k * one) := by
  have shifted : k * one = k <<< 1074 := by rw [one, Nat.one_shiftLeft, Nat.shiftLeft_eq]
  rw [shifted]
  constructor
  · rw [Nat.shiftLeft_eq, overflow, Nat.one_shiftLeft, show 2098 = 1024 + 1074 from rfl, Nat.pow_add]
    rw [Nat.one_shiftLeft] at hk
    exact Nat.mul_lt_mul_of_pos_right
      (hk.trans_le (Nat.pow_le_pow_right Nat.two_pos (by decide))) (Nat.two_pow_pos 1074)
  · rw [Nat.one_shiftLeft, Nat.shiftLeft_eq]
    exact (Nat.pow_dvd_pow 2 (Nat.shiftLeft_eq k 1074 ▸ lastPlace_shiftLeft_le hk)).trans
      (Nat.dvd_mul_left _ k)

theorem nearestUnits_error (n : Nat) {d : Nat} (hd : 0 < d) :
    |(nearestUnits n d : ℚ) - n / d| ≤ n / d / 2 ^ 53 + 1 / 2 := by
  obtain ⟨above, below⟩ := nearestUnits_near n hd
  have positive : (0 : ℚ) < d := by exact_mod_cast hd
  have above' : 2 ^ 53 * ((nearestUnits n d : ℚ) * d) ≤ 2 ^ 53 * n + (n + d * 2 ^ 52) := by
    exact_mod_cast above
  have below' : 2 ^ 53 * (n : ℚ) ≤ 2 ^ 53 * ((nearestUnits n d : ℚ) * d) + (n + d * 2 ^ 52) := by
    exact_mod_cast below
  obtain ⟨q, hq⟩ : ∃ q : ℚ, (n : ℚ) = q * d := ⟨n / d, by field_simp⟩
  rw [hq, mul_div_cancel_right₀ q positive.ne', abs_le]
  rw [hq] at above' below'
  constructor
  · have := le_of_mul_le_mul_right
      (show (2 ^ 53 * q) * d ≤ (2 ^ 53 * nearestUnits n d + q + 2 ^ 52) * d by linarith) positive
    linarith
  · have := le_of_mul_le_mul_right
      (show (2 ^ 53 * nearestUnits n d : ℚ) * d ≤ (2 ^ 53 * q + q + 2 ^ 52) * d by linarith) positive
    linarith

theorem nearestUnits_lt_overflow {n d : Nat} (hd : 0 < d)
    (small : (n : ℚ) / d ≤ reach * one) : nearestUnits n d < overflow := by
  have error := (abs_le.mp (nearestUnits_error n hd)).2
  have below : (nearestUnits n d : ℚ) < overflow := by
    have room : (1 : ℚ) ≤ 2 ^ 1021 * one :=
      one_le_mul_of_one_le_of_one_le (one_le_pow₀ one_le_two) (by exact_mod_cast one_pos)
    rw [reach, mul_assoc] at small
    rw [overflow_cast]
    generalize (2 : ℚ) ^ 1021 * one = unit at room small ⊢
    linarith
  exact_mod_cast below

def withSign (negative : Bool) (q : ℚ) : ℚ := if negative then -q else q

theorem abs_withSign (negative : Bool) (q : ℚ) : |withSign negative q| = |q| := by
  cases negative with
  | false => rfl
  | true => exact abs_neg q

theorem withSign_sub (negative : Bool) (p q : ℚ) :
    withSign negative p - withSign negative q = withSign negative (p - q) := by
  cases negative with
  | false => rfl
  | true => exact (neg_sub_neg p q).trans (neg_sub p q).symm

theorem toRat_finite (negative : Bool) (units : Nat) (h : Representable units) :
    (finite negative units h).toRat = withSign negative (units / one) := by
  cases negative with
  | false => rfl
  | true =>
    change ((-(units : ℤ) : ℤ) : ℚ) / one = -(units / one)
    push_cast
    exact neg_div _ _

def toRat? (x : Binary64) : Option ℚ := if x.isFinite then some x.toRat else none

theorem toRat?_finite (negative : Bool) (units : Nat) (h : Representable units) :
    (finite negative units h).toRat? = some (withSign negative (units / one)) :=
  congrArg some (toRat_finite negative units h)

theorem exists_finite_of_toRat? {x : Binary64} {a : ℚ} (h : x.toRat? = some a) :
    ∃ (s : Bool) (m : Nat) (hm : Representable m), x = finite s m hm ∧ a = withSign s (m / one) := by
  cases x with
  | nan | infinite => cases h
  | finite s m hm =>
    rw [toRat?_finite] at h
    exact ⟨s, m, hm, rfl, (Option.some.inj h).symm⟩

/-- Every double is below the overflow, where the smallest step is out of sight. -/
theorem smallestStep_mul_le {x : Binary64} {a : ℚ} (hx : x.toRat? = some a) :
    smallestStep * |a| ≤ 1 / 2 ^ 40 := by
  obtain ⟨s, m, hm, -, rfl⟩ := exists_finite_of_toRat? hx
  have small : (m : ℚ) / one ≤ 8 * 2 ^ 1021 := by
    rw [div_le_iff₀ one_cast_pos, mul_assoc, ← overflow_cast]
    exact_mod_cast hm.1.le
  have nonneg : (0 : ℚ) ≤ m / one := div_nonneg m.cast_nonneg one_cast_pos.le
  have powers : (2 : ℚ) ^ 1074 = 2 ^ 1021 * 2 ^ 53 := by rw [← pow_add]
  have wide : (0 : ℚ) < 2 ^ 1021 := by positivity
  rw [abs_withSign, abs_of_nonneg nonneg]
  calc smallestStep * (m / one) ≤ smallestStep * (8 * 2 ^ 1021) :=
        mul_le_mul_of_nonneg_left small smallestStep_nonneg
    _ = 8 / 2 ^ 53 := by
        rw [smallestStep, powers]
        field_simp
    _ ≤ 1 / 2 ^ 40 := by norm_num

theorem nearestUnits_eq_of_whole {n d k : Nat} (hd : 0 < d) (h : (n : ℚ) / d / one = k)
    (hk : k ≤ 2 ^ 52) : (nearestUnits n d : ℚ) / one = k := by
  have exact : n = k * one * d := by
    have positive : (0 : ℚ) < d := by exact_mod_cast hd
    rw [div_eq_iff one_cast_pos.ne', div_eq_iff positive.ne'] at h
    exact_mod_cast h
  have representable : Representable (k * one) := representable_mul_one (by omega)
  rw [exact, nearestUnits_mul hd representable.2, Nat.cast_mul,
    mul_div_cancel_right₀ _ one_cast_pos.ne']

theorem nearest_rounded (negative : Bool) {n d : Nat} (hd : 0 < d)
    (small : |withSign negative (n / d / one)| ≤ reach) :
    ∃ r, (nearest negative n d).toRat? = some r ∧ Rounded (withSign negative (n / d / one)) r := by
  have magnitude : |withSign negative (n / d / one)| = (n : ℚ) / d / one :=
    (abs_withSign negative _).trans
      (abs_of_nonneg (div_nonneg (div_nonneg n.cast_nonneg d.cast_nonneg) one_cast_pos.le))
  have bounded := small
  rw [magnitude, div_le_iff₀ one_cast_pos] at bounded
  have representable := (representable_nearestUnits_iff n d).mpr (nearestUnits_lt_overflow hd bounded)
  have whole : ∀ k : ℤ, withSign negative (n / d / one) = k → |k| ≤ 2 ^ 52 →
      withSign negative (nearestUnits n d / one) = k := by
    intro k hk bound
    have count : (n : ℚ) / d / one = k.natAbs := by
      rw [← magnitude, hk, Nat.cast_natAbs, Int.cast_abs]
    have within : k.natAbs ≤ 2 ^ 52 := by
      rw [Int.abs_eq_natAbs] at bound
      exact_mod_cast bound
    rw [nearestUnits_eq_of_whole hd count within, ← count, hk]
  refine ⟨withSign negative (nearestUnits n d / one), ?_, ⟨?_, ?_⟩, whole⟩
  · rw [nearest, ofUnits_of_representable representable, toRat?_finite]
  · rw [withSign_sub, abs_withSign, magnitude, ← sub_div, abs_div, abs_of_pos one_cast_pos,
      smallestStep_eq]
    have error : |(nearestUnits n d : ℚ) - n / d| ≤ n / d / 2 ^ 53 + 1 := by
      linarith [nearestUnits_error n hd]
    calc |(nearestUnits n d : ℚ) - n / d| / one ≤ (n / d / 2 ^ 53 + 1) / one :=
          div_le_div_of_nonneg_right error one_cast_pos.le
      _ = n / d / one / 2 ^ 53 + 1 / one := by ring
  · intro above
    cases negative with
    | false => exact div_nonneg (Nat.cast_nonneg _) one_cast_pos.le
    | true =>
      have zero : withSign true ((n : ℚ) / d / one) = (0 : ℤ) := by
        have below : 0 ≤ -((n : ℚ) / d / one) := above
        have := abs_nonneg (withSign true ((n : ℚ) / d / one))
        rw [magnitude] at this
        rw [withSign, if_pos rfl, Int.cast_zero]
        linarith
      rw [whole 0 zero (by decide), Int.cast_zero]

/-! ## The operations -/

theorem signed_cast (negative : Bool) (units : Nat) :
    ((signed negative units : ℤ) : ℚ) = withSign negative units := by
  cases negative with
  | false => exact Int.cast_natCast units
  | true =>
    change ((-(units : ℤ) : ℤ) : ℚ) = -(units : ℚ)
    rw [Int.cast_neg, Int.cast_natCast]

theorem withSign_div (negative : Bool) (p q : ℚ) :
    withSign negative (p / q) = withSign negative p / q := by
  cases negative with
  | false => rfl
  | true => exact (neg_div q p).symm

theorem withSign_natAbs (steps : ℤ) :
    withSign (decide (steps < 0)) ((steps.natAbs : ℚ) / (1 : ℕ) / one) = steps / one := by
  rw [Nat.cast_one, div_one, withSign_div, Nat.cast_natAbs, Int.cast_abs, withSign]
  rcases lt_or_ge steps 0 with below | above
  · rw [if_pos (decide_eq_true below), abs_of_neg (by exact_mod_cast below), neg_neg]
  · rw [if_neg (by simpa using above), abs_of_nonneg (by exact_mod_cast above)]

theorem toRat?_zero (negative : Bool) : (Binary64.zero negative).toRat? = some 0 := by
  rw [Binary64.zero, toRat?_finite, withSign_div, Nat.cast_zero]
  cases negative <;> simp [withSign]

theorem ofSteps_rounded (zeroIsNegative : Bool) (steps : ℤ)
    (small : |(steps : ℚ) / one| ≤ reach) :
    ∃ r, (ofSteps zeroIsNegative steps).toRat? = some r ∧ Rounded (steps / one) r := by
  unfold ofSteps
  split
  · rename_i zero
    refine ⟨0, toRat?_zero zeroIsNegative, ?_⟩
    rw [zero, Int.cast_zero, zero_div]
    exact .refl 0
  · rw [← withSign_natAbs] at small ⊢
    exact nearest_rounded _ Nat.one_pos small

theorem withSign_num_den (q : ℚ) :
    withSign (decide (q.num < 0)) (((q.num.natAbs * one : ℕ) : ℚ) / q.den / one) = q := by
  have magnitude : (q.num.natAbs : ℚ) / q.den = |q| := by
    conv_rhs => rw [← Rat.num_div_den q]
    rw [abs_div, Nat.abs_cast, Nat.cast_natAbs, Int.cast_abs]
  rw [Nat.cast_mul, mul_div_right_comm, mul_div_cancel_right₀ _ one_cast_pos.ne', magnitude, withSign]
  rcases lt_or_ge q.num 0 with below | above
  · rw [if_pos (decide_eq_true below), abs_of_neg (Rat.num_neg.mp below), neg_neg]
  · rw [if_neg (by simpa using above), abs_of_nonneg (Rat.num_nonneg.mp above)]

theorem ofRat_rounded {q : ℚ} (small : |q| ≤ reach) :
    ∃ r, (ofRat q).toRat? = some r ∧ Rounded q r := by
  have rounded := nearest_rounded (decide (q.num < 0)) (n := q.num.natAbs * one) q.den_pos
  rw [withSign_num_den] at rounded
  exact rounded small

theorem toRat?_ofInt {n : ℤ} (h : |n| ≤ 2 ^ 52) : (ofRat n).toRat? = some (n : ℚ) := by
  have safe : |(n : ℚ)| ≤ reach := by
    refine le_trans ?_ ((le_abs_self _).trans moderate_le_reach)
    exact le_trans (by exact_mod_cast h) (pow_le_pow_right₀ one_le_two (show 52 ≤ 100 by decide))
  obtain ⟨r, hr, rounded⟩ := ofRat_rounded safe
  rw [hr, rounded.whole n rfl h]

variable {x y : Binary64} {a b : ℚ}

theorem toRat?_neg (hx : x.toRat? = some a) : x.neg.toRat? = some (-a) := by
  obtain ⟨s, m, hm, rfl, rfl⟩ := exists_finite_of_toRat? hx
  rw [neg, toRat?_finite]
  cases s <;> simp [withSign]

theorem add_eq_ofSteps (hx : x.toRat? = some a) (hy : y.toRat? = some b) :
    ∃ (zeroIsNegative : Bool) (steps : ℤ), x.add y = ofSteps zeroIsNegative steps ∧ a + b = steps / one := by
  obtain ⟨s, m, hm, rfl, rfl⟩ := exists_finite_of_toRat? hx
  obtain ⟨t, n, hn, rfl, rfl⟩ := exists_finite_of_toRat? hy
  refine ⟨s && t, signed s m + signed t n, rfl, ?_⟩
  rw [Int.cast_add, signed_cast, signed_cast, withSign_div, withSign_div, add_div]

theorem add_rounded (hx : x.toRat? = some a) (hy : y.toRat? = some b) (small : |a + b| ≤ reach) :
    ∃ r, (x.add y).toRat? = some r ∧ Rounded (a + b) r := by
  obtain ⟨zeroIsNegative, steps, sum, value⟩ := add_eq_ofSteps hx hy
  rw [value] at small ⊢
  rw [sum]
  exact ofSteps_rounded zeroIsNegative steps small

theorem sub_eq_add (x : Binary64) (hy : y.isFinite = true) : x.sub y = x.add y.neg := by
  cases y with
  | nan | infinite => cases hy
  | finite => rfl

theorem isFinite_of_toRat? (hx : x.toRat? = some a) : x.isFinite = true := by
  obtain ⟨s, m, hm, rfl, -⟩ := exists_finite_of_toRat? hx
  rfl

theorem sub_rounded (hx : x.toRat? = some a) (hy : y.toRat? = some b) (small : |a - b| ≤ reach) :
    ∃ r, (x.sub y).toRat? = some r ∧ Rounded (a - b) r := by
  rw [sub_eq_add_neg] at small ⊢
  rw [sub_eq_add x (isFinite_of_toRat? hy)]
  exact add_rounded hx (toRat?_neg hy) small

theorem mul_eq_nearest (hx : x.toRat? = some a) (hy : y.toRat? = some b) :
    ∃ (s : Bool) (n d : Nat), 0 < d ∧ x.mul y = nearest s n d ∧ a * b = withSign s (n / d / one) := by
  obtain ⟨s, m, hm, rfl, rfl⟩ := exists_finite_of_toRat? hx
  obtain ⟨t, n, hn, rfl, rfl⟩ := exists_finite_of_toRat? hy
  have product : (m / one : ℚ) * (n / one) = ((m * n : ℕ) : ℚ) / one / one := by
    rw [Nat.cast_mul]
    ring
  refine ⟨s ^^ t, m * n, one, one_pos, rfl, ?_⟩
  rw [← product]
  cases s <;> cases t <;> simp [withSign]

theorem mul_rounded (hx : x.toRat? = some a) (hy : y.toRat? = some b) (small : |a * b| ≤ reach) :
    ∃ r, (x.mul y).toRat? = some r ∧ Rounded (a * b) r := by
  obtain ⟨s, n, d, hd, product, value⟩ := mul_eq_nearest hx hy
  rw [product]
  rw [value] at small ⊢
  exact nearest_rounded _ hd small

theorem div_eq_nearest (hx : x.toRat? = some a) (hy : y.toRat? = some b) (nonzero : b ≠ 0) :
    ∃ (s : Bool) (n d : Nat), 0 < d ∧ x.div y = nearest s n d ∧ a / b = withSign s (n / d / one) := by
  obtain ⟨s, m, hm, rfl, rfl⟩ := exists_finite_of_toRat? hx
  obtain ⟨t, n, hn, rfl, rfl⟩ := exists_finite_of_toRat? hy
  have divisor : n ≠ 0 := by
    rintro rfl
    cases t <;> simp [withSign] at nonzero
  refine ⟨s ^^ t, m * one, n, Nat.pos_of_ne_zero divisor, ?_, ?_⟩
  · rw [div, if_neg divisor]
  · have quotient : (m / one : ℚ) / (n / one) = ((m * one : ℕ) : ℚ) / n / one := by
      have := one_cast_pos.ne'
      have : (n : ℚ) ≠ 0 := by exact_mod_cast divisor
      rw [Nat.cast_mul]
      field_simp
    rw [← quotient]
    cases s <;> cases t <;> simp [withSign, div_neg, neg_div]

theorem div_rounded (hx : x.toRat? = some a) (hy : y.toRat? = some b) (nonzero : b ≠ 0)
    (small : |a / b| ≤ reach) : ∃ r, (x.div y).toRat? = some r ∧ Rounded (a / b) r := by
  obtain ⟨s, n, d, hd, divided, value⟩ := div_eq_nearest hx hy nonzero
  rw [divided]
  rw [value] at small ⊢
  exact nearest_rounded _ hd small

/-! ## Comparison and whole numbers -/

theorem less_eq (hx : x.toRat? = some a) (hy : y.toRat? = some b) : less x y = decide (a < b) := by
  obtain ⟨s, m, hm, rfl, rfl⟩ := exists_finite_of_toRat? hx
  obtain ⟨t, n, hn, rfl, rfl⟩ := exists_finite_of_toRat? hy
  change decide (signed s m < signed t n) = _
  rw [decide_eq_decide, withSign_div, withSign_div, div_lt_div_iff_of_pos_right one_cast_pos,
    ← signed_cast, ← signed_cast, Int.cast_lt]

theorem nearestInt_withSign (negative : Bool) (q : ℚ) :
    (nearestInt (withSign negative q) : ℚ) = withSign negative (nearestInt q : ℚ) := by
  cases negative with
  | false => rfl
  | true =>
    change (nearestInt (-q) : ℚ) = -(nearestInt q : ℚ)
    rw [nearestInt_neg, Int.cast_neg]

theorem nearestInt_units (units : Nat) :
    nearestInt ((units : ℚ) / one) = ((2 * units + one) / (2 * one) : ℕ) := by
  have halves : (units : ℚ) / one + 1 / 2 = ((2 * units + one : ℕ) : ℚ) / (2 * one : ℕ) := by
    have := one_cast_pos.ne'
    push_cast
    field_simp
  rw [nearestInt_of_nonneg (div_nonneg units.cast_nonneg one_cast_pos.le), halves,
    Rat.floor_natCast_div_natCast, Int.natCast_div]

/-- From `2 ^ 52` on a double is a whole number already. -/
theorem representable_roundAway {m : Nat} (hm : Representable m) :
    Representable ((2 * m + one) / (2 * one) * one) := by
  have pos := one_pos
  rcases Nat.lt_or_ge ((2 * m + one) / (2 * one)) (1 <<< 53) with few | many
  · exact representable_mul_one few
  · have large : 2 ^ 52 * one ≤ m := by
      have scaled := (Nat.le_div_iff_mul_le (by omega)).mp many
      rw [Nat.one_shiftLeft] at scaled
      omega
    have place : 1074 ≤ lastPlace m := by
      refine le_of_eq_of_le ?_ (lastPlace_mono large)
      rw [one, Nat.one_shiftLeft, ← Nat.pow_add, lastPlace, Nat.log2_two_pow, Nat.add_sub_cancel_left]
    have whole : one ∣ m := by
      refine Nat.dvd_trans ?_ hm.2
      rw [one, Nat.one_shiftLeft, Nat.one_shiftLeft]
      exact Nat.pow_dvd_pow 2 place
    obtain ⟨k, rfl⟩ := whole
    have rounded : (2 * (one * k) + one) / (2 * one) = k := by
      have split : 2 * (one * k) + one = one + 2 * one * k := by ring
      rw [split, Nat.add_mul_div_left _ _ (by omega), Nat.div_eq_of_lt (by omega), Nat.zero_add]
    rw [rounded, Nat.mul_comm]
    exact hm

theorem roundAway_eq (hx : x.toRat? = some a) : (roundAway x).toRat? = some (nearestInt a : ℚ) := by
  obtain ⟨s, m, hm, rfl, rfl⟩ := exists_finite_of_toRat? hx
  rw [roundAway, ofUnits_of_representable (representable_roundAway hm), toRat?_finite,
    nearestInt_withSign, nearestInt_units, Nat.cast_mul, mul_div_cancel_right₀ _ one_cast_pos.ne',
    Int.cast_natCast]

theorem truncate_eq (hx : x.toRat? = some a) (low high : ℤ) :
    truncate low high x = max low (min high (wholePart a)) := by
  obtain ⟨s, m, hm, rfl, rfl⟩ := exists_finite_of_toRat? hx
  have magnitude : wholePart ((m : ℚ) / one) = ((m / one : ℕ) : ℤ) := by
    rw [wholePart_of_nonneg (div_nonneg m.cast_nonneg one_cast_pos.le),
      Rat.floor_natCast_div_natCast, Int.natCast_div]
  have part : wholePart (withSign s (m / one)) = signed s (m / one) := by
    cases s with
    | false => exact magnitude
    | true => exact (wholePart_neg _).trans (congrArg Neg.neg magnitude)
  rw [truncate, part]

theorem isNaN_eq (hx : x.toRat? = some a) : x.isNaN = false := by
  obtain ⟨s, m, hm, rfl, -⟩ := exists_finite_of_toRat? hx
  rfl

end Binary64

instance : Accurate Binary64 where
  toRat? := Binary64.toRat?
  step := smallestStep
  Fits q := |q| ≤ Binary64.reach
  step_nonneg := smallestStep_nonneg
  step_le := smallestStep_le
  step_mul_le := Binary64.smallestStep_mul_le
  fits_of_le le fits := le.trans fits
  fits_moderate := Binary64.moderate_le_reach
  toRat?_ofInt := Binary64.toRat?_ofInt
  ofRat_approximates _ small := (Binary64.ofRat_rounded small).imp fun _ h => h.imp id (·.toApproximates)
  add_approximates hx hy small :=
    (Binary64.add_rounded hx hy small).imp fun _ h => h.imp id (·.toApproximates)
  sub_approximates hx hy small :=
    (Binary64.sub_rounded hx hy small).imp fun _ h => h.imp id (·.toApproximates)
  mul_approximates hx hy small :=
    (Binary64.mul_rounded hx hy small).imp fun _ h => h.imp id (·.toApproximates)
  div_approximates hx hy nonzero small :=
    (Binary64.div_rounded hx hy nonzero small).imp fun _ h => h.imp id (·.toApproximates)
  isNaN_eq := Binary64.isNaN_eq
  less_eq := Binary64.less_eq
  roundAway_eq hx _ := Binary64.roundAway_eq hx
  truncate_eq := Binary64.truncate_eq

end LockServo
