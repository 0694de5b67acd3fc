import LockServo.Arithmetic

/-!
# Signs of doubles

Unsigned doubles are the infinity and the finite numbers that carry no minus sign; sums of two of them,
and quotients and products by a positive finite number, are unsigned again, whatever overflows on the
way. None of them is a NaN or below zero.
-/

namespace LockServo.Binary64

/-! ## The operations by name -/

theorem add_def (x y : Binary64) : x + y = x.add y := rfl

theorem mul_def (x y : Binary64) : x * y = x.mul y := rfl

theorem div_def (x y : Binary64) : x / y = x.div y := rfl

theorem ofRat_def (q : Rat) : (Arithmetic.ofRat q : Binary64) = ofRat q := rfl

theorem isNaN_def (x : Binary64) : Arithmetic.isNaN x = x.isNaN := rfl

theorem less_def (x y : Binary64) : Arithmetic.less x y = less x y := rfl

theorem ofNat_zero : (Arithmetic.ofNat 0 : Binary64) = zero false := by decide +kernel

/-! ## Unsigned doubles -/

inductive Unsigned : Binary64 → Prop where
  | infinite : Unsigned (.infinite false)
  | finite (units : Nat) (h : Representable units) : Unsigned (.finite false units h)

def Positive (x : Binary64) : Prop := x.isFinite = true ∧ less (zero false) x = true

instance (x : Binary64) : Decidable x.Positive := inferInstanceAs (Decidable (_ ∧ _))

theorem exists_finite_of_positive {x : Binary64} (h : x.Positive) :
    ∃ (units : Nat) (hu : Representable units), 0 < units ∧ x = .finite false units hu := by
  obtain ⟨finite, above⟩ := h
  cases x with
  | nan s | infinite s => cases finite
  | finite s units hu =>
    refine ⟨units, hu, ?_⟩
    cases s <;> simp [less, position, zero, signed] at above ⊢ <;> omega

theorem unsigned_ofUnits (units : Nat) : (ofUnits false units).Unsigned := by
  unfold ofUnits
  split
  · exact .finite units _
  · exact .infinite

theorem unsigned_nearest (n d : Nat) : (nearest false n d).Unsigned :=
  unsigned_ofUnits _

theorem unsigned_ofRat {q : Rat} (h : 0 ≤ q) : (Arithmetic.ofRat q : Binary64).Unsigned := by
  have sign : decide (q.num < 0) = false := decide_eq_false (Int.not_lt.mpr (Rat.num_nonneg.mpr h))
  rw [ofRat_def, ofRat, sign]
  exact unsigned_nearest _ _

theorem unsigned_ofNat (n : Nat) : (Arithmetic.ofNat n : Binary64).Unsigned := by
  rw [Arithmetic.ofNat]
  exact unsigned_ofRat Rat.natCast_nonneg

namespace Unsigned

variable {x y : Binary64}

theorem not_isNaN (h : x.Unsigned) : x.isNaN = false := by
  cases h <;> rfl

theorem not_less_zero (h : x.Unsigned) (s : Bool) : less x (zero s) = false := by
  cases h <;> simp [less, position, zero, signed]

theorem add (hx : x.Unsigned) (hy : y.Unsigned) : (x + y).Unsigned := by
  rw [add_def]
  cases hx with
  | infinite => cases hy <;> exact .infinite
  | finite m =>
    cases hy with
    | infinite => exact .infinite
    | finite n =>
      change (ofSteps _ (signed false m + signed false n)).Unsigned
      have above : ¬ signed false m + signed false n < 0 := by
        simp [signed]
        omega
      unfold ofSteps
      split
      · exact .finite 0 _
      · rw [decide_eq_false above]
        exact unsigned_nearest _ _

theorem mul (hx : x.Unsigned) (hy : y.Positive) : (x * y).Unsigned := by
  rw [mul_def]
  obtain ⟨n, hn, above, rfl⟩ := exists_finite_of_positive hy
  cases hx with
  | infinite =>
    change (if n = 0 then Binary64.nan false else Binary64.infinite false).Unsigned
    rw [if_neg (by omega)]
    exact .infinite
  | finite m => exact unsigned_nearest _ _

theorem div (hx : x.Unsigned) (hy : y.Positive) : (x / y).Unsigned := by
  rw [div_def]
  obtain ⟨n, hn, above, rfl⟩ := exists_finite_of_positive hy
  cases hx with
  | infinite => exact .infinite
  | finite m =>
    change (if n = 0 then _ else nearest false (m * one) n).Unsigned
    rw [if_neg (by omega)]
    exact unsigned_nearest _ _

end Unsigned

theorem unsigned_of_less {x : Binary64} {s : Bool} (h : less (zero s) x = true) : x.Unsigned := by
  cases x with
  | nan t => cases h
  | infinite t =>
    cases t with
    | false => exact .infinite
    | true =>
      simp [less, position, zero, signed] at h
      omega
  | finite t units hu =>
    cases t with
    | false => exact .finite units hu
    | true =>
      simp [less, position, zero, signed] at h
      omega

theorem unsigned_clampNonNegative (x : Binary64) : (Arithmetic.clampNonNegative x).Unsigned := by
  unfold Arithmetic.clampNonNegative
  split
  · rename_i above
    rw [ofNat_zero, less_def] at above
    exact unsigned_of_less above
  · exact unsigned_ofNat 0

theorem Unsigned.not_refused {x : Binary64} (h : x.Unsigned) :
    (Arithmetic.isNaN x || Arithmetic.less x (Arithmetic.ofNat 0)) = false := by
  rw [isNaN_def, h.not_isNaN, ofNat_zero, less_def, h.not_less_zero, Bool.false_or]

/-- Of the numbers that carry a minus sign, only the zero is not below zero. -/
theorem not_refused_iff (x : Binary64) :
    (Arithmetic.isNaN x || Arithmetic.less x (Arithmetic.ofNat 0)) = false ↔
      x.Unsigned ∨ x = zero true := by
  constructor
  · intro accepted
    rw [ofNat_zero, isNaN_def, less_def, Bool.or_eq_false_iff] at accepted
    obtain ⟨number, notBelow⟩ := accepted
    cases x with
    | nan s => cases number
    | infinite s =>
      cases s with
      | false => exact .inl .infinite
      | true =>
        have := overflow_pos
        simp [less, position, zero, signed] at notBelow
        omega
    | finite s units h =>
      cases s with
      | false => exact .inl (.finite units h)
      | true =>
        have none : units = 0 := by
          simp [less, position, zero, signed] at notBelow
          omega
        subst none
        exact .inr rfl
  · rintro (unsigned | rfl)
    · exact unsigned.not_refused
    · decide +kernel

end LockServo.Binary64
