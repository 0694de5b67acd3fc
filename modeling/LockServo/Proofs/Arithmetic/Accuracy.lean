import Mathlib.Algebra.Order.Field.Basic
import Mathlib.Tactic.FieldSimp
import Mathlib.Tactic.Positivity
import Mathlib.Tactic.Ring
import LockServo.Proofs.Arithmetic.Whole

/-!
# Accurate number systems

A number system is accurate when each operation gives its exact result to 53 digits wherever that does not
overflow; a sum of whole numbers need not be whole again. Round trips through several operations are then
facts about rationals, for exact arithmetic, for doubles, and for systems that never underflow or overflow.
-/

namespace LockServo

def smallestStep : ℚ := 1 / 2 ^ 1074

theorem smallestStep_nonneg : 0 ≤ smallestStep := by
  unfold smallestStep
  positivity

theorem smallestStep_le : smallestStep ≤ 1 / 2 ^ 53 :=
  one_div_pow_le_one_div_pow_of_le one_le_two (by decide)

/-- One rounding: off by at most half a unit in the 53rd digit, or by a step where the result is too small
for that, and never across zero. -/
structure Approximates (step exact result : ℚ) : Prop where
  error : |result - exact| ≤ |exact| / 2 ^ 53 + step
  nonneg : 0 ≤ exact → 0 ≤ result

/-- An error that is relative alone never crosses zero. -/
theorem Approximates.of_relative {exact result : ℚ} (h : |result - exact| ≤ |exact| / 2 ^ 53) :
    Approximates 0 exact result where
  error := h.trans_eq (add_zero _).symm
  nonneg above := by
    rw [abs_of_nonneg above] at h
    have := (abs_le.mp h).1
    linarith

theorem Approximates.near {step exact result bound : ℚ} (h : Approximates step exact result)
    (small : step ≤ 1 / 2 ^ 53) (one_le : 1 ≤ bound) (le : |exact| ≤ bound) :
    |result - exact| ≤ bound / 2 ^ 52 := by
  have digits : |exact| / 2 ^ 53 ≤ bound / 2 ^ 53 := by gcongr
  have enough : (1 : ℚ) / 2 ^ 53 ≤ bound / 2 ^ 53 := by gcongr
  calc |result - exact| ≤ |exact| / 2 ^ 53 + step := h.error
    _ ≤ bound / 2 ^ 53 + bound / 2 ^ 53 := add_le_add digits (small.trans enough)
    _ = bound / 2 ^ 52 := by ring

/-- One rounding to a double, which is right on whole numbers that have no more digits. -/
structure Rounded (exact result : ℚ) : Prop extends Approximates smallestStep exact result where
  whole : ∀ n : ℤ, exact = n → |n| ≤ 2 ^ 52 → result = n

theorem Rounded.refl (q : ℚ) : Rounded q q where
  error := by
    rw [sub_self, abs_zero]
    exact add_nonneg (by positivity) smallestStep_nonneg
  nonneg := id
  whole _ h _ := h

/-- The numbers that stand for a rational, and laws of the operations where these do not overflow. -/
class Accurate (ν : Type) [Arithmetic ν] where
  toRat? : ν → Option ℚ
  /-- The error of results below all digits; zero where nothing underflows. -/
  step : ℚ
  /-- The exact results at which nothing overflows. -/
  Fits : ℚ → Prop
  step_nonneg : 0 ≤ step
  step_le : step ≤ 1 / 2 ^ 53
  step_mul_le {x : ν} {a : ℚ} : toRat? x = some a → step * |a| ≤ 1 / 2 ^ 40
  fits_of_le {p q : ℚ} : |p| ≤ |q| → Fits q → Fits p
  fits_moderate : Fits (2 ^ 100)
  toRat?_ofInt {n : ℤ} : |n| ≤ 2 ^ 52 → toRat? (Arithmetic.ofInt n : ν) = some (n : ℚ)
  ofRat_approximates (q : ℚ) : Fits q →
    ∃ r, toRat? (Arithmetic.ofRat q : ν) = some r ∧ Approximates step q r
  add_approximates {x y : ν} {a b : ℚ} : toRat? x = some a → toRat? y = some b → Fits (a + b) →
    ∃ r, toRat? (x + y) = some r ∧ Approximates step (a + b) r
  sub_approximates {x y : ν} {a b : ℚ} : toRat? x = some a → toRat? y = some b → Fits (a - b) →
    ∃ r, toRat? (x - y) = some r ∧ Approximates step (a - b) r
  mul_approximates {x y : ν} {a b : ℚ} : toRat? x = some a → toRat? y = some b → Fits (a * b) →
    ∃ r, toRat? (x * y) = some r ∧ Approximates step (a * b) r
  div_approximates {x y : ν} {a b : ℚ} : toRat? x = some a → toRat? y = some b → b ≠ 0 → Fits (a / b) →
    ∃ r, toRat? (x / y) = some r ∧ Approximates step (a / b) r
  isNaN_eq {x : ν} {a : ℚ} : toRat? x = some a → Arithmetic.isNaN x = false
  less_eq {x y : ν} {a b : ℚ} : toRat? x = some a → toRat? y = some b →
    Arithmetic.less x y = decide (a < b)
  roundAway_eq {x : ν} {a : ℚ} : toRat? x = some a → |a| ≤ 2 ^ 51 →
    toRat? (Arithmetic.roundAway x) = some (nearestInt a : ℚ)
  truncate_eq {x : ν} {a : ℚ} : toRat? x = some a → ∀ low high : ℤ,
    Arithmetic.truncate low high x = max low (min high (wholePart a))

namespace Accurate

variable {ν : Type} [Arithmetic ν] [Accurate ν] {x y : ν} {a b : ℚ}

/-! ## Errors under a bound on the exact result -/

theorem exists_near {z : ν} {exact : ℚ} (bound : ℚ)
    (rounds : Fits ν exact → ∃ r, toRat? z = some r ∧ Approximates (step ν) exact r)
    (one_le : 1 ≤ bound) (safe : bound ≤ 2 ^ 100) (le : |exact| ≤ bound) :
    ∃ r, toRat? z = some r ∧ |r - exact| ≤ bound / 2 ^ 52 ∧ (0 ≤ exact → 0 ≤ r) := by
  have moderate : |exact| ≤ |(2 : ℚ) ^ 100| := (le.trans safe).trans (le_abs_self _)
  obtain ⟨r, hr, approximates⟩ := rounds (fits_of_le moderate fits_moderate)
  exact ⟨r, hr, approximates.near step_le one_le le, approximates.nonneg⟩

theorem near_ofRat {q : ℚ} (bound : ℚ) (one_le : 1 ≤ bound) (safe : bound ≤ 2 ^ 100) (le : |q| ≤ bound) :
    ∃ r, toRat? (Arithmetic.ofRat q : ν) = some r ∧ |r - q| ≤ bound / 2 ^ 52 ∧ (0 ≤ q → 0 ≤ r) :=
  exists_near bound (ofRat_approximates q) one_le safe le

theorem near_add (bound : ℚ) (hx : toRat? x = some a) (hy : toRat? y = some b)
    (one_le : 1 ≤ bound) (safe : bound ≤ 2 ^ 100) (le : |a + b| ≤ bound) :
    ∃ r, toRat? (x + y) = some r ∧ |r - (a + b)| ≤ bound / 2 ^ 52 ∧ (0 ≤ a + b → 0 ≤ r) :=
  exists_near bound (add_approximates hx hy) one_le safe le

theorem near_sub (bound : ℚ) (hx : toRat? x = some a) (hy : toRat? y = some b)
    (one_le : 1 ≤ bound) (safe : bound ≤ 2 ^ 100) (le : |a - b| ≤ bound) :
    ∃ r, toRat? (x - y) = some r ∧ |r - (a - b)| ≤ bound / 2 ^ 52 ∧ (0 ≤ a - b → 0 ≤ r) :=
  exists_near bound (sub_approximates hx hy) one_le safe le

theorem near_mul (bound : ℚ) (hx : toRat? x = some a) (hy : toRat? y = some b)
    (one_le : 1 ≤ bound) (safe : bound ≤ 2 ^ 100) (le : |a * b| ≤ bound) :
    ∃ r, toRat? (x * y) = some r ∧ |r - a * b| ≤ bound / 2 ^ 52 ∧ (0 ≤ a * b → 0 ≤ r) :=
  exists_near bound (mul_approximates hx hy) one_le safe le

theorem near_div (bound : ℚ) (hx : toRat? x = some a) (hy : toRat? y = some b) (nonzero : b ≠ 0)
    (one_le : 1 ≤ bound) (safe : bound ≤ 2 ^ 100) (le : |a / b| ≤ bound) :
    ∃ r, toRat? (x / y) = some r ∧ |r - a / b| ≤ bound / 2 ^ 52 ∧ (0 ≤ a / b → 0 ≤ r) :=
  exists_near bound (div_approximates hx hy nonzero) one_le safe le

/-! ## Whole numbers -/

theorem toRat?_ofNat {n : ℕ} (h : n ≤ 2 ^ 52) : toRat? (Arithmetic.ofNat n : ν) = some (n : ℚ) :=
  toRat?_ofInt (n := n) (by rw [Nat.abs_cast]; exact_mod_cast h)

theorem toRat?_roundAway {n : ℤ} (hx : toRat? x = some a) (near : |a - n| < 1 / 2)
    (small : |n| ≤ 2 ^ 50) : toRat? (Arithmetic.roundAway x) = some (n : ℚ) := by
  have bounded : |a| ≤ 2 ^ 51 := by
    have small' : |(n : ℚ)| ≤ 2 ^ 50 := by exact_mod_cast small
    have := abs_le.mp small'
    have := abs_lt.mp near
    rw [abs_le]
    constructor <;> linarith
  rw [roundAway_eq hx bounded, nearestInt_eq_of_near near]

/-! ## Systems without underflow and overflow -/

/-- A system where every operation has a relative error of at most half a unit in the 53rd digit, whatever
the size of its result. -/
@[reducible] def ofUnbounded (toRat? : ν → Option ℚ)
    (toRat?_ofInt : ∀ {n : ℤ}, |n| ≤ 2 ^ 52 → toRat? (Arithmetic.ofInt n) = some (n : ℚ))
    (ofRat : ∀ q : ℚ, ∃ r, toRat? (Arithmetic.ofRat q) = some r ∧ |r - q| ≤ |q| / 2 ^ 53)
    (add : ∀ {x y : ν} {a b : ℚ}, toRat? x = some a → toRat? y = some b →
      ∃ r, toRat? (x + y) = some r ∧ |r - (a + b)| ≤ |a + b| / 2 ^ 53)
    (sub : ∀ {x y : ν} {a b : ℚ}, toRat? x = some a → toRat? y = some b →
      ∃ r, toRat? (x - y) = some r ∧ |r - (a - b)| ≤ |a - b| / 2 ^ 53)
    (mul : ∀ {x y : ν} {a b : ℚ}, toRat? x = some a → toRat? y = some b →
      ∃ r, toRat? (x * y) = some r ∧ |r - a * b| ≤ |a * b| / 2 ^ 53)
    (div : ∀ {x y : ν} {a b : ℚ}, toRat? x = some a → toRat? y = some b → b ≠ 0 →
      ∃ r, toRat? (x / y) = some r ∧ |r - a / b| ≤ |a / b| / 2 ^ 53)
    (isNaN_eq : ∀ {x : ν} {a : ℚ}, toRat? x = some a → Arithmetic.isNaN x = false)
    (less_eq : ∀ {x y : ν} {a b : ℚ}, toRat? x = some a → toRat? y = some b →
      Arithmetic.less x y = decide (a < b))
    (roundAway_eq : ∀ {x : ν} {a : ℚ}, toRat? x = some a →
      toRat? (Arithmetic.roundAway x) = some (nearestInt a : ℚ))
    (truncate_eq : ∀ {x : ν} {a : ℚ}, toRat? x = some a → ∀ low high : ℤ,
      Arithmetic.truncate low high x = max low (min high (wholePart a))) : Accurate ν where
  toRat? := toRat?
  step := 0
  Fits _ := True
  step_nonneg := le_rfl
  step_le := by positivity
  step_mul_le _ := by
    rw [zero_mul]
    positivity
  fits_of_le _ _ := trivial
  fits_moderate := trivial
  toRat?_ofInt := toRat?_ofInt
  ofRat_approximates q _ := (ofRat q).imp fun _ h => h.imp id .of_relative
  add_approximates hx hy _ := (add hx hy).imp fun _ h => h.imp id .of_relative
  sub_approximates hx hy _ := (sub hx hy).imp fun _ h => h.imp id .of_relative
  mul_approximates hx hy _ := (mul hx hy).imp fun _ h => h.imp id .of_relative
  div_approximates hx hy nonzero _ := (div hx hy nonzero).imp fun _ h => h.imp id .of_relative
  isNaN_eq := isNaN_eq
  less_eq := less_eq
  roundAway_eq hx _ := roundAway_eq hx
  truncate_eq := truncate_eq

end Accurate

instance : Accurate ℚ :=
  have exact (q : ℚ) : |q - q| ≤ |q| / 2 ^ 53 := by
    rw [sub_self, abs_zero]
    positivity
  .ofUnbounded some (fun _ => rfl) (fun _ => ⟨_, rfl, exact _⟩)
    (by rintro x y a b ⟨⟩ ⟨⟩; exact ⟨_, rfl, exact _⟩)
    (by rintro x y a b ⟨⟩ ⟨⟩; exact ⟨_, rfl, exact _⟩)
    (by rintro x y a b ⟨⟩ ⟨⟩; exact ⟨_, rfl, exact _⟩)
    (by rintro x y a b ⟨⟩ ⟨⟩ _; exact ⟨_, rfl, exact _⟩)
    (fun _ => rfl)
    (by rintro x y a b ⟨⟩ ⟨⟩; rfl)
    (by rintro x a ⟨⟩; rfl)
    (by rintro x a ⟨⟩ low high; rfl)

end LockServo
