import Mathlib.Algebra.Order.Field.Basic
import Mathlib.Order.WithBot
import LockServo.Proofs.Arithmetic.Whole

/-!
# Number systems that keep the order

A number system rounds monotonically when each operation gives its exact result moved by one monotone
rounding, which leaves doubles where they are and may go to an infinity. Operations on the larger of two
numbers then never give the smaller result.
-/

namespace LockServo

open Arithmetic

/-! ## The line with its ends -/

abbrev Line := WithBot (WithTop ℚ)

namespace Line

def finite (q : ℚ) : Line := ((q : WithTop ℚ) : Line)

theorem finite_le_finite {p q : ℚ} : finite p ≤ finite q ↔ p ≤ q :=
  WithBot.coe_le_coe.trans WithTop.coe_le_coe

theorem finite_lt_finite {p q : ℚ} : finite p < finite q ↔ p < q :=
  WithBot.coe_lt_coe.trans WithTop.coe_lt_coe

/-- A function of rationals between two values for the ends. -/
def between {α : Type} (low high : α) (f : ℚ → α) : Line → α
  | ⊥ => low
  | (⊤ : WithTop ℚ) => high
  | ((q : ℚ) : WithTop ℚ) => f q

theorem between_mono {α : Type} [Preorder α] {low high : α} {f : ℚ → α} (ends : low ≤ high)
    (above : ∀ q, low ≤ f q) (below : ∀ q, f q ≤ high) (mono : Monotone f) :
    Monotone (between low high f) := by
  intro a b le
  match a, b with
  | ⊥, ⊥ => exact le_rfl
  | ⊥, (⊤ : WithTop ℚ) => exact ends
  | ⊥, ((q : ℚ) : WithTop ℚ) => exact above q
  | (⊤ : WithTop ℚ), ⊥ => exact absurd le (WithBot.not_coe_le_bot _)
  | (⊤ : WithTop ℚ), (⊤ : WithTop ℚ) => exact le_rfl
  | (⊤ : WithTop ℚ), ((q : ℚ) : WithTop ℚ) =>
    exact absurd (WithBot.coe_le_coe.mp le) (WithTop.not_top_le_coe q)
  | ((p : ℚ) : WithTop ℚ), ⊥ => exact absurd le (WithBot.not_coe_le_bot _)
  | ((p : ℚ) : WithTop ℚ), (⊤ : WithTop ℚ) => exact below p
  | ((p : ℚ) : WithTop ℚ), ((q : ℚ) : WithTop ℚ) => exact mono (finite_le_finite.mp le)

theorem between_held_le {low high : ℤ} (ends : low ≤ high) {a b : Line} (le : a ≤ b) :
    between low high (fun q => max low (min high (wholePart q))) a ≤
      between low high (fun q => max low (min high (wholePart q))) b :=
  between_mono ends (fun _ => le_max_left _ _) (fun _ => max_le ends (min_le_left _ _))
    (fun _ _ le => max_le_max le_rfl (min_le_min le_rfl (wholePart_mono le))) le

/-- An operation on the line, where an infinity stays what it is. -/
abbrev extend (f : ℚ → Line) : Line → Line := between ⊥ ⊤ f

theorem extend_mono {f : ℚ → Line} (mono : Monotone f) : Monotone (extend f) :=
  between_mono bot_le (fun _ => bot_le) (fun _ => le_top) mono

end Line

/-! ## Monotone rounding -/

/-- Numbers with a place on the line, and operations that round their exact result there. A NaN has no
place. Each right operand below is finite, and positive where the order depends on it. -/
class MonotoneRounding (ν : Type) [Arithmetic ν] where
  place? : ν → Option Line
  round : ℚ → Line
  round_mono : Monotone round
  round_double {q : ℚ} : onGrid q = q → round q = .finite q
  isNaN_eq (x : ν) : isNaN x = (place? x).isNone
  isFinite_iff {x : ν} : isFinite x = true ↔ ∃ q, place? x = some (.finite q)
  less_eq {x y : ν} {a b : Line} : place? x = some a → place? y = some b → less x y = decide (a < b)
  ofRat_eq (q : ℚ) : place? (ofRat q : ν) = some (round q)
  add_eq {x y : ν} {a : Line} {q : ℚ} : place? x = some a → place? y = some (.finite q) →
    place? (x + y) = some (Line.extend (fun p => round (p + q)) a)
  sub_eq {x y : ν} {a : Line} {q : ℚ} : place? x = some a → place? y = some (.finite q) →
    place? (x - y) = some (Line.extend (fun p => round (p - q)) a)
  mul_eq {x y : ν} {a : Line} {q : ℚ} : place? x = some a → place? y = some (.finite q) → 0 < q →
    place? (x * y) = some (Line.extend (fun p => round (p * q)) a)
  div_eq {x y : ν} {a : Line} {q : ℚ} : place? x = some a → place? y = some (.finite q) → 0 < q →
    place? (x / y) = some (Line.extend (fun p => round (p / q)) a)
  roundAway_eq {x : ν} {a : Line} : place? x = some a →
    place? (roundAway x) = some (Line.extend (fun p => .finite (nearestInt p)) a)
  truncate_eq {x : ν} {a : Line} : place? x = some a → ∀ low high : ℤ,
    truncate low high x = Line.between low high (fun p => max low (min high (wholePart p))) a

namespace Arithmetic

variable {ν : Type} [Arithmetic ν]

def AtMost (x y : ν) : Prop := isNaN x = false ∧ isNaN y = false ∧ less y x = false

def Positive (x : ν) : Prop := isFinite x = true ∧ less (ofNat 0) x = true

theorem AtMost.of_not_less {x y : ν} (number : isNaN x = false) (number' : isNaN y = false)
    (notAbove : ¬ less y x = true) : AtMost x y :=
  ⟨number, number', Bool.eq_false_iff.mpr notAbove⟩

variable [MonotoneRounding ν] {x y z : ν}

open MonotoneRounding

theorem isNaN_iff : isNaN x = false ↔ ∃ a, place? x = some a := by
  rw [isNaN_eq, Option.isNone_eq_false_iff, Option.isSome_iff_exists]

theorem atMost_iff : AtMost x y ↔ ∃ a b, place? x = some a ∧ place? y = some b ∧ a ≤ b := by
  constructor
  · rintro ⟨number, number', notAbove⟩
    obtain ⟨a, ha⟩ := isNaN_iff.mp number
    obtain ⟨b, hb⟩ := isNaN_iff.mp number'
    rw [less_eq hb ha] at notAbove
    exact ⟨a, b, ha, hb, not_lt.mp (of_decide_eq_false notAbove)⟩
  · rintro ⟨a, b, ha, hb, le⟩
    refine ⟨isNaN_iff.mpr ⟨a, ha⟩, isNaN_iff.mpr ⟨b, hb⟩, ?_⟩
    rw [less_eq hb ha]
    exact decide_eq_false le.not_gt

theorem ofRat_of_double {q : ℚ} (double : onGrid q = q) : place? (ofRat q : ν) = some (.finite q) := by
  rw [ofRat_eq, round_double double]

theorem place_ofNat_zero : place? (ofNat 0 : ν) = some (.finite 0) :=
  ofRat_of_double (by decide +kernel)

theorem positive_iff : Positive x ↔ ∃ q, place? x = some (.finite q) ∧ 0 < q := by
  constructor
  · rintro ⟨finite, above⟩
    obtain ⟨q, hq⟩ := isFinite_iff.mp finite
    rw [less_eq place_ofNat_zero hq] at above
    exact ⟨q, hq, Line.finite_lt_finite.mp (of_decide_eq_true above)⟩
  · rintro ⟨q, hq, pos⟩
    refine ⟨isFinite_iff.mpr ⟨q, hq⟩, ?_⟩
    rw [less_eq place_ofNat_zero hq]
    exact decide_eq_true (Line.finite_lt_finite.mpr pos)

theorem positive_ofRat {q : ℚ} (double : onGrid q = q) (pos : 0 < q) : Positive (ofRat q : ν) :=
  positive_iff.mpr ⟨q, ofRat_of_double double, pos⟩

theorem finite_ofRat {q : ℚ} (double : onGrid q = q) : isFinite (ofRat q : ν) = true :=
  isFinite_iff.mpr ⟨q, ofRat_of_double double⟩

theorem finite_ofNat_zero : isFinite (ofNat 0 : ν) = true :=
  isFinite_iff.mpr ⟨0, place_ofNat_zero⟩

theorem atMost_ofRat {p q : ℚ} (le : p ≤ q) : AtMost (ofRat p : ν) (ofRat q) :=
  atMost_iff.mpr ⟨_, _, ofRat_eq p, ofRat_eq q, round_mono le⟩

theorem truncate_bounds (number : isNaN x = false) {low high : ℤ} (ends : low ≤ high) :
    low ≤ truncate low high x ∧ truncate low high x ≤ high := by
  obtain ⟨a, ha⟩ := isNaN_iff.mp number
  rw [truncate_eq ha]
  exact ⟨Line.between_held_le ends (bot_le (a := a)), Line.between_held_le ends (le_top (a := a))⟩

/-! ## Operations on the larger of two numbers -/

namespace AtMost

theorem of_isNaN (number : isNaN x = false) : AtMost x x := by
  obtain ⟨a, ha⟩ := isNaN_iff.mp number
  exact atMost_iff.mpr ⟨a, a, ha, ha, le_rfl⟩

/-- An operation that extends one monotone function to the line keeps the order. -/
theorem of_extend (h : AtMost x y) {g : ν → ν} {f : ℚ → Line} (mono : Monotone f)
    (exact : ∀ {x : ν} {a : Line}, place? x = some a → place? (g x) = some (Line.extend f a)) :
    AtMost (g x) (g y) := by
  obtain ⟨a, b, ha, hb, le⟩ := atMost_iff.mp h
  exact atMost_iff.mpr ⟨_, _, exact ha, exact hb, Line.extend_mono mono le⟩

theorem add_right (h : AtMost x y) (finite : isFinite z = true) : AtMost (x + z) (y + z) := by
  obtain ⟨q, hq⟩ := isFinite_iff.mp finite
  exact of_extend (g := (· + z)) h (fun _ _ le => round_mono (add_le_add_left le q)) fun ha => add_eq ha hq

theorem sub_right (h : AtMost x y) (finite : isFinite z = true) : AtMost (x - z) (y - z) := by
  obtain ⟨q, hq⟩ := isFinite_iff.mp finite
  exact h.of_extend (fun _ _ le => round_mono (sub_le_sub_right le q)) fun ha => sub_eq ha hq

theorem mul_right (h : AtMost x y) (positive : Positive z) : AtMost (x * z) (y * z) := by
  obtain ⟨q, hq, pos⟩ := positive_iff.mp positive
  exact h.of_extend (fun _ _ le => round_mono (mul_le_mul_of_nonneg_right le pos.le))
    fun ha => mul_eq ha hq pos

theorem div_right (h : AtMost x y) (positive : Positive z) : AtMost (x / z) (y / z) := by
  obtain ⟨q, hq, pos⟩ := positive_iff.mp positive
  exact h.of_extend (fun _ _ le => round_mono (div_le_div_of_nonneg_right le pos.le))
    fun ha => div_eq ha hq pos

theorem roundAway (h : AtMost x y) : AtMost (roundAway x) (roundAway y) :=
  h.of_extend (fun _ _ le => Line.finite_le_finite.mpr (by exact_mod_cast nearestInt_mono le)) roundAway_eq

theorem truncate_le (h : AtMost x y) {low high : ℤ} (ends : low ≤ high) :
    truncate low high x ≤ truncate low high y := by
  obtain ⟨a, b, ha, hb, le⟩ := atMost_iff.mp h
  rw [truncate_eq ha, truncate_eq hb]
  exact Line.between_held_le ends le

theorem of_less (above : less x y = true) (number : isNaN x = false) (number' : isNaN y = false) :
    AtMost x y := by
  obtain ⟨a, ha⟩ := isNaN_iff.mp number
  obtain ⟨b, hb⟩ := isNaN_iff.mp number'
  rw [less_eq ha hb] at above
  exact atMost_iff.mpr ⟨a, b, ha, hb, (of_decide_eq_true above).le⟩

theorem less_of_less (h : AtMost y z) (above : less x y = true) (number : isNaN x = false) :
    less x z = true := by
  obtain ⟨a, ha⟩ := isNaN_iff.mp number
  obtain ⟨b, c, hb, hc, le⟩ := atMost_iff.mp h
  rw [less_eq ha hb] at above
  rw [less_eq ha hc]
  exact decide_eq_true ((of_decide_eq_true above).trans_le le)

theorem clampNonNegative (h : AtMost x y) : AtMost (clampNonNegative x) (clampNonNegative y) := by
  have zero : AtMost (ofNat 0 : ν) (ofNat 0) := atMost_ofRat le_rfl
  unfold Arithmetic.clampNonNegative
  split
  · rename_i above
    rw [if_pos (h.less_of_less above zero.1)]
    exact h
  · split
    · rename_i above
      exact of_less above zero.1 h.2.1
    · exact zero

end AtMost

end Arithmetic

end LockServo
