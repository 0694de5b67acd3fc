import Mathlib.Data.Rat.Floor
import Mathlib.Tactic.Linarith
import LockServo.Arithmetic

/-!
# Rounding to whole numbers

The nearest whole number and the whole part of a rational. Both are odd functions, and above zero both
are floors.
-/

namespace LockServo

theorem nearestInt_of_nonneg {q : ℚ} (h : 0 ≤ q) : nearestInt q = ⌊q + 1 / 2⌋ :=
  if_neg h.not_gt

theorem nearestInt_neg (q : ℚ) : nearestInt (-q) = -nearestInt q := by
  rcases lt_trichotomy q 0 with below | rfl | above
  · rw [nearestInt_of_nonneg (by linarith), nearestInt, if_pos below, neg_neg]
    rfl
  · decide +kernel
  · rw [nearestInt_of_nonneg above.le, nearestInt, if_pos (by linarith), neg_neg]
    rfl

theorem nearestInt_eq_of_near {q : ℚ} {n : ℤ} (h : |q - n| < 1 / 2) : nearestInt q = n := by
  have upward : ∀ (p : ℚ) (m : ℤ), 0 ≤ p → |p - m| < 1 / 2 → nearestInt p = m := by
    intro p m nonneg near
    obtain ⟨low, high⟩ := abs_lt.mp near
    rw [nearestInt_of_nonneg nonneg, Int.floor_eq_iff]
    constructor <;> linarith
  rcases le_total 0 q with nonneg | nonpos
  · exact upward q n nonneg h
  · have mirrored : |-q - (-n : ℤ)| < 1 / 2 := by
      rw [Int.cast_neg, neg_sub_neg, abs_sub_comm]
      exact h
    rw [← neg_neg q, nearestInt_neg, upward (-q) (-n) (by linarith) mirrored, neg_neg]

theorem nearestInt_intCast (n : ℤ) : nearestInt n = n :=
  nearestInt_eq_of_near (by norm_num)

theorem abs_nearestInt_sub_le (q : ℚ) : |(nearestInt q : ℚ) - q| ≤ 1 / 2 := by
  have upward : ∀ p : ℚ, 0 ≤ p → |(nearestInt p : ℚ) - p| ≤ 1 / 2 := by
    intro p nonneg
    have low := Int.floor_le (p + 1 / 2)
    have high := Int.lt_floor_add_one (p + 1 / 2)
    rw [nearestInt_of_nonneg nonneg, abs_le]
    constructor <;> linarith
  rcases le_total 0 q with nonneg | nonpos
  · exact upward q nonneg
  · have mirrored := upward (-q) (by linarith)
    rw [nearestInt_neg, Int.cast_neg, neg_sub_neg, abs_sub_comm] at mirrored
    exact mirrored

theorem le_of_lt_nearestInt {q : ℚ} {m : ℤ} (h : m < nearestInt q) : (m : ℚ) + 1 / 2 ≤ q := by
  have near := (abs_le.mp (abs_nearestInt_sub_le q)).2
  have next : ((m + 1 : ℤ) : ℚ) ≤ nearestInt q := by exact_mod_cast h
  push_cast at next
  linarith

theorem le_of_nearestInt_lt {q : ℚ} {m : ℤ} (h : nearestInt q < m) : q ≤ m - 1 / 2 := by
  have near := (abs_le.mp (abs_nearestInt_sub_le q)).1
  have next : (nearestInt q : ℚ) ≤ ((m - 1 : ℤ) : ℚ) := by exact_mod_cast Int.le_sub_one_of_lt h
  push_cast at next
  linarith

theorem nearestInt_nonneg {q : ℚ} (h : 0 ≤ q) : 0 ≤ nearestInt q := by
  rw [nearestInt_of_nonneg h]
  exact Int.floor_nonneg.mpr (by linarith)

theorem nearestInt_mono {p q : ℚ} (le : p ≤ q) : nearestInt p ≤ nearestInt q := by
  by_contra! crossed
  have near := (abs_le.mp (abs_nearestInt_sub_le p)).2
  have below := le_of_nearestInt_lt crossed
  have same : p = q := by linarith
  rw [same] at crossed
  exact crossed.false

theorem wholePart_of_nonneg {q : ℚ} (h : 0 ≤ q) : wholePart q = ⌊q⌋ :=
  if_neg h.not_gt

theorem wholePart_neg (q : ℚ) : wholePart (-q) = -wholePart q := by
  rcases lt_trichotomy q 0 with below | rfl | above
  · rw [wholePart_of_nonneg (by linarith), wholePart, if_pos below, neg_neg]
    rfl
  · decide
  · rw [wholePart_of_nonneg above.le, wholePart, if_pos (by linarith), neg_neg]
    rfl

theorem wholePart_intCast (n : ℤ) : wholePart n = n := by
  rcases le_total 0 n with nonneg | nonpos
  · rw [wholePart_of_nonneg (by exact_mod_cast nonneg), Int.floor_intCast]
  · have mirrored : wholePart (-n : ℤ) = -n := by
      rw [wholePart_of_nonneg (by exact_mod_cast Int.neg_nonneg.mpr nonpos), Int.floor_intCast]
    rw [← neg_neg (n : ℚ), wholePart_neg, ← Int.cast_neg, mirrored, neg_neg]

theorem wholePart_nonneg {q : ℚ} (h : 0 ≤ q) : 0 ≤ wholePart q := by
  rw [wholePart_of_nonneg h]
  exact Int.floor_nonneg.mpr h

theorem wholePart_mono {p q : ℚ} (le : p ≤ q) : wholePart p ≤ wholePart q := by
  have upward : ∀ p q : ℚ, 0 ≤ p → p ≤ q → wholePart p ≤ wholePart q := by
    intro p q nonneg le
    rw [wholePart_of_nonneg nonneg, wholePart_of_nonneg (nonneg.trans le)]
    exact Int.floor_mono le
  rcases le_total 0 p with p_nonneg | p_nonpos
  · exact upward p q p_nonneg le
  · have p_below := wholePart_nonneg (neg_nonneg.mpr p_nonpos)
    rcases le_total 0 q with q_nonneg | q_nonpos
    · have q_above := wholePart_nonneg q_nonneg
      rw [wholePart_neg] at p_below
      omega
    · have mirrored := upward (-q) (-p) (neg_nonneg.mpr q_nonpos) (neg_le_neg le)
      rw [wholePart_neg, wholePart_neg] at mirrored
      omega

end LockServo
