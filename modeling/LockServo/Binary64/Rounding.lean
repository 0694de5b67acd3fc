import LockServo.Binary64.Basic

/-!
# Rounding to the nearest double

A quotient of naturals, counted in smallest steps, goes to the nearest number with 53 significant
binary digits, a half to the even neighbour. The main statement is that the outcome has no more digits
than that, so it is finite exactly when it is small enough.
-/

namespace LockServo.Binary64

/-- `n / d` as a whole number, the nearest one, and the even one of two equally near. -/
def roundHalfEven (n d : Nat) : Nat :=
  let low := n / d
  let rest := n % d
  if 2 * rest < d then low
  else if d < 2 * rest then low + 1
  else low + low % 2

theorem le_roundHalfEven (n d : Nat) : n / d ≤ roundHalfEven n d := by
  unfold roundHalfEven
  grind

theorem roundHalfEven_le (n d : Nat) : roundHalfEven n d ≤ n / d + 1 := by
  unfold roundHalfEven
  grind

def nearestUnits (n d : Nat) : Nat :=
  let place := lastPlace (n / d)
  roundHalfEven n (d <<< place) <<< place

theorem shiftRight_lastPlace_lt (m : Nat) : m >>> lastPlace m < 1 <<< 53 := by
  rw [Nat.shiftRight_eq_div_pow, Nat.one_shiftLeft, Nat.div_lt_iff_lt_mul (Nat.two_pow_pos _), ← Nat.pow_add]
  exact Nat.lt_of_lt_of_le Nat.lt_log2_self
    (Nat.pow_le_pow_right (by decide) (by unfold lastPlace; omega))

theorem lastPlace_shiftLeft_le {q e : Nat} (h : q < 1 <<< 53) : lastPlace (q <<< e) ≤ e := by
  rw [Nat.one_shiftLeft] at h
  rw [Nat.shiftLeft_eq]
  unfold lastPlace
  by_cases hq : q = 0
  · simp [hq]
  · have hne : q * 2 ^ e ≠ 0 := Nat.mul_ne_zero hq (Nat.ne_of_gt (Nat.two_pow_pos e))
    have hlt : q * 2 ^ e < 2 ^ (53 + e) := by
      rw [Nat.pow_add]
      exact Nat.mul_lt_mul_of_pos_right h (Nat.two_pow_pos e)
    have := (Nat.log2_lt hne).mpr hlt
    omega

theorem dvd_nearestUnits (n d : Nat) : 1 <<< lastPlace (nearestUnits n d) ∣ nearestUnits n d := by
  simp only [nearestUnits]
  generalize he : lastPlace (n / d) = e
  have hlow : n / (d <<< e) < 1 <<< 53 := by
    rw [Nat.shiftLeft_eq, ← Nat.div_div_eq_div_mul, ← Nat.shiftRight_eq_div_pow, ← he]
    exact shiftRight_lastPlace_lt (n / d)
  have hle := roundHalfEven_le n (d <<< e)
  generalize roundHalfEven n (d <<< e) = q at hle
  rcases Nat.lt_or_ge q (1 <<< 53) with hq | hq
  · rw [Nat.one_shiftLeft]
    exact Nat.dvd_trans (Nat.pow_dvd_pow 2 (lastPlace_shiftLeft_le hq))
      (Nat.shiftLeft_eq q e ▸ Nat.dvd_mul_left _ _)
  · obtain rfl : q = 1 <<< 53 := by omega
    have hpow : 1 <<< 53 <<< e = 2 ^ (53 + e) := by
      rw [Nat.one_shiftLeft, Nat.shiftLeft_eq, Nat.pow_add]
    rw [hpow, Nat.one_shiftLeft]
    refine Nat.pow_dvd_pow 2 ?_
    simp only [lastPlace, Nat.log2_two_pow]
    omega

theorem representable_nearestUnits_iff (n d : Nat) :
    Representable (nearestUnits n d) ↔ nearestUnits n d < overflow :=
  ⟨fun h => h.1, fun h => ⟨h, dvd_nearestUnits n d⟩⟩

def nearest (negative : Bool) (n d : Nat) : Binary64 := ofUnits negative (nearestUnits n d)

def ofRat (q : Rat) : Binary64 := nearest (q.num < 0) (q.num.natAbs * one) q.den

end LockServo.Binary64
