import Mathlib.Tactic.Linarith
import Mathlib.Tactic.Ring
import LockServo.Decimal.Shortest
import LockServo.Proofs.Binary64.Accuracy

/-!
# Shortest digits read back

A decimal closer to a double than a part in `2 ^ 54` is rounded to it. Seventeen digits are always that
close, so the search for the fewest digits finds some, and they stand for the double they were made
from.
-/

namespace LockServo.Binary64

/-! ## Rounding of a nearby quotient -/

theorem roundHalfEven_eq_of_near {n d t : Nat} (above : 2 * n < 2 * (t * d) + d)
    (below : 2 * (t * d) < 2 * n + d) : roundHalfEven n d = t := by
  have hd : 0 < d := by omega
  obtain ⟨low, high⟩ := roundHalfEven_near n hd
  rcases Nat.lt_trichotomy (roundHalfEven n d) t with less | equal | greater
  · have apart := Nat.mul_le_mul_right d (Nat.succ_le_of_lt less)
    rw [Nat.succ_mul] at apart
    omega
  · exact equal
  · have apart := Nat.mul_le_mul_right d (Nat.succ_le_of_lt greater)
    rw [Nat.succ_mul] at apart
    omega

/-- A double that a quotient of this last place nearly reaches fits the place. -/
theorem dvd_of_nearly_reached {m t e p : Nat} (ht : m = 2 ^ e * t) (small : m < 2 ^ 53 * 2 ^ e)
    (reached : 0 < p → 2 ^ 54 * (2 ^ 52 * 2 ^ p) < (2 ^ 54 + 1) * m) : 2 ^ p ∣ m := by
  rcases Nat.lt_or_ge e p with finer | coarser
  · exfalso
    obtain ⟨k, rfl⟩ := Nat.exists_eq_add_of_lt finer
    have unit : 0 < 2 ^ e := Nat.two_pow_pos e
    have factor : 1 ≤ 2 ^ k := Nat.two_pow_pos k
    have digits : t < 2 ^ 53 := by
      rw [ht, Nat.mul_comm] at small
      exact Nat.lt_of_mul_lt_mul_right small
    have scaled : (2 ^ 54 * 2 ^ 53 * 2 ^ k) * 2 ^ e < ((2 ^ 54 + 1) * t) * 2 ^ e := by
      have bound := reached (by omega)
      rw [ht] at bound
      calc (2 ^ 54 * 2 ^ 53 * 2 ^ k) * 2 ^ e = 2 ^ 54 * (2 ^ 52 * 2 ^ (e + k + 1)) := by ring
        _ < (2 ^ 54 + 1) * (2 ^ e * t) := bound
        _ = ((2 ^ 54 + 1) * t) * 2 ^ e := by ring
    have bound := Nat.lt_of_mul_lt_mul_right scaled
    omega
  · rw [ht]
    exact (Nat.pow_dvd_pow 2 coarser).mul_right t

/-- A double that nearly stays within the reach of a last place does. -/
theorem le_of_nearly_within {m t e p : Nat} (ht : m = 2 ^ e * t) (small : m < 2 ^ 53 * 2 ^ e)
    (large : 0 < e → 2 ^ 52 * 2 ^ e ≤ m) (within : (2 ^ 54 - 1) * m < 2 ^ 54 * (2 ^ 53 * 2 ^ p)) :
    m ≤ 2 ^ 53 * 2 ^ p := by
  by_contra beyond
  have order : p < e := by
    have powers : 2 ^ p < 2 ^ e := by omega
    exact (Nat.pow_lt_pow_iff_right (by decide)).mp powers
  obtain ⟨k, rfl⟩ := Nat.exists_eq_add_of_lt order
  have digits : 2 ^ 52 ≤ t := by
    have bound := large (by omega)
    rw [ht, Nat.mul_comm] at bound
    exact Nat.le_of_mul_le_mul_left bound (Nat.two_pow_pos _)
  have bound : (2 ^ 54 - 1) * (2 ^ k * t) < 2 ^ 54 * 2 ^ 52 := by
    have scaled : (2 ^ 54 - 1) * (2 ^ k * t) * (2 * 2 ^ p) < 2 ^ 54 * 2 ^ 52 * (2 * 2 ^ p) := by
      calc (2 ^ 54 - 1) * (2 ^ k * t) * (2 * 2 ^ p) = (2 ^ 54 - 1) * m := by
            rw [ht]
            ring
        _ < 2 ^ 54 * (2 ^ 53 * 2 ^ p) := within
        _ = 2 ^ 54 * 2 ^ 52 * (2 * 2 ^ p) := by ring
    exact Nat.lt_of_mul_lt_mul_right scaled
  have product : 2 ^ k * t ≤ 2 ^ 52 := by omega
  have exact : m ≤ 2 ^ 53 * 2 ^ p := by
    calc m = 2 ^ k * t * (2 * 2 ^ p) := by
          rw [ht]
          ring
      _ ≤ 2 ^ 52 * (2 * 2 ^ p) := Nat.mul_le_mul_right _ product
      _ = 2 ^ 53 * 2 ^ p := by ring
  exact beyond exact

/-- Half a unit in the last place of a double is more than its part in `2 ^ 54`, also just below a
power of two, where the doubles lie closer. -/
theorem nearestUnits_eq_of_near {n d m : Nat} (digits : 1 <<< lastPlace m ∣ m)
    (above : 2 ^ 54 * n < (2 ^ 54 + 1) * (m * d)) (below : (2 ^ 54 - 1) * (m * d) < 2 ^ 54 * n) :
    nearestUnits n d = m := by
  have hd : 0 < d := by
    rcases Nat.eq_zero_or_pos d with rfl | pos
    · omega
    · exact pos
  obtain ⟨t, ht⟩ := digits
  rw [Nat.one_shiftLeft] at ht
  have small := lt_of_lastPlace m
  have quotientSmall := (Nat.div_lt_iff_lt_mul hd).mp (lt_of_lastPlace (n / d))
  have quotientLarge (h : 0 < lastPlace (n / d)) :=
    (Nat.le_div_iff_mul_le hd).mp (le_of_lastPlace_pos h)
  have fits : 2 ^ lastPlace (n / d) ∣ m := by
    refine dvd_of_nearly_reached ht small fun pos => ?_
    refine Nat.lt_of_mul_lt_mul_right (a := d) ?_
    rw [Nat.mul_assoc, Nat.mul_assoc (2 ^ 54 + 1)]
    exact (Nat.mul_le_mul_left (2 ^ 54) (quotientLarge pos)).trans_lt above
  have reach : m ≤ 2 ^ 53 * 2 ^ lastPlace (n / d) := by
    refine le_of_nearly_within ht small le_of_lastPlace_pos ?_
    refine Nat.lt_of_mul_lt_mul_right (a := d) ?_
    rw [Nat.mul_assoc, Nat.mul_assoc (2 ^ 54)]
    exact below.trans ((Nat.mul_lt_mul_left (by decide)).mpr quotientSmall)
  simp only [nearestUnits]
  generalize lastPlace (n / d) = p at *
  obtain ⟨q, rfl⟩ := fits
  have product : q * (d * 2 ^ p) = 2 ^ p * q * d := by ring
  have half : 2 ^ p * q * d ≤ 2 ^ 53 * (d * 2 ^ p) := by
    calc 2 ^ p * q * d ≤ 2 ^ 53 * 2 ^ p * d := Nat.mul_le_mul_right d reach
      _ = 2 ^ 53 * (d * 2 ^ p) := by ring
  have rounded : roundHalfEven n (d * 2 ^ p) = q := by
    apply roundHalfEven_eq_of_near
    · rw [product]
      have pos : 0 < d * 2 ^ p := by positivity
      omega
    · rw [product]
      have pos : 0 < d * 2 ^ p := by positivity
      omega
  rw [Nat.shiftLeft_eq, Nat.shiftLeft_eq, rounded, Nat.mul_comm]

/-! ## Powers of ten in steps -/

/-- `numerator e / denominator e` steps make `10 ^ e`. -/
def numerator : Int → Nat
  | .ofNat k => 10 ^ k * one
  | .negSucc _ => one

def denominator : Int → Nat
  | .ofNat _ => 1
  | .negSucc k => 10 ^ (k + 1)

theorem numerator_pos (e : Int) : 0 < numerator e := by
  cases e with
  | ofNat k => exact Nat.mul_pos (Nat.pow_pos (by decide)) one_pos
  | negSucc k => exact one_pos

theorem denominator_pos (e : Int) : 0 < denominator e := by
  cases e with
  | ofNat k => exact Nat.one_pos
  | negSucc k => exact Nat.pow_pos (by decide)

theorem nearestDecimal_eq (digits : Nat) (e : Int) :
    nearestDecimal digits e = nearestUnits (digits * numerator e) (denominator e) := by
  cases e with
  | ofNat k => exact congrArg (nearestUnits · 1) (Nat.mul_assoc _ _ _)
  | negSucc k => rfl

theorem quotient_eq (units : Nat) (e : Int) :
    Decimal.quotient units e = (units * denominator e, numerator e) := by
  cases e with
  | ofNat k => simp [Decimal.quotient, numerator, denominator, Nat.mul_comm]
  | negSucc k => rfl

theorem numerator_mul_pow {e : Int} {i j : Nat} (h : e + j = i) :
    numerator e * 10 ^ j = one * 10 ^ i * denominator e := by
  cases e with
  | ofNat k =>
    obtain rfl : i = k + j := by
      have cast : (k : Int) + j = i := h
      omega
    simp only [numerator, denominator]
    ring
  | negSucc k =>
    obtain rfl : j = i + (k + 1) := by omega
    simp only [numerator, denominator]
    ring

theorem numerator_add (e : Int) (k : Nat) :
    numerator (e + k) * denominator e = 10 ^ k * numerator e * denominator (e + k) := by
  have lower : e + e.natAbs = (e + e.natAbs).toNat := by omega
  have upper : e + k + e.natAbs = ((e + e.natAbs).toNat + k : Nat) := by omega
  have low := numerator_mul_pow lower
  have high := numerator_mul_pow upper
  refine Nat.eq_of_mul_eq_mul_right (Nat.pow_pos (n := e.natAbs) (by decide : 0 < 10)) ?_
  calc numerator (e + k) * denominator e * 10 ^ e.natAbs =
        numerator (e + k) * 10 ^ e.natAbs * denominator e := by ring
    _ = 10 ^ k * (one * 10 ^ (e + e.natAbs).toNat * denominator e) * denominator (e + k) := by
        rw [high]
        ring
    _ = 10 ^ k * numerator e * denominator (e + k) * 10 ^ e.natAbs := by
        rw [← low]
        ring

/-- Zeros behind the digits count for the exponent. -/
theorem nearestDecimal_mul_pow (digits : Nat) (e : Int) (k : Nat) :
    nearestDecimal (digits * 10 ^ k) e = nearestDecimal digits (e + k) := by
  rw [nearestDecimal_eq, nearestDecimal_eq,
    ← nearestUnits_mul_mul (digits * 10 ^ k * numerator e) _ (denominator_pos (e + k)),
    ← nearestUnits_mul_mul (digits * numerator (e + k)) _ (denominator_pos e),
    Nat.mul_comm (denominator (e + k))]
  congr 1
  rw [Nat.mul_assoc digits (numerator _), numerator_add]
  ring

@[simp] theorem nearestDecimal_zero (e : Int) : nearestDecimal 0 e = 0 := by
  rw [nearestDecimal_eq, Nat.zero_mul]
  simpa using nearestUnits_mul (m := 0) (denominator_pos e) (Nat.dvd_zero _)

end LockServo.Binary64

namespace LockServo

/-! ## Counting digits -/

theorem decimalLength_pos (n : Nat) : 0 < decimalLength n := Nat.length_toDigits_pos

theorem lt_pow_decimalLength (n : Nat) : n < 10 ^ decimalLength n :=
  (Nat.length_toDigits_le_iff (by decide) (decimalLength_pos n)).mp (Nat.le_refl _)

theorem pow_le_of_pos {n : Nat} (h : 0 < n) : 10 ^ (decimalLength n - 1) ≤ n := by
  rcases Nat.eq_zero_or_pos (decimalLength n - 1) with single | several
  · rw [single]
    exact h
  · by_contra less
    have short := (Nat.length_toDigits_le_iff (by decide) several).mpr (Nat.lt_of_not_le less)
    change decimalLength n ≤ _ at short
    omega

theorem decimalLength_mul_pow {n : Nat} (h : 0 < n) (k : Nat) :
    decimalLength (n * 10 ^ k) = decimalLength n + k := by
  have length := decimalLength_pos n
  apply Nat.le_antisymm
  · refine (Nat.length_toDigits_le_iff (by decide) (by omega)).mpr ?_
    rw [Nat.pow_add]
    exact Nat.mul_lt_mul_of_pos_right (lt_pow_decimalLength n) (Nat.pow_pos (by decide))
  · have leading : 10 ^ (decimalLength n - 1 + k) ≤ n * 10 ^ k := by
      rw [Nat.pow_add]
      exact Nat.mul_le_mul_right _ (pow_le_of_pos h)
    have powers := leading.trans_lt (lt_pow_decimalLength (n * 10 ^ k))
    have exponents := (Nat.pow_lt_pow_iff_right (by decide)).mp powers
    omega

namespace Decimal

open Binary64

/-! ## The search -/

/-- Sixteen digits behind the leading one, however that was found, place the number above the grid's
`10 ^ 16`. -/
theorem pow_mul_numerator_le {units k : Nat} {e : Int} (scaled : 0 < units * 10 ^ k / one)
    (leading : e + (k + 16 : Nat) = (decimalLength (units * 10 ^ k / one) - 1 : Nat)) :
    10 ^ 16 * numerator e ≤ units * denominator e := by
  have power := numerator_mul_pow leading
  have digits : 10 ^ (decimalLength (units * 10 ^ k / one) - 1) * one ≤ units * 10 ^ k :=
    (Nat.mul_le_mul_right _ (pow_le_of_pos scaled)).trans (Nat.div_mul_le_self _ _)
  refine Nat.le_of_mul_le_mul_right (c := 10 ^ k) ?_ (Nat.pow_pos (by decide))
  calc 10 ^ 16 * numerator e * 10 ^ k = numerator e * 10 ^ (k + 16) := by ring
    _ = 10 ^ (decimalLength (units * 10 ^ k / one) - 1) * one * denominator e := by
        rw [power]
        ring
    _ ≤ units * 10 ^ k * denominator e := Nat.mul_le_mul_right _ digits
    _ = units * denominator e * 10 ^ k := by ring

theorem pow_mul_numerator_leadingExponent_le {units : Nat} (pos : 0 < units) :
    10 ^ 16 * numerator (leadingExponent units - 16) ≤
      units * denominator (leadingExponent units - 16) := by
  have scaled : 0 < units * Nat.pow 10 400 / one := by
    apply Nat.div_pos _ Binary64.one_pos
    have large : one ≤ Nat.pow 10 400 := by decide +kernel
    exact large.trans (Nat.le_mul_of_pos_left _ pos)
  have length := decimalLength_pos (units * Nat.pow 10 400 / one)
  refine pow_mul_numerator_le (k := 400) scaled ?_
  simp only [leadingExponent]
  generalize decimalLength _ = length at *
  omega

/-- A grid on which a double has more than `2 ^ 53` points below it holds digits for it. -/
theorem onGrid?_isSome (tie : Tie) {units : Nat} {e : Int} (digits : 1 <<< lastPlace units ∣ units)
    (fine : (2 ^ 53 + 1) * numerator e ≤ units * denominator e) :
    (onGrid? tie units e).isSome := by
  have split := Nat.div_add_mod (units * denominator e) (numerator e)
  have rest := Nat.mod_lt (units * denominator e) (numerator_pos e)
  have hits : nearestDecimal (units * denominator e / numerator e) e = units ∨
      nearestDecimal (units * denominator e / numerator e + 1) e = units := by
    rw [nearestDecimal_eq, nearestDecimal_eq, Nat.add_one_mul, Nat.mul_comm _ (numerator e)]
    rcases Nat.le_total (2 * (units * denominator e % numerator e)) (numerator e) with near | far
    · left
      apply nearestUnits_eq_of_near digits <;> omega
    · right
      apply nearestUnits_eq_of_near digits <;> omega
  unfold onGrid?
  rw [quotient_eq]
  rcases hits with low | high
  · simp only [low, beq_self_eq_true]
    grind
  · simp only [high, beq_self_eq_true]
    grind

theorem stripZeros_readsBack (fuel digits : Nat) (e : Int) :
    nearestDecimal (stripZeros fuel digits e).1 (stripZeros fuel digits e).2 =
      nearestDecimal digits e := by
  induction fuel generalizing digits e with
  | zero => rfl
  | succ fuel ih =>
    unfold stripZeros
    split
    · rename_i zero
      rw [ih]
      have shift := nearestDecimal_mul_pow (digits / 10) e 1
      rw [Nat.pow_one, Nat.div_mul_cancel (Nat.dvd_of_mod_eq_zero zero)] at shift
      exact shift.symm
    · rfl

theorem ofUnits_readsBack (tie : Tie) {units : Nat} (pos : 0 < units)
    (digits : 1 <<< lastPlace units ∣ units) :
    nearestDecimal (ofUnits tie units).1 (ofUnits tie units).2 = units := by
  have last : (onGrid? tie units (leadingExponent units - (16 : Nat))).isSome :=
    onGrid?_isSome tie digits
      ((Nat.mul_le_mul_right _ (by decide)).trans (pow_mul_numerator_leadingExponent_le pos))
  simp only [ofUnits]
  generalize found : List.findSome? _ (List.range 17) = hit
  cases hit with
  | none =>
    have missed := List.findSome?_eq_none_iff.mp found 16 (by decide)
    rw [Option.map_eq_none_iff] at missed
    rw [missed] at last
    contradiction
  | some d =>
    obtain ⟨count, -, here⟩ := List.exists_of_findSome?_eq_some found
    obtain ⟨n, grid, rfl⟩ := Option.map_eq_some_iff.mp here
    rw [Option.getD_some, stripZeros_readsBack]
    exact onGrid?_readsBack grid

/-! ## Reading -/

/-- Zeros behind the digits count for the exponent. -/
theorem toBinary64_mul_pow (negative : Bool) (digits : Nat) (e : Int) (k : Nat) :
    toBinary64 ⟨negative, digits * 10 ^ k, e⟩ = toBinary64 ⟨negative, digits, e + k⟩ := by
  rcases Nat.eq_zero_or_pos digits with rfl | pos
  · simp [toBinary64]
  · have magnitude : (⟨negative, digits * 10 ^ k, e⟩ : Decimal).magnitude =
        (⟨negative, digits, e + k⟩ : Decimal).magnitude := by
      simp only [Decimal.magnitude, decimalLength_mul_pow pos]
      omega
    have nonzero : digits * 10 ^ k ≠ 0 := (Nat.mul_pos pos (Nat.pow_pos (by decide))).ne'
    simp only [toBinary64, magnitude, nonzero, pos.ne', nearestDecimal_mul_pow]

theorem pow_mul_one_le {x : Decimal} {k : Nat} (pos : 0 < x.digits) (large : k < x.magnitude) :
    10 ^ k * (one * denominator x.exponent) ≤ x.digits * numerator x.exponent := by
  unfold magnitude at large
  have length := decimalLength_pos x.digits
  obtain ⟨i, hi⟩ := Int.eq_ofNat_of_zero_le
    (show 0 ≤ x.exponent + (decimalLength x.digits - 1 : Nat) - k by omega)
  have power := numerator_mul_pow
    (show x.exponent + (decimalLength x.digits - 1 : Nat) = (i + k : Nat) by omega)
  calc 10 ^ k * (one * denominator x.exponent) ≤ 10 ^ i * (10 ^ k * (one * denominator x.exponent)) :=
        Nat.le_mul_of_pos_left _ (Nat.pow_pos (by decide))
    _ = 10 ^ (decimalLength x.digits - 1) * numerator x.exponent := by
        rw [Nat.mul_comm _ (numerator _), power]
        ring
    _ ≤ x.digits * numerator x.exponent := Nat.mul_le_mul_right _ (pow_le_of_pos pos)

theorem pow_mul_digits_le {x : Decimal} {k : Nat} (small : x.magnitude < -k) :
    10 ^ k * (x.digits * numerator x.exponent) ≤ one * denominator x.exponent := by
  unfold magnitude at small
  obtain ⟨i, hi⟩ := Int.eq_ofNat_of_zero_le
    (show 0 ≤ -(decimalLength x.digits + x.exponent + k) by omega)
  have power := numerator_mul_pow
    (show x.exponent + (decimalLength x.digits + k + i : Nat) = (0 : Nat) by omega)
  calc 10 ^ k * (x.digits * numerator x.exponent) ≤
        10 ^ k * (10 ^ decimalLength x.digits * numerator x.exponent) :=
        Nat.mul_le_mul_left _ (Nat.mul_le_mul_right _ (lt_pow_decimalLength _).le)
    _ ≤ 10 ^ i * (10 ^ k * (10 ^ decimalLength x.digits * numerator x.exponent)) :=
        Nat.le_mul_of_pos_left _ (Nat.pow_pos (by decide))
    _ = numerator x.exponent * 10 ^ (decimalLength x.digits + k + i) := by ring
    _ = one * denominator x.exponent := by
        rw [power]
        ring

section

variable {x : Decimal} {units k : Nat} (pos : 0 < units)
  (reads : nearestDecimal x.digits x.exponent = units)

include pos reads

/-- What rounds to a step or more is a good part of a step itself. -/
theorem denominator_le : denominator x.exponent ≤ 4 * (x.digits * numerator x.exponent) := by
  have steps := Nat.le_mul_of_pos_left (denominator x.exponent) pos
  rw [nearestDecimal_eq] at reads
  obtain ⟨below, -⟩ := nearestUnits_near (x.digits * numerator x.exponent) (denominator_pos x.exponent)
  rw [reads] at below
  omega

theorem digits_pos : 0 < x.digits := by
  have steps := denominator_le pos reads
  have den := denominator_pos x.exponent
  rw [Nat.pos_iff_ne_zero]
  intro zero
  rw [zero, Nat.zero_mul] at steps
  omega

theorem magnitude_le (finite : units < overflow) (huge : 4 * overflow ≤ 10 ^ k * one) :
    x.magnitude ≤ k := by
  have nonzero := digits_pos pos reads
  have den := denominator_pos x.exponent
  have steps := Nat.le_mul_of_pos_left (denominator x.exponent) pos
  rw [nearestDecimal_eq] at reads
  obtain ⟨-, above⟩ := nearestUnits_near (x.digits * numerator x.exponent) den
  rw [reads] at above
  by_contra large
  have reach := pow_mul_one_le nonzero (Int.not_le.mp large)
  have limit : 4 * (units * denominator x.exponent) < 10 ^ k * (one * denominator x.exponent) := by
    rw [← Nat.mul_assoc, ← Nat.mul_assoc]
    exact Nat.mul_lt_mul_of_pos_right (by omega) den
  omega

theorem le_magnitude (tiny : 4 * one < 10 ^ k) : -k ≤ x.magnitude := by
  have close := Nat.mul_le_mul_left (10 ^ k) (denominator_le pos reads)
  by_contra small
  have reach := pow_mul_digits_le (Int.not_le.mp small)
  have limit := Nat.mul_lt_mul_of_pos_right tiny (denominator_pos x.exponent)
  rw [Nat.mul_left_comm] at close
  rw [Nat.mul_assoc] at limit
  omega

end

theorem toBinary64_eq_of_readsBack {x : Decimal} {units : Nat} (h : Representable units)
    (zero : units = 0 → x.digits = 0) (reads : nearestDecimal x.digits x.exponent = units) :
    x.toBinary64 = .finite x.negative units h := by
  rcases Nat.eq_zero_or_pos units with rfl | pos
  · simp [toBinary64, zero, Binary64.zero]
  · have huge : 4 * overflow ≤ 10 ^ 400 * one := by decide +kernel
    have tiny : 4 * one < 10 ^ 400 := by decide +kernel
    have above := magnitude_le pos reads h.1 huge
    have below := le_magnitude pos reads tiny
    rw [toBinary64, if_neg (digits_pos pos reads).ne', if_neg (by omega), if_neg (by omega), reads,
      ofUnits_of_representable h]

theorem ofBinary64?_finite {tie : Tie} {units : Nat} {found : Nat × Int} (negative : Bool) (pos : 0 < units)
    (representable : Representable units) (search : ofUnits tie units = found) :
    ofBinary64? tie (.finite negative units representable) = some ⟨negative, found.1, found.2⟩ := by
  rw [ofBinary64?, if_neg pos.ne', search]

/-- Every finite double has a shortest decimal, which stands for it. -/
theorem exists_shortest (tie : Tie) (negative : Bool) {units : Nat} (representable : Representable units) :
    ∃ d, ofBinary64? tie (.finite negative units representable) = some d ∧
      d.toBinary64 = .finite negative units representable ∧ (d.digits = 0 → d.exponent ≤ 0) := by
  rcases Nat.eq_zero_or_pos units with rfl | pos
  · refine ⟨⟨negative, 0, 0⟩, by rw [ofBinary64?, if_pos rfl], ?_, fun _ => Int.le_refl 0⟩
    exact toBinary64_eq_of_readsBack representable (fun _ => rfl) (nearestDecimal_zero 0)
  · obtain ⟨found, search, reads⟩ : ∃ found, ofUnits tie units = found ∧
        nearestDecimal found.1 found.2 = units :=
      ⟨_, rfl, ofUnits_readsBack tie pos representable.2⟩
    refine ⟨⟨negative, found.1, found.2⟩, ofBinary64?_finite negative pos representable search, ?_, ?_⟩
    · exact toBinary64_eq_of_readsBack representable (absurd · pos.ne') reads
    · intro zero
      exact absurd zero (digits_pos (x := ⟨negative, found.1, found.2⟩) pos reads).ne'

end Decimal

end LockServo
