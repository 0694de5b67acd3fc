import LockServo.Proofs.Arithmetic.Order
import LockServo.Proofs.Binary64.Overflow

/-!
# Doubles keep the order

Rounding to the nearest double never takes a larger quotient to a smaller one, also where the last
place changes and where the outcome overflows.
-/

namespace LockServo

namespace Binary64

/-! ## In steps -/

theorem roundHalfEven_mono {n n' d : Nat} (le : n ≤ n') :
    roundHalfEven n d ≤ roundHalfEven n' d := by
  have split := Nat.div_add_mod n d
  have split' := Nat.div_add_mod n' d
  have quotient := Nat.div_le_div_right (c := d) le
  rcases Nat.lt_or_ge (n / d) (n' / d) with less | notLess
  · exact (roundHalfEven_le n d).trans (Nat.succ_le_of_lt less |>.trans (le_roundHalfEven n' d))
  · have same : n / d = n' / d := Nat.le_antisymm quotient notLess
    rw [same] at split
    unfold roundHalfEven
    dsimp only
    rw [same]
    grind

theorem nearestUnits_le (n d : Nat) :
    nearestUnits n d ≤ 2 ^ 53 * 2 ^ lastPlace (n / d) := by
  have short := lt_of_lastPlace (n / d)
  unfold nearestUnits
  generalize lastPlace (n / d) = e at *
  have digits : n / (d <<< e) < 2 ^ 53 := by
    rw [Nat.shiftLeft_eq, ← Nat.div_div_eq_div_mul]
    exact (Nat.div_lt_iff_lt_mul (Nat.two_pow_pos e)).mpr short
  rw [Nat.shiftLeft_eq _ e]
  exact Nat.mul_le_mul_right _ ((roundHalfEven_le _ _).trans digits)

theorem le_nearestUnits {n d : Nat} (leading : 0 < lastPlace (n / d)) :
    2 ^ 52 * 2 ^ lastPlace (n / d) ≤ nearestUnits n d := by
  have long := le_of_lastPlace_pos leading
  unfold nearestUnits
  generalize lastPlace (n / d) = e at *
  have digits : 2 ^ 52 ≤ n / (d <<< e) := by
    rw [Nat.shiftLeft_eq, ← Nat.div_div_eq_div_mul]
    exact (Nat.le_div_iff_mul_le (Nat.two_pow_pos e)).mpr long
  rw [Nat.shiftLeft_eq _ e]
  exact Nat.mul_le_mul_right _ (digits.trans (le_roundHalfEven _ _))

theorem nearestUnits_le_of_le {n n' : Nat} (d : Nat) (le : n ≤ n') :
    nearestUnits n d ≤ nearestUnits n' d := by
  have place := lastPlace_mono (Nat.div_le_div_right (c := d) le)
  rcases Nat.eq_or_lt_of_le place with same | coarser
  · unfold nearestUnits
    rw [same, Nat.shiftLeft_eq (roundHalfEven n _), Nat.shiftLeft_eq (roundHalfEven n' _)]
    exact Nat.mul_le_mul_right _ (roundHalfEven_mono le)
  · have power : 2 ^ (lastPlace (n / d) + 1) ≤ 2 ^ lastPlace (n' / d) :=
      Nat.pow_le_pow_right two_pos coarser
    calc nearestUnits n d ≤ 2 ^ 53 * 2 ^ lastPlace (n / d) := nearestUnits_le n d
      _ = 2 ^ 52 * 2 ^ (lastPlace (n / d) + 1) := by ring
      _ ≤ 2 ^ 52 * 2 ^ lastPlace (n' / d) := Nat.mul_le_mul_left _ power
      _ ≤ nearestUnits n' d := le_nearestUnits (Nat.zero_lt_of_lt coarser)

theorem nearestUnits_mono {n d n' d' : Nat} (hd : 0 < d) (hd' : 0 < d') (le : n * d' ≤ n' * d) :
    nearestUnits n d ≤ nearestUnits n' d' := by
  rw [← nearestUnits_mul_mul n d hd', ← nearestUnits_mul_mul n' d' hd, Nat.mul_comm d' d]
  exact nearestUnits_le_of_le _ le

/-! ## On the line -/

def place? : Binary64 → Option Line
  | .nan _ => none
  | .infinite negative => some (if negative then ⊥ else ⊤)
  | .finite negative units _ => some (.finite (withSign negative (units / one)))

def unitsPlace (negative : Bool) (units : Nat) : Line :=
  if units < overflow then .finite (withSign negative (units / one)) else if negative then ⊥ else ⊤

theorem place_nearest (negative : Bool) (n d : Nat) :
    (nearest negative n d).place? = some (unitsPlace negative (nearestUnits n d)) := by
  have fits := representable_nearestUnits_iff n d
  unfold nearest ofUnits unitsPlace
  split
  · rename_i representable
    rw [if_pos (fits.mp representable)]
    rfl
  · rename_i overflows
    rw [if_neg fun small => overflows (fits.mpr small)]
    rfl

def roundPlace (q : ℚ) : Line :=
  unitsPlace (decide (q.num < 0)) (nearestUnits (q.num.natAbs * one) q.den)

theorem place_ofRat (q : ℚ) : (ofRat q).place? = some (roundPlace q) :=
  place_nearest _ _ _

theorem unitsPlace_zero (negative : Bool) : unitsPlace negative 0 = .finite 0 := by
  rw [unitsPlace, if_pos overflow_pos, Nat.cast_zero, zero_div]
  cases negative <;> simp [withSign]

theorem unitsPlace_false_mono : Monotone (unitsPlace false) := by
  intro u u' le
  unfold unitsPlace
  split
  · split
    · refine Line.finite_le_finite.mpr (div_le_div_of_nonneg_right ?_ one_cast_pos.le)
      exact_mod_cast le
    · exact le_top
  · rename_i overflows
    rw [if_neg fun small => overflows (le.trans_lt small)]

theorem unitsPlace_true_anti : Antitone (unitsPlace true) := by
  intro u u' le
  unfold unitsPlace
  split
  · rename_i small
    rw [if_pos (le.trans_lt small)]
    refine Line.finite_le_finite.mpr (neg_le_neg (div_le_div_of_nonneg_right ?_ one_cast_pos.le))
    exact_mod_cast le
  · exact bot_le

theorem quotient_nonneg (n d : Nat) : (0 : ℚ) ≤ n / d / one :=
  div_nonneg (div_nonneg n.cast_nonneg d.cast_nonneg) one_cast_pos.le

theorem unitsPlace_of_quotient_zero (negative : Bool) {n d : Nat} (hd : 0 < d)
    (zero : (n : ℚ) / d / one = 0) : unitsPlace negative (nearestUnits n d) = .finite 0 := by
  have positive : (d : ℚ) ≠ 0 := by exact_mod_cast hd.ne'
  rw [div_eq_zero_iff, or_iff_left one_cast_pos.ne', div_eq_zero_iff, or_iff_left positive,
    Nat.cast_eq_zero] at zero
  have none : nearestUnits (0 * d) d = 0 := nearestUnits_mul hd (Nat.dvd_zero _)
  rw [Nat.zero_mul] at none
  rw [zero, none, unitsPlace_zero]

theorem quotient_le_iff {n d n' d' : Nat} (hd : 0 < d) (hd' : 0 < d') :
    (n : ℚ) / d / one ≤ n' / d' / one ↔ n * d' ≤ n' * d := by
  have positive : (0 : ℚ) < d := by exact_mod_cast hd
  have positive' : (0 : ℚ) < d' := by exact_mod_cast hd'
  rw [div_le_div_iff_of_pos_right one_cast_pos, div_le_div_iff₀ positive positive']
  norm_cast

/-- Rounding keeps the order of quotients under their signs. -/
theorem unitsPlace_le {s t : Bool} {n d n' d' : Nat} (hd : 0 < d) (hd' : 0 < d')
    (le : withSign s (n / d / one) ≤ withSign t (n' / d' / one)) :
    unitsPlace s (nearestUnits n d) ≤ unitsPlace t (nearestUnits n' d') := by
  have nonneg := quotient_nonneg n d
  have nonneg' := quotient_nonneg n' d'
  cases s with
  | true =>
    cases t with
    | true =>
      exact unitsPlace_true_anti
        (nearestUnits_mono hd' hd ((quotient_le_iff hd' hd).mp (neg_le_neg_iff.mp le)))
    | false =>
      calc unitsPlace true _ ≤ unitsPlace true 0 := unitsPlace_true_anti (Nat.zero_le _)
        _ = unitsPlace false 0 := by rw [unitsPlace_zero, unitsPlace_zero]
        _ ≤ unitsPlace false _ := unitsPlace_false_mono (Nat.zero_le _)
  | false =>
    cases t with
    | true =>
      have crossed : (n : ℚ) / d / one ≤ -(n' / d' / one) := le
      rw [unitsPlace_of_quotient_zero false hd (by linarith),
        unitsPlace_of_quotient_zero true hd' (by linarith)]
    | false => exact unitsPlace_false_mono (nearestUnits_mono hd hd' ((quotient_le_iff hd hd').mp le))

theorem roundPlace_mono : Monotone roundPlace := by
  intro p q le
  refine unitsPlace_le p.den_pos q.den_pos ?_
  rwa [withSign_num_den, withSign_num_den]

/-- A rounded quotient lies where its exact value is rounded to, whatever stands for that value. -/
theorem unitsPlace_nearestUnits (negative : Bool) {n d : Nat} (hd : 0 < d) :
    unitsPlace negative (nearestUnits n d) = roundPlace (withSign negative (n / d / one)) := by
  have same := withSign_num_den (withSign negative ((n : ℚ) / d / one))
  exact le_antisymm (unitsPlace_le hd (Rat.den_pos _) same.ge) (unitsPlace_le (Rat.den_pos _) hd same.le)

theorem place_nearest_eq (negative : Bool) {n d : Nat} (hd : 0 < d) :
    (nearest negative n d).place? = some (roundPlace (withSign negative (n / d / one))) := by
  rw [place_nearest, unitsPlace_nearestUnits negative hd]

/-! ## The operations -/

variable {x y : Binary64} {a b : Line} {p q : ℚ}

theorem place_of_toRat? (hx : x.toRat? = some p) : x.place? = some (.finite p) := by
  obtain ⟨s, m, hm, rfl, rfl⟩ := exists_finite_of_toRat? hx
  rfl

theorem place_zero (negative : Bool) : (Binary64.zero negative).place? = some (.finite 0) :=
  place_of_toRat? (toRat?_zero negative)

theorem roundPlace_zero : roundPlace 0 = .finite 0 :=
  unitsPlace_of_quotient_zero _ (Rat.den_pos 0) (by simp)

/-- A number is an infinity or stands for a rational. -/
theorem place_cases (hx : x.place? = some a) :
    (∃ negative, x = .infinite negative ∧ a = if negative then ⊥ else ⊤) ∨
      ∃ p, x.toRat? = some p ∧ a = .finite p := by
  cases x with
  | nan => cases hx
  | infinite negative => exact .inl ⟨negative, rfl, (Option.some.inj hx).symm⟩
  | finite s m hm => exact .inr ⟨_, toRat?_finite s m hm, (Option.some.inj hx).symm⟩

theorem toRat?_of_place (hx : x.place? = some (.finite p)) : x.toRat? = some p := by
  obtain ⟨negative, -, ends⟩ | ⟨p', rational, same⟩ := place_cases hx
  · cases negative <;> cases ends
  · cases same
    exact rational

theorem place_extend {g : Binary64 → Binary64} {f : ℚ → Line}
    (infinite : ∀ negative, g (.infinite negative) = .infinite negative)
    (rational : ∀ {x : Binary64} {p : ℚ}, x.toRat? = some p → (g x).place? = some (f p))
    (hx : x.place? = some a) : (g x).place? = some (Line.extend f a) := by
  obtain ⟨negative, rfl, rfl⟩ | ⟨p, hp, rfl⟩ := place_cases hx
  · rw [infinite]
    cases negative <;> rfl
  · exact rational hp

theorem place_ofSteps (zeroIsNegative : Bool) (steps : ℤ) :
    (ofSteps zeroIsNegative steps).place? = some (roundPlace (steps / one)) := by
  unfold ofSteps
  split
  · rename_i zero
    rw [place_zero, zero, Int.cast_zero, zero_div, roundPlace_zero]
  · rw [place_nearest_eq _ Nat.one_pos, withSign_natAbs]

theorem place_add (hx : x.place? = some a) (hy : y.place? = some (.finite q)) :
    (x.add y).place? = some (Line.extend (fun p => roundPlace (p + q)) a) := by
  have rational := toRat?_of_place hy
  refine place_extend (g := (·.add y)) (fun s => infinite_add s (isFinite_of_toRat? rational)) ?_ hx
  intro x p hp
  obtain ⟨zeroIsNegative, steps, sum, value⟩ := add_eq_ofSteps hp rational
  rw [sum, value, place_ofSteps]

theorem place_sub (hx : x.place? = some a) (hy : y.place? = some (.finite q)) :
    (x.sub y).place? = some (Line.extend (fun p => roundPlace (p - q)) a) := by
  have rational := toRat?_of_place hy
  simp only [sub_eq_add_neg, sub_eq_add x (isFinite_of_toRat? rational)]
  exact place_add hx (place_of_toRat? (toRat?_neg rational))

theorem positive_of_toRat? (hy : y.toRat? = some q) (pos : 0 < q) : y.Positive := by
  refine ⟨isFinite_of_toRat? hy, ?_⟩
  rw [less_eq (toRat?_zero false) hy]
  exact decide_eq_true pos

theorem place_mul (hx : x.place? = some a) (hy : y.place? = some (.finite q)) (pos : 0 < q) :
    (x.mul y).place? = some (Line.extend (fun p => roundPlace (p * q)) a) := by
  have rational := toRat?_of_place hy
  refine place_extend (g := (·.mul y)) (fun s => infinite_mul s (positive_of_toRat? rational pos)) ?_ hx
  intro x p hp
  obtain ⟨s, n, d, hd, product, value⟩ := mul_eq_nearest hp rational
  rw [product, value, place_nearest_eq s hd]

theorem place_div (hx : x.place? = some a) (hy : y.place? = some (.finite q)) (pos : 0 < q) :
    (x.div y).place? = some (Line.extend (fun p => roundPlace (p / q)) a) := by
  have rational := toRat?_of_place hy
  refine place_extend (g := (·.div y)) (fun s => infinite_div s (positive_of_toRat? rational pos)) ?_ hx
  intro x p hp
  obtain ⟨s, n, d, hd, quotient, value⟩ := div_eq_nearest hp rational pos.ne'
  rw [quotient, value, place_nearest_eq s hd]

/-! ## Comparison and whole numbers -/

theorem signed_bounds (negative : Bool) {m bound : Nat} (small : m < bound) :
    -(bound : ℤ) < signed negative m ∧ signed negative m < bound := by
  cases negative <;> simp only [signed, Bool.false_eq_true, if_true, if_false] <;> omega

theorem place_less (hx : x.place? = some a) (hy : y.place? = some b) : less x y = decide (a < b) := by
  have pos := overflow_pos
  cases x with
  | nan => cases hx
  | infinite s =>
    obtain rfl := Option.some.inj hx
    cases y with
    | nan => cases hy
    | infinite t =>
      obtain rfl := Option.some.inj hy
      change decide (signed s overflow < signed t overflow) = _
      rw [decide_eq_decide]
      cases s <;> cases t <;> simp [signed, pos]
    | finite t n hn =>
      obtain rfl := Option.some.inj hy
      obtain ⟨low, high⟩ := signed_bounds t hn.1
      change decide (signed s overflow < signed t n) = _
      rw [decide_eq_decide]
      cases s with
      | true => exact iff_of_true low (WithBot.bot_lt_coe _)
      | false => exact iff_of_false high.not_gt not_top_lt
  | finite s m hm =>
    obtain rfl := Option.some.inj hx
    obtain ⟨low, high⟩ := signed_bounds s hm.1
    cases y with
    | nan => cases hy
    | infinite t =>
      obtain rfl := Option.some.inj hy
      change decide (signed s m < signed t overflow) = _
      rw [decide_eq_decide]
      cases t with
      | true => exact iff_of_false low.not_gt not_lt_bot
      | false => exact iff_of_true high (WithBot.coe_lt_coe.mpr (WithTop.coe_lt_top _))
    | finite t n hn =>
      obtain rfl := Option.some.inj hy
      rw [less_eq (toRat?_finite s m hm) (toRat?_finite t n hn)]
      exact decide_eq_decide.mpr Line.finite_lt_finite.symm

theorem place_roundAway (hx : x.place? = some a) :
    (roundAway x).place? = some (Line.extend (fun p => .finite (nearestInt p)) a) := by
  exact place_extend (fun _ => rfl) (fun hp => place_of_toRat? (roundAway_eq hp)) hx

theorem place_truncate (hx : x.place? = some a) (low high : ℤ) :
    truncate low high x = Line.between low high (fun p => max low (min high (wholePart p))) a := by
  obtain ⟨negative, rfl, rfl⟩ | ⟨p, hp, rfl⟩ := place_cases hx
  · cases negative <;> rfl
  · exact truncate_eq hp low high

theorem isFinite_iff_place : x.isFinite = true ↔ ∃ p, x.place? = some (.finite p) := by
  constructor
  · intro finite
    exact ⟨x.toRat, place_of_toRat? (if_pos finite)⟩
  · rintro ⟨p, hp⟩
    exact isFinite_of_toRat? (toRat?_of_place hp)

theorem isNaN_eq_place (x : Binary64) : x.isNaN = x.place?.isNone := by
  cases x <;> rfl

/-- A double is rounded to itself. -/
theorem roundPlace_of_onGrid (double : onGrid q = q) : roundPlace q = .finite q := by
  have place := place_ofRat q
  obtain ⟨negative, infinite, -⟩ | ⟨p, rational, same⟩ := place_cases place
  · have zero : q = 0 := by
      rw [← double, onGrid, infinite]
      rfl
    rw [zero, roundPlace_zero]
  · have value : p = q := by
      obtain ⟨s, m, hm, finite, rfl⟩ := exists_finite_of_toRat? rational
      rw [← double, onGrid, finite, toRat_finite]
    rw [same, value]

/-- A whole number of up to 53 digits is a double. -/
theorem onGrid_intCast {n : ℤ} (small : |n| ≤ 2 ^ 52) : onGrid n = n := by
  have exact : Accurate.toRat? (Arithmetic.ofInt n : Binary64) = some (n : ℚ) := Accurate.toRat?_ofInt small
  obtain ⟨s, m, hm, finite, value⟩ := exists_finite_of_toRat? exact
  change (ofRat n).toRat = n
  change ofRat n = _ at finite
  rw [finite, toRat_finite, value]

end Binary64

instance : MonotoneRounding Binary64 where
  place? := Binary64.place?
  round := Binary64.roundPlace
  round_mono := Binary64.roundPlace_mono
  round_double := Binary64.roundPlace_of_onGrid
  isNaN_eq := Binary64.isNaN_eq_place
  isFinite_iff := Binary64.isFinite_iff_place
  less_eq := Binary64.place_less
  ofRat_eq := Binary64.place_ofRat
  add_eq := Binary64.place_add
  sub_eq := Binary64.place_sub
  mul_eq := Binary64.place_mul
  div_eq := Binary64.place_div
  roundAway_eq := Binary64.place_roundAway
  truncate_eq := Binary64.place_truncate

end LockServo
