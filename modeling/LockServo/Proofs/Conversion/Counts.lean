import LockServo.Proofs.Conversion.Values
import LockServo.Proofs.Register.TwosComplement

/-!
# The counts of a field

A word holds, in a field of some width, the one count of the field's range that agrees with its low bits.
-/

namespace LockServo

/-! ## Whole numbers in words -/

theorem ofInt_toNat (n : UInt32) : UInt32.ofInt (n.toNat : ℤ) = n := by
  have := n.toNat_lt
  apply UInt32.toNat_inj.mp
  simp [UInt32.ofInt]
  omega

theorem toNat_ofInt {m : ℤ} (nonneg : 0 ≤ m) (small : m < 2 ^ 32) :
    ((UInt32.ofInt m).toNat : ℤ) = m := by
  simp [UInt32.ofInt]
  omega

theorem and_mask_eq_self {mask n : UInt32} {w : ℕ} (full : mask.toNat = 2 ^ w - 1)
    (small : n.toNat ≤ mask.toNat) : n &&& mask = n := by
  have positive := Nat.two_pow_pos w
  apply UInt32.toNat_inj.mp
  rw [UInt32.toNat_and, full, Nat.and_two_pow_sub_one_eq_mod]
  exact Nat.mod_eq_of_lt (by omega)

namespace Scale

variable {ν : Type} (s : Scale ν)

theorem toNat_mask : s.mask.toNat = 2 ^ s.bits - 1 := by
  have small := s.bits_le
  have positive := Nat.two_pow_pos s.bits
  have power : 2 ^ s.bits < 2 ^ 32 := Nat.pow_lt_pow_right one_lt_two (by omega)
  have bits : s.bits % 2 ^ 32 % 32 = s.bits := by omega
  have shifted : ((1 : UInt32) <<< UInt32.ofNat s.bits).toNat = 2 ^ s.bits := by
    rw [UInt32.toNat_shiftLeft, UInt32.toNat_ofNat', bits, Nat.shiftLeft_eq, UInt32.toNat_one, one_mul,
      Nat.mod_eq_of_lt power]
  rw [mask, UInt32.toNat_sub_of_le, shifted, UInt32.toNat_one]
  rw [UInt32.le_iff_toNat_le, shifted]
  exact positive

theorem toNat_and_mask (w : UInt32) : (w &&& s.mask).toNat = w.toNat % 2 ^ s.bits := by
  rw [UInt32.toNat_and, toNat_mask, Nat.and_two_pow_sub_one_eq_mod]

/-! ## The range -/

theorem span_eq : s.span = 2 ^ (if s.signed then s.bits - 1 else s.bits) := Nat.one_shiftLeft _

theorem span_pos : 0 < s.span := by
  rw [span_eq]
  exact Nat.two_pow_pos _

theorem span_le : s.span ≤ 2 ^ 31 := by
  have small := s.bits_le
  rw [span_eq]
  refine Nat.pow_le_pow_right two_pos ?_
  split <;> omega

theorem two_pow_bits : 2 ^ s.bits = if s.signed then 2 * s.span else s.span := by
  have pos := s.bits_pos
  cases signed : s.signed with
  | false => rw [span_eq, signed]; rfl
  | true =>
    rw [span_eq, signed, if_pos rfl, if_pos rfl, ← pow_succ']
    congr 1
    omega

theorem lowest_eq : s.lowest = if s.signed then -(s.span : ℤ) else 0 := by
  cases signed : s.signed <;> simp [lowest, span, signed]

theorem lowest_nonpos : s.lowest ≤ 0 := by
  rw [lowest_eq]
  split <;> omega

theorem highest_nonneg : 0 ≤ s.highest := by
  have pos := s.span_pos
  rw [highest]
  omega

theorem lowest_ge : -(2 ^ 31) ≤ s.lowest := by
  have wide := s.span_le
  rw [lowest_eq]
  split <;> omega

theorem highest_lt : s.highest < 2 ^ 31 := by
  have wide := s.span_le
  rw [highest]
  omega

/-! ## The count of a word -/

theorem count_of_unsigned (unsigned : s.signed = false) (w : UInt32) :
    s.count w = (w &&& s.mask).toNat := by
  rw [count, unsigned]
  rfl

theorem count_of_signed (signed : s.signed = true) (w : UInt32) :
    s.count w = Register.signExtend w s.bits := by
  have wide : s.bits ≤ 32 := s.bits_le.trans (by decide)
  rw [count, signed, if_pos rfl, Register.signExtend_eq_bmod s.bits_pos wide, toNat_and_mask,
    Int.natCast_mod, Int.emod_bmod, Register.signExtend_eq_bmod s.bits_pos wide]

/-- The range has one number of each remainder, and the low bits of the word say which. -/
theorem count_eq_iff {w : UInt32} {m : ℤ} :
    s.count w = m ↔ s.lowest ≤ m ∧ m ≤ s.highest ∧ ((2 ^ s.bits : ℕ) : ℤ) ∣ m - w.toNat := by
  have pos := s.span_pos
  have below : m ≤ s.highest ↔ m < s.span := by
    rw [highest]
    omega
  cases signed : s.signed with
  | false =>
    have bits : 2 ^ s.bits = s.span := by rw [two_pow_bits, signed]; rfl
    have counted : s.count w = (w.toNat : ℤ) % s.span := by
      rw [count_of_unsigned s signed, toNat_and_mask, bits]
      rfl
    rw [counted, Int.emod_eq_iff (by omega), Int.natAbs_natCast, below, bits, lowest_eq, signed]
    rfl
  | true =>
    have bits : 2 ^ s.bits = 2 * s.span := by rw [two_pow_bits, signed]; rfl
    have wide : s.bits ≤ 32 := s.bits_le.trans (by decide)
    have counted : s.count w = (w.toNat : ℤ).bmod (2 * s.span) := by
      rw [count_of_signed s signed, Register.signExtend_eq_bmod s.bits_pos wide, bits]
    rw [counted, Register.bmod_two_mul_eq_iff pos, below, bits, lowest_eq, signed]
    rfl

theorem count_bounds (w : UInt32) : s.lowest ≤ s.count w ∧ s.count w ≤ s.highest :=
  ⟨(s.count_eq_iff.mp rfl).1, (s.count_eq_iff.mp rfl).2.1⟩

theorem abs_count_le (w : UInt32) : |s.count w| ≤ s.span := by
  obtain ⟨low, high⟩ := s.count_bounds w
  rw [lowest_eq] at low
  rw [highest] at high
  rw [abs_le]
  split at low <;> omega

theorem toNat_ofInt_and_mask (m : ℤ) :
    ((UInt32.ofInt m &&& s.mask).toNat : ℤ) = m % (2 ^ s.bits : ℕ) := by
  have small : 2 ^ s.bits ∣ 2 ^ 32 := Nat.pow_dvd_pow 2 (s.bits_le.trans (by decide))
  have whole : ((UInt32.ofInt m).toNat : ℤ) = m % (2 ^ 32 : ℕ) := by
    simp [UInt32.ofInt]
    omega
  rw [toNat_and_mask, Int.natCast_mod, whole, Int.emod_emod_of_dvd _ (by exact_mod_cast small)]

/-- A number of the range is decoded from the bits that it is encoded in. -/
theorem count_ofInt_and_mask {m : ℤ} (low : s.lowest ≤ m) (high : m ≤ s.highest) :
    s.count (UInt32.ofInt m &&& s.mask) = m := by
  rw [count_eq_iff, toNat_ofInt_and_mask]
  exact ⟨low, high, Int.dvd_self_sub_emod⟩

theorem ofInt_count_and_mask (w : UInt32) : UInt32.ofInt (s.count w) &&& s.mask = w &&& s.mask := by
  have same : s.count w % (2 ^ s.bits : ℕ) = w.toNat % (2 ^ s.bits : ℕ) :=
    Int.emod_eq_emod_iff_emod_sub_eq_zero.mpr (Int.emod_eq_zero_of_dvd (s.count_eq_iff.mp rfl).2.2)
  apply UInt32.toNat_inj.mp
  have encoded := s.toNat_ofInt_and_mask (s.count w)
  rw [same, ← Int.natCast_mod, ← toNat_and_mask] at encoded
  exact_mod_cast encoded

theorem toNat_ofInt_and_mask_of_unsigned (unsigned : s.signed = false) {m : ℤ} (low : 0 ≤ m)
    (high : m ≤ s.highest) : ((UInt32.ofInt m &&& s.mask).toNat : ℤ) = m := by
  have bits : 2 ^ s.bits = s.span := by rw [two_pow_bits, unsigned]; rfl
  rw [highest] at high
  rw [toNat_ofInt_and_mask, bits, Int.emod_eq_of_lt low (by omega)]

theorem count_ne_zero {w : UInt32} (masked : w &&& s.mask = w) (nonzero : w ≠ 0) : s.count w ≠ 0 := by
  intro zero
  have encoded := s.ofInt_count_and_mask w
  rw [zero, masked] at encoded
  exact nonzero (encoded.symm.trans UInt32.zero_and)

/-- A field of any width holds the one number around zero that agrees with its low bits, whatever the bits
above them, and each number of a scale's range goes into the field and comes back. -/
theorem words_hold_twos_complement {width : ℕ} (pos : 1 ≤ width) (le : width ≤ 31) :
    (∀ (raw : UInt32) (c : ℤ), Register.signExtend raw width = c ↔
      -2 ^ (width - 1) ≤ c ∧ c ≤ 2 ^ (width - 1) - 1 ∧ c ≡ raw.toNat [ZMOD 2 ^ width]) ∧
    ∀ s : Scale ν, s.bits = width →
      (s.signed = true →
        s.lowest = -2 ^ (width - 1) ∧ s.highest = 2 ^ (width - 1) - 1 ∧
        (∀ c : ℤ, s.lowest ≤ c → c ≤ s.highest →
          Register.signExtend (UInt32.ofInt c &&& s.mask) width = c) ∧
        ∀ raw : UInt32, UInt32.ofInt (Register.signExtend raw width) &&& s.mask = raw &&& s.mask) ∧
      (s.signed = false →
        s.highest = 2 ^ width - 1 ∧
        ∀ c : ℤ, 0 ≤ c → c ≤ s.highest → ((UInt32.ofInt c &&& s.mask).toNat : ℤ) = c) := by
  refine ⟨fun raw c => Register.signExtend_eq_iff pos (le.trans (by decide)), ?_⟩
  rintro s rfl
  constructor
  · intro signed
    have span : (s.span : ℤ) = 2 ^ (s.bits - 1) := by rw [span_eq, signed]; rfl
    refine ⟨?_, ?_, fun c low high => ?_, fun raw => ?_⟩
    · rw [lowest_eq, signed, if_pos rfl, span]
    · rw [highest, span]
    · rw [← s.count_of_signed signed, s.count_ofInt_and_mask low high]
    · rw [← s.count_of_signed signed, s.ofInt_count_and_mask]
  · intro unsigned
    refine ⟨?_, fun c low high => s.toNat_ofInt_and_mask_of_unsigned unsigned low high⟩
    rw [highest, span_eq, unsigned]
    rfl

/-- One bit holds zero and minus one, and thirty-one bits hold the lowest of their numbers, under a word
full of other bits. -/
theorem words_hold_twos_complement_at_the_ends :
    let flag : Scale ℚ := { bits := 1, fullScale := 1, signed := true }
    let wide : Scale ℚ := { bits := 31, fullScale := 1, signed := true }
    let plain : Scale ℚ := { bits := 31, fullScale := 1, signed := false }
    Register.signExtend 0xABCD0001 1 = -1 ∧
      Register.signExtend (UInt32.ofInt (-1) &&& flag.mask) 1 = -1 ∧
      UInt32.ofInt (Register.signExtend 0xABCD0002 1) &&& flag.mask = 0 ∧
      Register.signExtend (UInt32.ofInt (-2 ^ 30) &&& wide.mask) 31 = -2 ^ 30 ∧
      ((UInt32.ofInt (2 ^ 31 - 1) &&& plain.mask).toNat : ℤ) = 2 ^ 31 - 1 := by
  intro flag wide plain
  obtain ⟨unique, scales⟩ := words_hold_twos_complement (ν := ℚ) (le_refl 1) (by decide)
  obtain ⟨-, scales'⟩ := words_hold_twos_complement (ν := ℚ) (by decide) (le_refl 31)
  obtain ⟨-, -, encoded, decoded⟩ := (scales flag rfl).1 rfl
  obtain ⟨-, -, encoded', -⟩ := (scales' wide rfl).1 rfl
  obtain ⟨-, encoded''⟩ := (scales' plain rfl).2 rfl
  exact ⟨(unique _ _).mpr (by decide), encoded _ (by decide) (by decide), (decoded _).trans (by decide),
    encoded' _ (by decide) (by decide), encoded'' _ (by decide) (by decide)⟩

end Scale

theorem Span.inputCode_and_mask {ν : Type} [Arithmetic ν] (v : ν) : inputCode v &&& 0xFFF = inputCode v := by
  refine and_mask_eq_self (w := 12) rfl ?_
  rw [toNat_inputCode]
  exact min_le_right _ _

end LockServo
