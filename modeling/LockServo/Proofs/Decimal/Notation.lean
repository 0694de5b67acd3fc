import Mathlib.Tactic.IntervalCases
import LockServo.Decimal.Text
import LockServo.Proofs.Decimal.Shortest

/-!
# Positional notation

Positional text has a whole part and a fraction, both runs of digits, and the digits of both together
over the place of the last one are the number again.
-/

namespace LockServo

theorem isDigit_of_mem_toDigits {n : Nat} : ∀ c ∈ Nat.toDigits 10 n, c.isDigit = true :=
  fun _ member => Nat.isDigit_of_mem_toDigits (by decide) (by decide) member

theorem isDigit_of_mem_zeros {n : Nat} : ∀ c ∈ List.replicate n '0', c.isDigit = true := by
  intro c member
  rw [(List.mem_replicate.mp member).2]
  rfl

theorem head?_toDigits {n : Nat} (pos : 0 < n) : (Nat.toDigits 10 n).head? ≠ some '0' := by
  induction n using Nat.strongRecOn with
  | ind n ih =>
    rw [Nat.toDigits_eq_if (by decide)]
    split
    · rename_i single
      revert pos
      interval_cases n <;> decide
    · rw [List.head?_append_of_ne_nil _ Nat.toDigits_ne_nil]
      exact ih (n / 10) (by omega) (by omega)

namespace Decimal

structure Layout (x : Decimal) (whole fraction : List Char) : Prop where
  text : x.fractional.toList = (sign x.negative).toList ++ whole ++ '.' :: fraction
  whole_isDigit : ∀ c ∈ whole, c.isDigit = true
  fraction_isDigit : ∀ c ∈ fraction, c.isDigit = true
  whole_ne_nil : whole ≠ []
  fraction_ne_nil : fraction ≠ []
  /-- Only a zero by itself starts with a zero. -/
  leading : ∀ c rest, whole ≠ '0' :: c :: rest
  value : toBinary64 ⟨x.negative, Nat.ofDigitChars 10 (whole ++ fraction) 0, -fraction.length⟩ =
    x.toBinary64

variable {x : Decimal}

theorem layout_of_whole (whole : 0 ≤ x.exponent) (zero : x.digits = 0 → x.exponent ≤ 0) :
    Layout x (Nat.toDigits 10 x.digits ++ List.replicate x.exponent.toNat '0') ['0'] where
  text := by
    simp [fractional, positional, zeros, whole]
  whole_isDigit := by
    intro c member
    rcases List.mem_append.mp member with digit | zero
    · exact isDigit_of_mem_toDigits c digit
    · exact isDigit_of_mem_zeros c zero
  fraction_isDigit := by simp
  whole_ne_nil := by simp [Nat.toDigits_ne_nil]
  fraction_ne_nil := by simp
  leading := by
    intro c rest starts
    rcases Nat.eq_zero_or_pos x.digits with none | pos
    · have single : x.exponent.toNat = 0 := by
        have := zero none
        omega
      rw [none, single] at starts
      cases starts
    · have head := head?_toDigits pos
      rw [← List.head?_append_of_ne_nil _ Nat.toDigits_ne_nil, starts] at head
      exact head rfl
  value := by
    have zeros : ['0'] = List.replicate 1 '0' := rfl
    have digits : Nat.ofDigitChars 10
        (Nat.toDigits 10 x.digits ++ List.replicate x.exponent.toNat '0' ++ ['0']) 0 =
          x.digits * 10 ^ (x.exponent.toNat + 1) := by
      rw [zeros, Nat.ofDigitChars_append, Nat.ofDigitChars_append, Nat.ofDigitChars_ten_toDigits,
        Nat.ofDigitChars_replicate_zero, Nat.ofDigitChars_replicate_zero]
      ring
    have exponent : -((['0'] : List Char).length : Int) + (x.exponent.toNat + 1 : Nat) = x.exponent := by
      simp only [List.length_singleton]
      omega
    rw [digits, toBinary64_mul_pow, exponent]

theorem layout_of_inside (fraction : x.exponent < 0) (inside : 0 < x.magnitude) :
    Layout x ((Nat.toDigits 10 x.digits).take x.magnitude.toNat)
      ((Nat.toDigits 10 x.digits).drop x.magnitude.toNat) where
  text := by
    simp only [magnitude, decimalLength] at inside ⊢
    simp [fractional, positional, inside, Int.not_le.mpr fraction]
  whole_isDigit c member := isDigit_of_mem_toDigits c (List.mem_of_mem_take member)
  fraction_isDigit c member := isDigit_of_mem_toDigits c (List.mem_of_mem_drop member)
  whole_ne_nil := by
    rw [Ne, List.take_eq_nil_iff]
    simp only [Nat.toDigits_ne_nil, or_false]
    omega
  fraction_ne_nil := by
    simp only [magnitude, decimalLength] at inside ⊢
    rw [Ne, List.drop_eq_nil_iff]
    omega
  leading := by
    intro c rest starts
    rcases Nat.eq_zero_or_pos x.digits with none | pos
    · rw [magnitude, none, show decimalLength 0 = 1 by rfl] at inside
      omega
    · have head := head?_toDigits pos
      rw [← List.take_append_drop x.magnitude.toNat (Nat.toDigits 10 x.digits), starts] at head
      exact head rfl
  value := by
    have exponent : -(((Nat.toDigits 10 x.digits).drop x.magnitude.toNat).length : Int) = x.exponent := by
      simp only [magnitude, decimalLength] at inside ⊢
      rw [List.length_drop]
      omega
    rw [List.take_append_drop, Nat.ofDigitChars_ten_toDigits, exponent]

theorem layout_of_small (outside : x.magnitude ≤ 0) :
    Layout x ['0'] (List.replicate (-x.magnitude).toNat '0' ++ Nat.toDigits 10 x.digits) where
  text := by
    have length : 0 < (Nat.toDigits 10 x.digits).length := Nat.length_toDigits_pos
    simp only [magnitude, decimalLength] at outside ⊢
    have fraction : ¬0 ≤ x.exponent := by omega
    simp [fractional, positional, zeros, fraction, Int.not_lt.mpr outside]
  whole_isDigit := by simp
  fraction_isDigit := by
    intro c member
    rcases List.mem_append.mp member with zero | digit
    · exact isDigit_of_mem_zeros c zero
    · exact isDigit_of_mem_toDigits c digit
  whole_ne_nil := by simp
  fraction_ne_nil := by simp [Nat.toDigits_ne_nil]
  leading := by
    intro c rest starts
    cases starts
  value := by
    have zeros : ['0'] = List.replicate 1 '0' := rfl
    have exponent : -((List.replicate (-x.magnitude).toNat '0' ++ Nat.toDigits 10 x.digits).length : Int) =
        x.exponent := by
      simp only [magnitude, decimalLength] at outside ⊢
      rw [List.length_append, List.length_replicate]
      omega
    rw [zeros, ← List.append_assoc, Nat.ofDigitChars_append, Nat.ofDigitChars_append,
      Nat.ofDigitChars_replicate_zero, Nat.ofDigitChars_replicate_zero, Nat.mul_zero,
      Nat.ofDigitChars_ten_toDigits, exponent]

theorem exists_layout (zero : x.digits = 0 → x.exponent ≤ 0) :
    ∃ whole fraction, Layout x whole fraction := by
  rcases Int.lt_or_le x.exponent 0 with fraction | whole
  · rcases Int.lt_or_le 0 x.magnitude with inside | outside
    · exact ⟨_, _, layout_of_inside fraction inside⟩
    · exact ⟨_, _, layout_of_small outside⟩
  · exact ⟨_, _, layout_of_whole whole zero⟩

end Decimal

end LockServo
