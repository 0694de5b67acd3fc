import LockServo.Proofs.Conversion.RoundTrip
import LockServo.Proofs.Conversion.Saturation

/-!
# Clamping in exact arithmetic

The count that an encoder stores against the real number of counts that its argument is worth. Without
a report of saturation the two are half a count apart at most where the encoder rounds, and less than a
count where it truncates; with one the real number lies outside the field.
-/

namespace LockServo

open Arithmetic

theorem less_intCast (a b : ℤ) : less (a : ℚ) (b : ℚ) = decide (a < b) :=
  decide_eq_decide.mpr Int.cast_lt

theorem abs_max_sub_le {x v : ℚ} (h : 0 ≤ v ∨ 0 ≤ x) : |max 0 x - v| ≤ |x - v| := by
  rcases le_total 0 x with nonneg | nonpos
  · rw [max_eq_right nonneg]
  · rw [max_eq_left nonpos]
    rcases h with above | above
    · rw [abs_of_nonpos (by linarith), abs_of_nonpos (by linarith)]
      linarith
    · rw [le_antisymm nonpos above]

theorem nonneg_of_accepted {v : ℚ} (h : (isNaN v || less v (ofNat 0)) = false) : 0 ≤ v := by
  have notBelow := (Bool.or_eq_false_iff.mp h).2
  exact not_lt.mp (of_decide_eq_false notBelow)

/-- An encoder reports exactly when it must: with no event the count is near, with one it is outside. -/
structure Faithful (event? : Option Event) (near outside : Prop) : Prop where
  near : event? = none → near
  outside : event? ≠ none → outside

namespace Faithful

variable {near outside : Prop}

theorem of_none (h : near) : Faithful none near outside :=
  ⟨fun _ => h, fun some => absurd rfl some⟩

theorem of_some {event : Event} (h : outside) : Faithful (some event) near outside :=
  ⟨fun none => (nomatch none), fun _ => h⟩

theorem imp {event? : Option Event} {near' outside' : Prop} (h : Faithful event? near outside)
    (hn : near → near') (ho : outside → outside') : Faithful event? near' outside' :=
  ⟨hn ∘ h.near, ho ∘ h.outside⟩

end Faithful

namespace Scale

variable {k : Correction ℚ} {v : ℚ}

theorem unipolar_overshoot? (m : ℤ) : (unipolar : Scale ℚ).overshoot? m =
    if 16383 < m then some .voltageAbove else if m < 0 then some .voltageBelow else none := by
  have highest : less (ofInt (unipolar : Scale ℚ).highest) (m : ℚ) = decide (16383 < m) :=
    less_intCast 16383 m
  have lowest : less (m : ℚ) (ofInt (unipolar : Scale ℚ).lowest) = decide (m < 0) :=
    less_intCast m 0
  rw [overshoot?, highest, lowest]
  simp only [decide_eq_true_eq]

theorem toNat_code (k : Correction ℚ) (v : ℚ) :
    ((unipolar.code k (ofNat 0) v).toNat : ℤ) =
      max 0 (min (nearestInt (unipolar.place k (ofNat 0) v)) 16383) := by
  have raw : roundAway (unipolar.place k (ofNat 0) v) =
      (nearestInt (unipolar.place k (ofNat 0) v) : ℚ) := rfl
  rw [code, unipolar_mask, raw, hold_whole (ν := ℚ) rfl]
  generalize nearestInt (unipolar.place k (ofNat 0) v) = m
  have counted := toNat_ofInt (m := max 0 (min m 16383)) (by omega) (by omega)
  have masked : UInt32.ofInt (max 0 (min m 16383)) &&& 0x3FFF = UInt32.ofInt (max 0 (min m 16383)) :=
    and_mask_eq_self (w := 14) rfl (show _ ≤ 0x3FFF by omega)
  rw [masked, counted]

theorem code_and_mask (k : Correction ℚ) (v : ℚ) :
    unipolar.code k (ofNat 0) v &&& 0x3FFF = unipolar.code k (ofNat 0) v := by
  rw [code, unipolar_mask, UInt32.and_assoc]
  rfl

theorem unipolar_faithful (k : Correction ℚ) (v : ℚ) :
    Faithful (unipolar.overshoot? (roundAway (unipolar.place k (ofNat 0) v)))
      (|((unipolar.code k (ofNat 0) v).toNat : ℚ) - unipolar.place k (ofNat 0) v| ≤ 1 / 2)
      (unipolar.place k (ofNat 0) v ≤ -1 / 2 ∨ 16383 + 1 / 2 ≤ unipolar.place k (ofNat 0) v) := by
  have raw : roundAway (unipolar.place k (ofNat 0) v) =
      (nearestInt (unipolar.place k (ofNat 0) v) : ℚ) := rfl
  have counted := toNat_code k v
  rw [raw, unipolar_overshoot?]
  generalize unipolar.place k (ofNat 0) v = q at counted ⊢
  split
  · rename_i above
    exact .of_some (.inr (by exact_mod_cast le_of_lt_nearestInt above))
  · split
    · rename_i below
      have := le_of_nearestInt_lt below
      exact .of_some (.inl (by push_cast at this; linarith))
    · have count : ((unipolar.code k (ofNat 0) v).toNat : ℚ) = nearestInt q := by
        exact_mod_cast counted.trans (by omega)
      rw [count]
      exact .of_none (abs_nearestInt_sub_le q)

end Scale

namespace Gain

variable {factor v : ℚ} {mask : UInt32}

theorem less_roundAway (factor v : ℚ) (mask : UInt32) :
    less (ofNat mask.toNat) (roundAway (v * factor)) =
      decide ((mask.toNat : ℤ) < nearestInt (v * factor)) :=
  less_intCast _ _

theorem overshoot?_eq (factor v : ℚ) (mask : UInt32) : overshoot? factor mask v =
    if (mask.toNat : ℤ) < nearestInt (v * factor) then some .gainAbove else none := by
  rw [overshoot?, less_roundAway]
  simp only [decide_eq_true_eq]

theorem toNat_code (nonneg : 0 ≤ v * factor) :
    ((code factor mask v).toNat : ℤ) = min (nearestInt (v * factor)) mask.toNat := by
  have wide := mask.toNat_lt
  have low := nearestInt_nonneg nonneg
  have whole : truncate 0 0xFFFFFFFF (roundAway (v * factor)) =
      max 0 (min 0xFFFFFFFF (nearestInt (v * factor))) := by
    change max 0 (min 0xFFFFFFFF (wholePart (nearestInt (v * factor) : ℚ))) = _
    rw [wholePart_intCast]
  rw [code, less_roundAway, whole]
  simp only [decide_eq_true_eq]
  split
  · omega
  · rw [toNat_ofInt (by omega) (by omega)]
    omega

theorem code_and_mask (nonneg : 0 ≤ v * factor) :
    code factor 0xFFFFFF v &&& 0xFFFFFF = code factor 0xFFFFFF v := by
  have counted : ((code factor 0xFFFFFF v).toNat : ℤ) =
    min (nearestInt (v * factor)) (0xFFFFFF : UInt32).toNat := toNat_code nonneg
  exact and_mask_eq_self (w := 24) rfl (by omega)

theorem faithful (nonneg : 0 ≤ v * factor) :
    Faithful (overshoot? factor mask v) (|((code factor mask v).toNat : ℚ) - v * factor| ≤ 1 / 2)
      (mask.toNat + 1 / 2 ≤ v * factor) := by
  have counted : ((code factor mask v).toNat : ℤ) = _ := toNat_code nonneg
  rw [overshoot?_eq]
  split
  · rename_i above
    exact .of_some (by exact_mod_cast le_of_lt_nearestInt above)
  · have count : ((code factor mask v).toNat : ℚ) = nearestInt (v * factor) := by
      exact_mod_cast counted.trans (by omega)
    rw [count]
    exact .of_none (abs_nearestInt_sub_le _)

end Gain

namespace Span

theorem wholeCount_near {q : ℚ} (nonneg : 0 ≤ q) (small : q ≤ 2 ^ 20) :
    (wholeCount q : ℚ) ≤ q + slack ∧ q + slack < wholeCount q + 1 := by
  obtain ⟨low, high⟩ := slack_bounds
  have raised : Accurate.toRat? (q + ofRat slack) = some (q + slack) := rfl
  exact wholeCount_floor raised (by linarith) (by linarith)

theorem wholeCount_le {q : ℚ} {n : ℕ} (nonneg : 0 ≤ q) (le : q ≤ n) (small : n ≤ 2 ^ 20) :
    wholeCount q ≤ n := by
  obtain ⟨-, high⟩ := slack_bounds
  have small' : (n : ℚ) ≤ 2 ^ 20 := by exact_mod_cast small
  have below := (wholeCount_near nonneg (le.trans small')).1
  have next : (wholeCount q : ℚ) < n + 1 := by linarith
  exact Nat.lt_succ_iff.mp (by exact_mod_cast next)

theorem outputCode_and_mask {v : ℚ} (nonneg : 0 ≤ slowOutput.position v) :
    outputCode v &&& 0xFF = outputCode v := by
  refine and_mask_eq_self (w := 8) rfl (show _ ≤ 255 from ?_)
  unfold outputCode
  split
  · decide
  · rename_i notAbove
    have within : ¬ ((156 : ℕ) : ℚ) < slowOutput.position v :=
      of_decide_eq_false (Bool.eq_false_iff.mpr notAbove)
    have small := wholeCount_le nonneg (not_lt.mp within) (by norm_num)
    have count : (UInt32.ofNat (wholeCount (slowOutput.position v))).toNat =
        wholeCount (slowOutput.position v) % 2 ^ 32 := rfl
    omega

theorem input_faithful (v : ℚ) :
    Faithful (inputOvershoot? v) (|((inputCode v).toNat : ℚ) - slowInput.position v| < 1)
      (slowInput.position v < 0 ∨ 4096 ≤ slowInput.position v) := by
  obtain ⟨positive, small⟩ := slack_bounds
  unfold inputOvershoot? inputCode
  generalize slowInput.position v = q
  have reported : (less q (ofNat 0) || !less q (ofNat (slowInput.top + 1))) =
      decide (q < 0 ∨ 4096 ≤ q) := by
    change (decide (q < ((0 : ℕ) : ℚ)) || !decide (q < ((4096 : ℕ) : ℚ))) = _
    rw [Nat.cast_zero, Nat.cast_ofNat, Bool.decide_or, ← decide_not, decide_eq_decide.mpr not_lt]
  dsimp only
  rw [reported]
  simp only [decide_eq_true_eq]
  split
  · rename_i outside
    exact .of_some outside
  · rename_i inside
    obtain ⟨nonneg, below⟩ := not_or.mp inside
    obtain ⟨low, high⟩ := wholeCount_near (not_lt.mp nonneg) (by linarith)
    have top := wholeCount_le (n := 4096) (not_lt.mp nonneg) (by push_cast; linarith) (by norm_num)
    have count : (UInt32.ofNat (min (wholeCount q) slowInput.top)).toNat = min (wholeCount q) 4095 := by
      change (min (wholeCount q) 4095) % 2 ^ 32 = _
      omega
    refine .of_none ?_
    rw [count, abs_lt]
    rcases Nat.lt_or_ge (wholeCount q) 4096 with within | lifted
    · rw [Nat.min_eq_left (by omega)]
      constructor <;> linarith
    · have last : (4096 : ℚ) ≤ wholeCount q := by exact_mod_cast lifted
      rw [Nat.min_eq_right (by omega), Nat.cast_ofNat]
      constructor <;> linarith

theorem output_faithful {v : ℚ} (nonneg : 0 ≤ slowOutput.position v) :
    Faithful (outputOvershoot? v) (|((outputCode v).toNat : ℚ) - slowOutput.position v| < 1)
      (156 < slowOutput.position v) := by
  obtain ⟨positive, small⟩ := slack_bounds
  unfold outputOvershoot? outputCode
  generalize slowOutput.position v = q at nonneg ⊢
  have reported : less (ofNat slowOutput.top) q = decide (156 < q) := rfl
  rw [reported]
  simp only [decide_eq_true_eq]
  split
  · rename_i above
    exact .of_some above
  · rename_i notAbove
    obtain ⟨low, high⟩ := wholeCount_near nonneg (by linarith)
    have top := wholeCount_le (n := 156) nonneg (by push_cast; linarith) (by norm_num)
    have count : (UInt32.ofNat (wholeCount q)).toNat = wholeCount q := Nat.mod_eq_of_lt (by omega)
    refine .of_none ?_
    rw [count, abs_lt]
    constructor <;> linarith

end Span

end LockServo
