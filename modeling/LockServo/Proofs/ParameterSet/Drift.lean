import LockServo.Proofs.Conversion.Exact
import LockServo.Proofs.ParameterSet.Recoding

/-!
# Drift of repeated captures

In exact arithmetic, putting an instrument's own capture back moves only counts whose voltage is below
zero, since these are read as zero. Each of them goes up to the count nearest to zero volts in one
round, and further rounds change nothing.
-/

namespace LockServo

open Accurate Arithmetic Register

namespace ParameterSet

variable {ν : Type} [Arithmetic ν]

def round : Action ν Unit := do
  let set ← capture
  set.apply

def rounds : Nat → Action ν Unit
  | 0 => pure ()
  | n + 1 => do
    round
    rounds n

end ParameterSet

/-! ## One correction in exact arithmetic -/

namespace Correction

variable (k : Correction ℚ)

def volts (n : UInt32) : ℚ := n.toNat / (k.sanitized.gain * 2 ^ 14) + k.sanitized.offset

/-- The whole number of counts nearest to zero volts, held at the end of the range. -/
def zeroCount : ℤ := min (nearestInt (-k.sanitized.offset * k.sanitized.gain * 2 ^ 14)) 0x3FFF

def settle (n : UInt32) : UInt32 := if k.volts n < 0 then UInt32.ofInt k.zeroCount else n

variable {k} {n : UInt32}

theorem volts_neg_iff :
    k.volts n < 0 ↔ (n.toNat : ℚ) < -k.sanitized.offset * k.sanitized.gain * 2 ^ 14 := by
  have positive : 0 < k.sanitized.gain * 2 ^ 14 := mul_pos k.gain_pos (by norm_num)
  rw [volts, ← lt_neg_iff_add_neg, div_lt_iff₀ positive, mul_assoc]

/-- Rounding up to the count nearest to zero volts never goes down. -/
theorem le_zeroCount (below : k.volts n < 0) (masked : n &&& 0x3FFF = n) : (n.toNat : ℤ) ≤ k.zeroCount := by
  have small : n.toNat ≤ 16383 := toNat_le_of_masked masked
  have nonneg : (0 : ℚ) ≤ n.toNat := Nat.cast_nonneg _
  have above := volts_neg_iff.mp below
  have rounded : (n.toNat : ℤ) ≤ nearestInt (-k.sanitized.offset * k.sanitized.gain * 2 ^ 14) := by
    rw [nearestInt_of_nonneg (by linarith), Int.le_floor]
    push_cast
    linarith
  rw [zeroCount]
  omega

theorem toNat_zeroCount (below : k.volts n < 0) (masked : n &&& 0x3FFF = n) :
    ((UInt32.ofInt k.zeroCount).toNat : ℤ) = k.zeroCount := by
  have low := le_zeroCount below masked
  have high : k.zeroCount ≤ 0x3FFF := min_le_right _ _
  exact toNat_ofInt (by omega) (by omega)

theorem settle_masked (masked : n &&& 0x3FFF = n) : k.settle n &&& 0x3FFF = k.settle n := by
  unfold settle
  split
  · rename_i below
    have counted := toNat_zeroCount below masked
    have high : k.zeroCount ≤ 0x3FFF := min_le_right _ _
    exact and_mask_eq_self (w := 14) rfl (show _ ≤ 0x3FFF by omega)
  · exact masked

theorem settle_settle (n : UInt32) : k.settle (k.settle n) = k.settle n := by
  rcases lt_or_ge (k.volts n) 0 with below | above
  · rw [settle, settle, if_pos below]
    split <;> rfl
  · have kept : k.settle n = n := if_neg above.not_gt
    rw [kept, kept]

theorem stepUnder_eq : Scale.unipolar.stepUnder k = 1 / (k.sanitized.gain * 2 ^ 14) := by
  change ((1 : ℕ) : ℚ) / (k.sanitized.gain * (16384 : ℕ)) = _
  norm_num

theorem volts_eq (masked : n &&& 0x3FFF = n) : Scale.unipolar.volts k (ofNat 0) n = k.volts n := by
  have zero : (ofNat 0 : ℚ) = 0 := Nat.cast_zero
  rw [Scale.volts_eq, Scale.unipolar_count masked, stepUnder_eq, zero, add_zero, mul_one_div, volts]
  rfl

theorem place_eq (v : ℚ) :
    Scale.unipolar.place k (ofNat 0) v = (v - k.sanitized.offset) * k.sanitized.gain * 2 ^ 14 := by
  change (v - k.sanitized.offset - (0 : ℕ)) / (1 : ℕ) * k.sanitized.gain * (16384 : ℕ) = _
  norm_num

theorem code_settle (masked : n &&& 0x3FFF = n) :
    Scale.unipolar.code k (ofNat 0) (clampNonNegative (Scale.unipolar.volts k (ofNat 0) n)) =
      k.settle n := by
  rw [← Scale.unipolar_decode_value]
  rcases lt_or_ge (k.volts n) 0 with below | above
  · have low := le_zeroCount below masked
    have stored : ((Scale.unipolar.code k (ofNat 0) 0).toNat : ℤ) = k.zeroCount := by
      rw [Scale.toNat_code, place_eq, zero_sub]
      exact max_eq_right ((Int.natCast_nonneg _).trans low)
    rw [Scale.decode_of_neg rfl (volts_eq masked ▸ below), settle, if_pos below, ← stored, ofInt_toNat]
  · have one : (0 : ℚ) < (Scale.unipolar : Scale ℚ).fullScale := by decide +kernel
    rw [Scale.code_decode_of_nonneg one (.inr (volts_eq masked ▸ above)), Scale.unipolar_mask, masked, settle,
      if_neg above.not_gt]

end Correction

/-! ## Rounds of an instrument -/

namespace Register.Place

def settle (c : Calibration ℚ) (p : Place) (n : UInt32) : UInt32 :=
  match p.correction? c with
  | some k => k.settle n
  | none => n

/-- Whether a count in the place stands for a voltage below zero. -/
def Drifts (c : Calibration ℚ) (p : Place) (n : UInt32) : Prop :=
  ∃ k, p.correction? c = some k ∧ k.volts n < 0

variable {c : Calibration ℚ} {p : Place} {n : UInt32}

theorem settle_of_not_drifts (h : ¬ p.Drifts c n) : p.settle c n = n := by
  unfold settle
  split
  · rename_i k corrected
    exact if_neg fun below => h ⟨k, corrected, below⟩
  · rfl

theorem settle_masked (masked : n &&& p.mask = n) : p.settle c n &&& p.mask = p.settle c n := by
  unfold settle
  split
  · rename_i k corrected
    rw [mask_of_correction corrected] at masked ⊢
    exact Correction.settle_masked masked
  · exact masked

theorem settle_settle (n : UInt32) : p.settle c (p.settle c n) = p.settle c n := by
  unfold settle
  split
  · exact Correction.settle_settle n
  · rfl

theorem recode_settle (parameter : p.isParameter = true) (masked : n &&& p.mask = n) :
    (p.recode c c n).run.value = .ok (p.settle c n) := by
  unfold settle
  split
  · rename_i k corrected
    rw [mask_of_correction corrected] at masked
    rw [recode_of_correction corrected (v := Scale.unipolar.volts k (ofNat 0) n) rfl,
      Correction.code_settle masked]
  · rename_i plain
    exact recode_of_no_correction c c parameter plain masked

theorem isParameter_of_correction {k : Correction ℚ} (corrected : p.correction? c = some k) :
    p.isParameter = true := by
  cases p with
  | switch l f => rfl
  | number f adjustable => cases f <;> first | rfl | cases corrected

end Register.Place

namespace Instrument

variable {i j : Instrument ℚ}

def settled (i : Instrument ℚ) : Instrument ℚ :=
  i.restore fun p => p.settle i.calibration (i.value p)

theorem settled_sound (h : i.Sound) : i.settled.Sound :=
  restore_sound h

theorem settled_calibration : i.settled.calibration = i.calibration :=
  restore_calibration

theorem round_value (h : i.Sound) :
    (ParameterSet.round.perform i).value = (.ok (), i.settled) := by
  rw [ParameterSet.round, Action.perform_bind_value_of_ok (ParameterSet.capture_value h.fullSize)]
  exact apply_parameters h.fullSize fun p parameter =>
    Place.recode_settle parameter (value_and_mask p)

theorem value_settled (h : i.Sound) (p : Place) :
    i.settled.value p = p.settle i.calibration (i.value p) := by
  rw [settled, value_restore h]
  split
  · exact Place.settle_masked (value_and_mask p)
  · rename_i other
    refine (Place.settle_of_not_drifts ?_).symm
    rintro ⟨k, corrected, -⟩
    exact other (Place.isParameter_of_correction corrected)

theorem bit_settled (h : i.Sound) {b : Block} {offset k : Nat} (inside : b.IsWord offset)
    (still : ∀ p : Place, p.Covers b offset k → ¬ p.Drifts i.calibration (i.value p)) :
    bit (i.settled.word b offset) k = bit (i.word b offset) k := by
  by_cases covered : ∃ p : Place, p.Covers b offset k
  · obtain ⟨p, covers⟩ := covered
    rw [bit_value covers, bit_value covers, value_settled h,
      Place.settle_of_not_drifts (still p covers)]
  · exact bit_restore h inside fun p _ covers => covered ⟨p, covers⟩

theorem settled_agrees (h : i.Sound) (agrees : i.Agrees j.settled) (hj : j.Sound) :
    i.settled.Agrees j.settled := by
  have calibration : i.calibration = j.calibration := agrees.calibration.trans settled_calibration
  refine ⟨settled_calibration.trans agrees.calibration, fun b offset inside => ?_⟩
  rw [← agrees.word b offset inside]
  refine word_eq_of_value_eq (fun p => ?_) fun k uncovered => ?_
  · rw [value_settled h, agrees.value p, value_settled hj, calibration, Place.settle_settle]
  · exact bit_settled h inside fun p covers => absurd covers (uncovered p)

theorem rounds_value (h : i.Sound) (hj : j.Sound) (agrees : i.Agrees j.settled) (n : Nat) :
    ∃ later : Instrument ℚ, ((ParameterSet.rounds n).perform i).value = (.ok (), later) ∧
      later.Sound ∧ later.Agrees j.settled := by
  induction n generalizing i with
  | zero => exact ⟨i, rfl, h, agrees⟩
  | succ n ih =>
    obtain ⟨later, run, sound, same⟩ := ih (settled_sound h) (settled_agrees h agrees hj)
    refine ⟨later, ?_, sound, same⟩
    rw [ParameterSet.rounds, Action.perform_bind_value_of_ok (round_value h), run]

end Instrument

/-- The first round moves only counts of voltages below zero, each up to the count nearest to zero
volts; afterwards no round changes a word, and every capture is the same. -/
theorem rounds_drift_once {i : Instrument ℚ} (h : i.Sound) :
    ∃ first : Instrument ℚ, (ParameterSet.round.perform i).value = (.ok (), first) ∧
      (∀ (b : Block) (offset k : Nat), b.IsWord offset →
        (∀ p : Place, p.Covers b offset k → ¬ p.Drifts i.calibration (i.value p)) →
        bit (first.word b offset) k = bit (i.word b offset) k) ∧
      (∀ (p : Place) (k : Correction ℚ), p.correction? i.calibration = some k →
        k.volts (i.value p) < 0 →
        ((first.value p).toNat : ℤ) =
            min (nearestInt (-k.sanitized.offset * k.sanitized.gain * 2 ^ 14)) 0x3FFF ∧
          i.value p ≤ first.value p) ∧
      ∀ n : Nat, ∃ later : Instrument ℚ,
        ((ParameterSet.rounds n).perform first).value = (.ok (), later) ∧
        (∀ b : Block, later.words b = first.words b) ∧
        (ParameterSet.capture.perform later).value = (.ok first.parameters, later) := by
  have sound := Instrument.settled_sound h
  refine ⟨i.settled, Instrument.round_value h, ?_, ?_, ?_⟩
  · intro b offset k inside still
    exact Instrument.bit_settled h inside still
  · intro p k corrected below
    have masked := Instrument.value_and_mask (i := i) p
    rw [Place.mask_of_correction corrected] at masked
    have moved : i.settled.value p = UInt32.ofInt k.zeroCount := by
      rw [Instrument.value_settled h, Place.settle, corrected]
      exact if_pos below
    have counted := Correction.toNat_zeroCount below masked
    have low := Correction.le_zeroCount below masked
    rw [moved]
    refine ⟨counted, UInt32.le_iff_toNat_le.mpr ?_⟩
    omega
  · intro n
    obtain ⟨later, run, laterSound, agrees⟩ :=
      Instrument.rounds_value sound h (.refl i.settled) n
    have captured : later.parameters = i.settled.parameters :=
      Instrument.parameters_eq_of_value_eq agrees.calibration fun p _ => agrees.value p
    refine ⟨later, run, agrees.words laterSound.fullSize sound.fullSize, ?_⟩
    rw [ParameterSet.capture_value laterSound.fullSize, captured]

/-- Zeroed setpoints that stand for a quarter of a volt below zero go up by a quarter of the range. -/
theorem rounds_drift_once_from_zero :
    let low : Correction ℚ := ⟨1, -1 / 4⟩
    let l : Loop := ⟨.one, .two⟩
    let i := Instrument.blank ⟨⟨low, .ideal⟩, ⟨.ideal, low⟩⟩
    i.Sound ∧ ∃ first : Instrument ℚ, (ParameterSet.round.perform i).value = (.ok (), first) ∧
      first.value (.number (.setpoint l)) = 4096 ∧
      ∀ n : Nat, ∃ later : Instrument ℚ,
        ((ParameterSet.rounds n).perform first).value = (.ok (), later) ∧
        ∀ b : Block, later.words b = first.words b := by
  intro low l i
  have sound : i.Sound := Instrument.blank_sound _
  obtain ⟨first, ran, -, moved, stable⟩ := rounds_drift_once sound
  have below : low.volts (i.value (.number (.setpoint l))) < 0 := by decide +kernel
  have counted := (moved (.number (.setpoint l)) low rfl below).1
  have quarter : min (nearestInt (-low.sanitized.offset * low.sanitized.gain * 2 ^ 14)) 0x3FFF = 4096 := by
    decide +kernel
  rw [quarter] at counted
  refine ⟨sound, first, ran, UInt32.toNat_inj.mp (by exact_mod_cast counted), fun n => ?_⟩
  obtain ⟨later, run, words, -⟩ := stable n
  exact ⟨later, run, words⟩

end LockServo
