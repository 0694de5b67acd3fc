import LockServo.Proofs.Binary64.Accuracy
import LockServo.Proofs.Conversion.RoundTrip

/-!
# Truncation with a slack

The slow converters drop the fraction of a count, and a slack makes up for the roundings before that. In
every accurate number system it is large enough that a voltage read back keeps its count, and small enough
that a voltage more than two billionths of a count below the next count is never lifted to it.
-/

namespace LockServo

namespace Span

open Arithmetic Accurate

variable {ν : Type} [Arithmetic ν] [Accurate ν] {s : Span} {volts : ν} {v : ℚ}

/-- The whole part of a place, where the next count may stand in for the last two billionths. -/
structure Truncates (place : ℚ) (count : ℕ) : Prop where
  le : count ≤ place + 2 / 10 ^ 9
  lt : place < count + 1

/-- Holding a count at the top takes nothing from a place within the span. -/
theorem Truncates.min {place : ℚ} {count top : ℕ} (h : Truncates place count) (within : place ≤ top) :
    Truncates place (min count top) := by
  rcases Nat.le_total count top with below | above
  · rw [Nat.min_eq_left below]
    exact h
  · have above' : (top : ℚ) ≤ count := by exact_mod_cast above
    rw [Nat.min_eq_right above]
    exact ⟨above'.trans h.le, by linarith⟩

theorem FromZero.truncates_wholeCount (z : s.FromZero) (hv : toRat? volts = some v) (nonneg : 0 ≤ v)
    (le : v ≤ 3 * s.high) : Truncates (v / s.high * s.top) (wholeCount (s.position volts)) := by
  have top_le : (s.top : ℚ) ≤ 4095 := by exact_mod_cast z.top_le
  have high_pos := z.high_pos
  have part_le : v / s.high ≤ 3 := by rwa [div_le_iff₀ high_pos]
  have place_le : v / s.high * s.top ≤ 3 * 4095 := by gcongr
  obtain ⟨p, hp, near, above⟩ := z.position_near hv nonneg le
  obtain ⟨_, _⟩ := abs_le.mp near
  obtain ⟨_, _⟩ := wholeCount_bounds hp above (by linarith)
  constructor <;> linarith

theorem FromZero.place_le_top (z : s.FromZero) (le : v ≤ s.high) : v / s.high * s.top ≤ s.top := by
  have part_le : v / s.high ≤ 1 := by rwa [div_le_one z.high_pos]
  exact mul_le_of_le_one_left (Nat.cast_nonneg _) part_le

theorem truncates_inputCode (hv : toRat? volts = some v) (nonneg : 0 ≤ v) (le : v ≤ slowInput.high) :
    Truncates (v / slowInput.high * slowInput.top) (inputCode volts).toNat := by
  have z := slowInput_fromZero
  have whole := z.truncates_wholeCount hv nonneg (by linarith [z.high_pos])
  rw [toNat_inputCode]
  exact whole.min (z.place_le_top le)

theorem truncates_outputCode (hv : toRat? volts = some v) (nonneg : 0 ≤ v) (le : v ≤ slowOutput.high) :
    Truncates (v / slowOutput.high * slowOutput.top) (outputCode volts).toNat := by
  have z := slowOutput_fromZero
  have within := z.place_le_top le
  have whole := z.truncates_wholeCount hv nonneg (by linarith [z.high_pos])
  obtain ⟨p, hp, near, -⟩ := z.position_near hv nonneg (by linarith [z.high_pos])
  unfold outputCode
  rw [less_eq z.toRat?_top hp]
  split
  · rename_i above
    have above' : (slowOutput.top : ℚ) < p := of_decide_eq_true above
    have := (abs_le.mp near).2
    rw [show (UInt32.ofNat slowOutput.top).toNat = slowOutput.top from rfl]
    constructor <;> linarith
  · have small : wholeCount (slowOutput.position volts) < 2 ^ 32 := by
      have bounded : (wholeCount (slowOutput.position volts) : ℚ) ≤ slowOutput.top + 2 / 10 ^ 9 := by
        linarith [whole.le]
      have bounded' : (wholeCount (slowOutput.position volts) : ℚ) < (2 ^ 32 : ℕ) :=
        bounded.trans_lt (by norm_num [slowOutput])
      exact_mod_cast bounded'
    rw [UInt32.toNat_ofNat_of_lt' small]
    exact whole

end Span

open Arithmetic Accurate

/-- Encoders of absolute voltages give the counts that were read back to them, hold counts past the top of
the outputs there, and round down every voltage of their span but for two billionths of a count. -/
theorem slow_converters_truncate (ν : Type) [Arithmetic ν] [Accurate ν] :
    (∀ n : UInt32, n.toNat ≤ 4095 → (Span.encodeInput (Span.slowInput.voltage n : ν)).run.value = .ok n) ∧
    (∀ n : UInt32, n.toNat ≤ 255 → (Span.encodeOutput (Span.slowOutput.voltage n : ν)).run.value =
      .ok (UInt32.ofNat (min n.toNat 156))) ∧
    (∀ (volts : ν) (v : ℚ), toRat? volts = some v → 0 ≤ v → v ≤ 7 →
      ∃ n, (Span.encodeInput volts).run.value = .ok n ∧ Span.Truncates (v / 7 * 4095) n.toNat) ∧
    (∀ (volts : ν) (v : ℚ), toRat? volts = some v → 0 ≤ v → v ≤ onGrid (18 / 10) →
      ∃ n, (Span.encodeOutput volts).run.value = .ok n ∧
        Span.Truncates (v / onGrid (18 / 10) * 156) n.toNat) := by
  refine ⟨fun n small => Span.encodeInput_voltage small, fun n small => ?_, fun volts v hv nonneg le => ?_,
    fun volts v hv nonneg le => ?_⟩
  · obtain ⟨v, hv, -, nonneg⟩ :=
      Span.slowOutput_fromZero.voltage_near (ν := ν) (small.trans (by decide : 255 ≤ 2 * Span.slowOutput.top))
    have code : Span.outputCode (Span.slowOutput.voltage n : ν) = UInt32.ofNat (min n.toNat 156) := by
      rw [← Span.toNat_outputCode_voltage (ν := ν) small, UInt32.ofNat_toNat]
    rw [Span.encodeOutput_value, not_refused hv nonneg, code]
    rfl
  · refine ⟨Span.inputCode volts, ?_, Span.truncates_inputCode hv nonneg le⟩
    rw [Span.encodeInput_value, isNaN_eq hv]
    rfl
  · have high : Span.slowOutput.high = onGrid (18 / 10) := by rw [Span.slowOutput]
    have top : (Span.slowOutput.top : ℚ) = 156 := rfl
    rw [← high] at le
    rw [← high, ← top]
    refine ⟨Span.outputCode volts, ?_, Span.truncates_outputCode hv nonneg le⟩
    rw [Span.encodeOutput_value, not_refused hv nonneg]
    rfl

/-- Of doubles: the last counts, the middle between two counts, and the top of the outputs. -/
theorem slow_converters_truncate_in_doubles :
    (Span.encodeInput (Span.slowInput.voltage 4095 : Binary64)).run.value = .ok 4095 ∧
    (Span.encodeOutput (Span.slowOutput.voltage 200 : Binary64)).run.value = .ok 156 ∧
    (∃ n, (Span.encodeInput (ofRat (7 / 2) : Binary64)).run.value = .ok n ∧
      Span.Truncates (7 / 2 / 7 * 4095) n.toNat) ∧
    ∃ n, (Span.encodeOutput (ofRat (18 / 10) : Binary64)).run.value = .ok n ∧
      Span.Truncates (onGrid (18 / 10) / onGrid (18 / 10) * 156) n.toNat := by
  obtain ⟨inputs, outputs, input, output⟩ := slow_converters_truncate Binary64
  exact ⟨inputs 4095 (by decide), outputs 200 (by decide),
    input _ (7 / 2) (by decide +kernel) (by norm_num) (by norm_num),
    output _ (onGrid (18 / 10)) (by decide +kernel) (by decide +kernel) le_rfl⟩

end LockServo
