import LockServo.Proofs.Conversion.Voltages
import LockServo.Proofs.Instrument.Refusals

/-!
# Calibrated readings

Setpoints, limits and the fast channels are read through a correction. Such a reading is never a NaN.
The replacement of unusable gains and offsets keeps it finite only together with a bound on those that
are usable: a gain below the normal range overflows.
-/

namespace LockServo

open Arithmetic Register

/-- The field that a query for a calibrated voltage reads, and the correction that applies. -/
def Query.voltage? {ν : Type} (c : Calibration ν) : Query → Option (Field × Correction ν)
  | .setpoint l => some (.setpoint l, c.input.get l.input)
  | .limit d b => some (.limit d b, c.output.get d)
  | .inputVoltage d => some (.fastInput d, c.input.get d)
  | .outputVoltage d => some (.fastOutput d, c.output.get d)
  | _ => none

namespace Scale

structure Reads (s : Scale Binary64) (c : Calibration Binary64) (f : Field) (k : Correction Binary64) :
    Prop where
  oneVolt : s.OneVolt
  quantity (n : UInt32) : f.quantity c n = (s.decode k (ofNat 0) n).value
  mask : f.mask = 0x3FFF
  count {n : UInt32} : n &&& 0x3FFF = n → n ≠ 0 → s.count n ≠ 0

theorem unipolar_count_ne_zero {n : UInt32} (masked : n &&& 0x3FFF = n) :
    n ≠ 0 → (unipolar : Scale Binary64).count n ≠ 0 := by
  rw [← unipolar_mask (ν := Binary64)] at masked
  exact count_ne_zero _ masked

theorem bipolar_count_ne_zero {n : UInt32} (masked : n &&& 0x3FFF = n) :
    n ≠ 0 → (bipolar : Scale Binary64).count n ≠ 0 := by
  rw [← bipolar_mask] at masked
  exact count_ne_zero _ masked

theorem exists_reads {c : Calibration Binary64} {q : Query} {f : Field} {k : Correction Binary64}
    (voltage : q.voltage? c = some (f, k)) : ∃ s, Reads s c f k := by
  cases q <;> cases voltage
  · exact ⟨unipolar, unipolar_oneVolt, fun _ => rfl, rfl, unipolar_count_ne_zero⟩
  · exact ⟨unipolar, unipolar_oneVolt, fun _ => rfl, rfl, unipolar_count_ne_zero⟩
  · exact ⟨bipolar, bipolar_oneVolt, fun _ => rfl, rfl, bipolar_count_ne_zero⟩
  · exact ⟨bipolar, bipolar_oneVolt, fun _ => rfl, rfl, bipolar_count_ne_zero⟩

end Scale

theorem Query.answer_of_voltage {i : Instrument Binary64} {q : Query} {f : Field}
    {k : Correction Binary64} (voltage : q.voltage? i.calibration = some (f, k)) :
    q.answer i = .quantity (i.reading f) := by
  cases q <;> cases voltage <;> rfl

/-- A voltage is a number whatever the words and the correction. A gain in the normal range and an offset
of at most `2 ^ 1023` keep it finite; at a gain of at most `2 ^ (-1040)` every count but zero overflows. -/
theorem voltages_are_finite_in_normal_range {i : Instrument Binary64} (h : i.FullSize) {q : Query}
    {f : Field} {k : Correction Binary64} (voltage : q.voltage? i.calibration = some (f, k)) :
    ∃ v : Binary64, (q.perform.perform i).value = (.ok (.quantity v), i) ∧ v.isNaN = false ∧
      (1 / 2 ^ 1022 ≤ k.sanitized.gain.toRat → |k.sanitized.offset.toRat| ≤ 2 ^ 1023 →
        v.isFinite = true) ∧
      (k.sanitized.gain.toRat ≤ 1 / 2 ^ 1040 → i.count f ≠ 0 → v.isFinite = false) := by
  obtain ⟨s, reads⟩ := Scale.exists_reads voltage
  have masked : i.count f &&& 0x3FFF = i.count f := by
    rw [Instrument.count, getField, reads.mask, UInt32.and_assoc]
    rfl
  refine ⟨i.reading f, ?_, ?_⟩
  · rw [q.perform_value h, Query.answer_of_voltage voltage]
  · rw [Instrument.reading, reads.quantity]
    refine ⟨reads.oneVolt.isNaN_decode _, reads.oneVolt.finite_decode _, fun gain nonzero => ?_⟩
    exact reads.oneVolt.infinite_decode _ gain (reads.count masked nonzero)

/-- The smallest normal gain reads the largest setpoint under a huge offset, and the smallest gain of all
reads no lower limit but zero. -/
theorem voltages_are_finite_at_smallest_normal_gain :
    let normal : Correction Binary64 := ⟨.ofRat (1 / 2 ^ 1022), .ofRat (2 ^ 1023)⟩
    let subnormal : Correction Binary64 := ⟨.ofBits 1, .ofRat 0⟩
    let l : Loop := ⟨.one, .two⟩
    let i := ((Instrument.blank ⟨⟨normal, .ideal⟩, ⟨.ideal, subnormal⟩⟩).put
      (.number (.setpoint l)) 0x3FFF).put (.number (.limit .two .low)) 1
    i.FullSize ∧
      (∃ v : Binary64, ((Query.setpoint l).perform.perform i).value = (.ok (.quantity v), i) ∧
        v.isFinite = true) ∧
      ∃ v : Binary64, ((Query.limit .two .low).perform.perform i).value = (.ok (.quantity v), i) ∧
        v.isNaN = false ∧ v.isFinite = false := by
  intro normal subnormal l i
  have sound : i.Sound := Instrument.put_sound (Instrument.put_sound (Instrument.blank_sound _) _ _) _ _
  have full := sound.fullSize
  have voltage : (Query.setpoint l).voltage? i.calibration = some (.setpoint l, normal) := by
    decide +kernel
  have voltage' : (Query.limit .two .low).voltage? i.calibration =
      some (.limit .two .low, subnormal) := by
    decide +kernel
  obtain ⟨v, read, -, finite, -⟩ := voltages_are_finite_in_normal_range full voltage
  obtain ⟨v', read', number, -, infinite⟩ := voltages_are_finite_in_normal_range full voltage'
  exact ⟨full, ⟨v, read, finite (by decide +kernel) (by decide +kernel)⟩, v', read', number,
    infinite (by decide +kernel) (by decide +kernel)⟩

/-- A reload of the calibration turns half a volt into an infinity: the gain is above zero and finite, so
nothing replaces it. -/
theorem reload_makes_setpoint_infinite :
    let l : Loop := ⟨.one, .one⟩
    let record : Calibration Binary64 := ⟨⟨⟨.ofBits 1, .ofRat 0⟩, .ideal⟩, ⟨.ideal, .ideal⟩⟩
    let i : Instrument Binary64 := (Instrument.blank .ideal).put (.number (.setpoint l)) 8192
    i.FullSize ∧
      ((Query.setpoint l).perform.perform i).value = (.ok (.quantity (.ofRat (1 / 2))), i) ∧
      ∃ after : Instrument Binary64,
        ((Setter.reload record).perform.perform i).value = (.ok (), after) ∧
        ((Query.setpoint l).perform.perform after).value =
          (.ok (.quantity (.infinite false)), after) := by
  intro l record i
  have full : i.FullSize := (Instrument.put_sound (Instrument.blank_sound _) _ _).fullSize
  have full' : ({ i with calibration := record } : Instrument Binary64).FullSize :=
    Instrument.fullSize_recalibrate full record
  have before : i.reading (.setpoint l) = .ofRat (1 / 2) := by decide +kernel
  have infinite : ({ i with calibration := record } : Instrument Binary64).reading (.setpoint l) =
      .infinite false := by decide +kernel
  refine ⟨full, ?_, { i with calibration := record }, ?_, ?_⟩
  · rw [Query.perform_value full, Query.answer, before]
  · exact Setter.perform_of_accepted full rfl
  · rw [Query.perform_value full', Query.answer, infinite]

end LockServo
