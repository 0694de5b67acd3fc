import LockServo.Proofs.Conversion.Clamping
import LockServo.Proofs.Instrument.Refusals
import LockServo.Proofs.ParameterSet.Drift

/-!
# Clamped values are reported

No setter for a physical quantity clamps its value in silence. In exact arithmetic the value read back
is near the one that was set unless there was a warning, and there is a warning only for a value outside
the field.
-/

namespace LockServo

open Arithmetic Register

/-! ## What a setter reports -/

namespace Setter

variable {ν : Type} [Arithmetic ν]

def overshoot? (c : Calibration ν) : Setter ν → Option Event
  | .setpoint l v => unipolar (c.input.get l.input) v
  | .limit d _ v => unipolar (c.output.get d) v
  | .proportional l v => Gain.overshoot? (ofRat Gain.proportionalFactor) (Field.proportional l).mask v
  | .integral l v => Gain.overshoot? (ofRat Gain.integralFactor) (Field.integral l).mask v
  | .relockStep l v => Gain.overshoot? (ofRat Gain.stepFactor) (Field.relockStep l).mask v
  | .relockLow _ v | .relockHigh _ v => Span.inputOvershoot? v
  | .pinValue _ v => Span.outputOvershoot? v
  | .derivative .. | .feature .. | .features .. | .relockPin .. | .relockCode .. | .resetPins
  | .reload _ => none
where
  unipolar (k : Correction ν) (v : ν) : Option Event :=
    Scale.unipolar.overshoot? (roundAway (Scale.unipolar.place k (ofNat 0) v))

omit [Arithmetic ν] in
theorem saturations_stored (p : Place) (parameter : Parameter) (count : Conversion ν UInt32) :
    saturations (stored p parameter count).run = saturations count.run := by
  rw [stored, ExceptT.run_bind, saturations_bind]
  cases count.run.value with
  | ok n => exact List.append_nil _
  | error fault => exact List.append_nil _

theorem saturations_stores (c : Calibration ν) (s : Setter ν) : saturations (s.stores c).run =
    match s.refusal? with
    | some _ => []
    | none => (s.overshoot? c).toList := by
  have converted : ∀ {refused : Bool} {fault : Fault ν} {p : Place} {event? : Option Event}
      {parameter : Parameter} {count : Conversion ν UInt32},
      saturations count.run = (if refused then [] else event?.toList) →
      saturations (stored p parameter count).run =
        match (if refused then some fault else none) with
        | some _ => []
        | none => event?.toList := by
    intro refused fault p event? parameter count h
    rw [saturations_stored, h]
    cases refused <;> rfl
  cases s with
  | setpoint l v => exact converted (Scale.unipolar.saturations_encode _ _ v)
  | proportional l v => exact converted (Gain.saturations_encode _ _ _ v)
  | integral l v => exact converted (Gain.saturations_encode _ _ _ v)
  | relockStep l v => exact converted (Gain.saturations_encode _ _ _ v)
  | relockLow l v => exact converted (Span.saturations_encodeInput v)
  | relockHigh l v => exact converted (Span.saturations_encodeInput v)
  | limit d b v => exact converted (Scale.unipolar.saturations_encode _ _ v)
  | pinValue p v =>
    cases p with
    | input k => rfl
    | output k => exact converted (Span.saturations_encodeOutput v)
  | relockPin l p => cases p <;> rfl
  | relockCode l n =>
    rcases Nat.lt_or_ge n 8 with known | beyond
    · interval_cases n <;> rfl
    · rw [refusal?_relockCode_of_le l beyond, stores, Pin.ofCode_of_le beyond]
      rfl
  | derivative | feature | features | resetPins | reload => rfl

theorem saturations_perform {i : Instrument ν} (h : i.FullSize) (s : Setter ν) :
    saturations (s.perform.perform i) =
      match s.refusal? with
      | some _ => []
      | none => (s.overshoot? i.calibration).toList := by
  rw [s.perform_eq h, saturations_map, saturations_stores]

theorem nonneg_of_unsigned {quantity : Quantity} {v : ℚ} (h : refusal?.unsigned quantity v = none) :
    0 ≤ v := by
  rw [refusal?.unsigned] at h
  split at h
  · cases h
  · exact nonneg_of_accepted (Bool.eq_false_iff.mpr ‹_›)

end Setter

/-! ## Decoding -/

theorem Correction.decode_eq (k : Correction ℚ) {n : UInt32} (masked : n &&& 0x3FFF = n) :
    (Scale.unipolar.decode k (ofNat 0) n).value =
      max 0 (k.sanitized.offset + n.toNat * (1 / (k.sanitized.gain * 2 ^ 14))) := by
  have clamped : clampNonNegative (k.volts n) = max 0 (k.volts n) :=
    Option.some.inj (toRat?_clampNonNegative (ν := ℚ) rfl)
  rw [Scale.unipolar_decode_value, volts_eq masked, clamped, volts, mul_one_div, add_comm]

theorem Gain.decode_eq {factor : ℚ} (positive : 0 < factor) (n : UInt32) :
    decode factor n = max 0 (0 + n.toNat * (1 / factor)) := by
  have counted : (0 : ℚ) ≤ n.toNat := Nat.cast_nonneg _
  rw [zero_add, mul_one_div, max_eq_right (by positivity)]
  rfl

theorem Span.voltage_eq {s : Span} {high top : ℚ} (hl : s.low = 0) (hh : s.high = high)
    (ht : s.top = top) (nonneg : 0 ≤ high) (n : UInt32) :
    s.voltage n = max 0 (0 + n.toNat * (high / top)) := by
  have counted : (0 : ℚ) ≤ n.toNat := Nat.cast_nonneg _
  have value : (s.voltage n : ℚ) = n.toNat / s.top * (s.high - s.low) + s.low := rfl
  rw [value, hl, hh, ← ht, zero_add, max_eq_right (by positivity)]
  ring

/-! ## Physical places -/

namespace Register.Place

def setter? {ν : Type} (v : ν) : Place → Option (Setter ν)
  | .number (.setpoint l) _ => some (.setpoint l v)
  | .number (.proportional l) _ => some (.proportional l v)
  | .number (.integral l) _ => some (.integral l v)
  | .number (.relockLow l) _ => some (.relockLow l v)
  | .number (.relockHigh l) _ => some (.relockHigh l v)
  | .number (.relockStep l) _ => some (.relockStep l v)
  | .number (.limit d b) _ => some (.limit d b v)
  | .number (.slowOutput k) _ => some (.pinValue (.output k) v)
  | _ => none

def truncates : Place → Bool
  | .number (.relockLow _) _ | .number (.relockHigh _) _ | .number (.slowOutput _) _ => true
  | _ => false

variable (c : Calibration ℚ)

/-- What one count is worth. -/
def countSize : Place → ℚ
  | .number (.setpoint l) _ => 1 / ((c.input.get l.input).sanitized.gain * 2 ^ 14)
  | .number (.limit d _) _ => 1 / ((c.output.get d).sanitized.gain * 2 ^ 14)
  | .number (.proportional _) _ => 1 / Gain.proportionalFactor
  | .number (.integral _) _ => 1 / Gain.integralFactor
  | .number (.relockStep _) _ => 1 / Gain.stepFactor
  | .number (.relockLow _) _ | .number (.relockHigh _) _ => 7 / 4095
  | .number (.slowOutput _) _ => Span.slowOutput.high / 156
  | _ => 1

/-- What a count of zero stands for. -/
def origin (p : Place) : ℚ :=
  match p.correction? c with
  | some k => k.sanitized.offset
  | none => 0

/-- The real number of counts that a value is worth. -/
def idealCount (p : Place) (v : ℚ) : ℚ := (v - p.origin c) / p.countSize c

def Near (p : Place) (v w : ℚ) : Prop :=
  if p.truncates then |w - v| < p.countSize c else |w - v| ≤ p.countSize c / 2

def Outside : Place → ℚ → Prop
  | .number (.relockLow _) _, q | .number (.relockHigh _) _, q => q < 0 ∨ 4096 ≤ q
  | .number (.slowOutput _) _, q => 156 < q
  | p, q => q ≤ -1 / 2 ∨ p.mask.toNat + 1 / 2 ≤ q

variable {c}

theorem countSize_pos (p : Place) : 0 < p.countSize c := by
  have corrected : ∀ k : Correction ℚ, 0 < 1 / (k.sanitized.gain * 2 ^ 14) := fun k =>
    one_div_pos.mpr (mul_pos k.gain_pos (by norm_num))
  cases p with
  | switch => exact one_pos
  | number f adjustable =>
    cases f with
    | setpoint | limit => exact corrected _
    | proportional | integral | relockStep => exact one_div_pos.mpr (by decide +kernel)
    | relockLow | relockHigh => norm_num [countSize]
    | slowOutput => exact div_pos (by decide +kernel) (by norm_num)
    | derivative | relockPin => exact one_pos
    | features | slowInput | fastInput | fastOutput => cases adjustable

/-- Physical quantities are read off a line over the counts, from zero on. -/
theorem quantity_eq {f : Field} {adjustable : f.isAdjustable = true} {v : ℚ} {s : Setter ℚ}
    (hs : (number f adjustable).setter? v = some s) {n : UInt32} (masked : n &&& f.mask = n) :
    f.quantity c n =
      max 0 ((number f adjustable).origin c + n.toNat * (number f adjustable).countSize c) := by
  cases f with
  | setpoint | limit => exact Correction.decode_eq _ masked
  | proportional | integral | relockStep => exact Gain.decode_eq (by decide +kernel) n
  | relockLow | relockHigh | slowOutput => exact Span.voltage_eq rfl rfl rfl (by decide +kernel) n
  | derivative | relockPin => cases hs
  | features | slowInput | fastInput | fastOutput => cases adjustable

/-! ## Counts and ideal counts -/

def NearCount (p : Place) (n : UInt32) (q : ℚ) : Prop :=
  if p.truncates then |(n.toNat : ℚ) - q| < 1 else |(n.toNat : ℚ) - q| ≤ 1 / 2

theorem near_of_nearCount {p : Place} {v : ℚ} {n : UInt32} (sign : 0 ≤ v ∨ p.origin c = 0)
    (near : p.NearCount n (p.idealCount c v)) :
    p.Near c v (max 0 (p.origin c + n.toNat * p.countSize c)) := by
  have positive := p.countSize_pos (c := c)
  have counted : (0 : ℚ) ≤ n.toNat := Nat.cast_nonneg _
  have error : |max 0 (p.origin c + n.toNat * p.countSize c) - v| ≤
      |(n.toNat : ℚ) - p.idealCount c v| * p.countSize c := by
    have line : p.origin c + n.toNat * p.countSize c - v =
        ((n.toNat : ℚ) - p.idealCount c v) * p.countSize c := by
      rw [sub_mul, idealCount, div_mul_cancel₀ _ positive.ne']
      ring
    have above : 0 ≤ v ∨ 0 ≤ p.origin c + n.toNat * p.countSize c := by
      refine sign.imp_right fun zero => ?_
      rw [zero, zero_add]
      positivity
    calc _ ≤ |p.origin c + n.toNat * p.countSize c - v| := abs_max_sub_le above
      _ = |(n.toNat : ℚ) - p.idealCount c v| * p.countSize c := by
        rw [line, abs_mul, abs_of_pos positive]
  unfold NearCount at near
  unfold Near
  split at near
  · rw [if_pos ‹_›]
    calc _ ≤ _ := error
      _ < 1 * p.countSize c := by gcongr
      _ = p.countSize c := one_mul _
  · rw [if_neg ‹_›]
    calc _ ≤ _ := error
      _ ≤ 1 / 2 * p.countSize c := by gcongr
      _ = p.countSize c / 2 := by ring

/-- Only a relock bound may be below zero, and its counts start at zero. -/
theorem nonneg_or_origin_eq {p : Place} {v : ℚ} {s : Setter ℚ} (hs : p.setter? v = some s)
    (accepted : s.refusal? = none) : 0 ≤ v ∨ p.origin c = 0 := by
  cases p with
  | switch => exact .inr rfl
  | number f adjustable =>
    cases f with
    | setpoint | limit =>
      cases hs
      exact .inl (Setter.nonneg_of_unsigned accepted)
    | _ => exact .inr rfl

theorem faithful_of_correction (k : Correction ℚ) {v q : ℚ}
    (ideal : q = (v - k.sanitized.offset) / (1 / (k.sanitized.gain * 2 ^ 14))) :
    Faithful (Setter.overshoot?.unipolar k v)
      (|((Scale.unipolar.code k (ofNat 0) v &&& 0x3FFF).toNat : ℚ) - q| ≤ 1 / 2)
      (q ≤ -1 / 2 ∨ ((0x3FFF : UInt32).toNat : ℚ) + 1 / 2 ≤ q) := by
  have place : q = Scale.unipolar.place k (ofNat 0) v := by
    rw [ideal, Correction.place_eq, div_div_eq_mul_div, div_one, mul_assoc]
  have top : ((0x3FFF : UInt32).toNat : ℚ) = 16383 := rfl
  rw [place, Scale.code_and_mask, top]
  exact Scale.unipolar_faithful k v

theorem faithful_of_factor {factor v q : ℚ} (ideal : q = (v - 0) / (1 / factor))
    (positive : 0 < factor) (nonneg : 0 ≤ v) :
    Faithful (Gain.overshoot? factor 0xFFFFFF v)
      (|((Gain.code factor 0xFFFFFF v &&& 0xFFFFFF).toNat : ℚ) - q| ≤ 1 / 2)
      (q ≤ -1 / 2 ∨ ((0xFFFFFF : UInt32).toNat : ℚ) + 1 / 2 ≤ q) := by
  have above := mul_nonneg nonneg positive.le
  rw [ideal, sub_zero, div_div_eq_mul_div, div_one, Gain.code_and_mask above]
  exact (Gain.faithful above).imp id .inr

theorem faithful_of_bound {v q : ℚ} (ideal : q = (v - 0) / (7 / 4095)) :
    Faithful (Span.inputOvershoot? v) (|((Span.inputCode v &&& 0xFFF).toNat : ℚ) - q| < 1)
      (q < 0 ∨ 4096 ≤ q) := by
  have position : q = Span.slowInput.position v := by
    change q = (v - (0 : ℚ)) / ((7 : ℚ) - 0) * ((4095 : ℕ) : ℚ)
    rw [ideal, sub_zero, sub_zero, div_div_eq_mul_div, div_mul_eq_mul_div, Nat.cast_ofNat]
  rw [position, Span.inputCode_and_mask]
  exact Span.input_faithful v

theorem faithful_of_output {v q : ℚ} (ideal : q = (v - 0) / (Span.slowOutput.high / 156))
    (nonneg : 0 ≤ v) :
    Faithful (Span.outputOvershoot? v) (|((Span.outputCode v &&& 0xFF).toNat : ℚ) - q| < 1)
      (156 < q) := by
  have high : 0 < Span.slowOutput.high := by decide +kernel
  have position : q = Span.slowOutput.position v := by
    change q = (v - (0 : ℚ)) / (Span.slowOutput.high - 0) * ((156 : ℕ) : ℚ)
    rw [ideal, sub_zero, sub_zero, div_div_eq_mul_div, Nat.cast_ofNat, div_mul_eq_mul_div]
  have above : 0 ≤ Span.slowOutput.position v := by
    rw [← position, ideal, sub_zero]
    exact div_nonneg nonneg (div_nonneg high.le (by norm_num))
  rw [position, Span.outputCode_and_mask above]
  exact Span.output_faithful above

/-- The event of an accepted setter is right about the count that it stores. -/
theorem faithful {p : Place} {v : ℚ} {s : Setter ℚ} (hs : p.setter? v = some s)
    (accepted : s.refusal? = none) :
    Faithful (s.overshoot? c) (p.NearCount (s.count c p &&& p.mask) (p.idealCount c v))
      (p.Outside (p.idealCount c v)) := by
  cases p with
  | switch => cases hs
  | number f adjustable =>
    cases f with
    | setpoint | limit =>
      cases hs
      exact faithful_of_correction _ rfl
    | proportional | integral | relockStep =>
      cases hs
      exact faithful_of_factor rfl (by decide +kernel) (Setter.nonneg_of_unsigned accepted)
    | relockLow | relockHigh =>
      cases hs
      exact faithful_of_bound rfl
    | slowOutput =>
      cases hs
      exact faithful_of_output rfl (Setter.nonneg_of_unsigned accepted)
    | derivative | relockPin => cases hs
    | features | slowInput | fastInput | fastOutput => cases adjustable

end Register.Place

theorem Instrument.value_put_self {ν : Type} {i : Instrument ν} (h : i.FullSize) (p : Place)
    (count : UInt32) : (i.put p count).value p = count &&& p.mask := by
  rw [value, put, word_setWord_self h p.field.isWord, Place.read_write]

theorem Setter.counts_of_setter? {ν : Type} [Arithmetic ν] {c : Calibration ν} {p : Place} {v : ν}
    {s : Setter ν} (hs : p.setter? v = some s) :
    s.counts c = [(p, s.count c p)] ∧ s.calibrationAfter c = c := by
  cases p with
  | switch => cases hs
  | number f adjustable => cases f <;> cases hs <;> exact ⟨rfl, rfl⟩

theorem Register.Place.query_of_setter? {i : Instrument ℚ} (h : i.FullSize) {p : Place} {v : ℚ}
    {s : Setter ℚ} (hs : p.setter? v = some s) :
    (p.query.perform.perform i).value =
      (.ok (.quantity (max 0 (p.origin i.calibration + (i.value p).toNat * p.countSize i.calibration))),
        i) := by
  cases p with
  | switch => cases hs
  | number f adjustable =>
    have masked : i.value (.number f adjustable) &&& f.mask = i.value (.number f adjustable) :=
      Instrument.value_and_mask _
    rw [Place.query_value h, ← Place.quantity_eq hs masked]
    cases f with
    | derivative | relockPin => cases hs
    | _ => rfl

/-- A refused setter reports no saturation. An accepted one reports it at most once: without a report the
value read back is near the one that was set, and with one the value lies outside the field. -/
theorem clamping_is_reported {i : Instrument ℚ} (h : i.FullSize) :
    (∀ e : Event, e.isSaturation = true ↔
      e.severity = .warn ∧ "saturating".toList <:+ e.message.toList) ∧
    (∀ (s : Setter ℚ) (fault : Fault ℚ), s.refusal? = some fault →
      (s.perform.perform i).value.1 = .error fault ∧ saturations (s.perform.perform i) = []) ∧
    ∀ (p : Place) (v : ℚ) (s : Setter ℚ), p.setter? v = some s → s.refusal? = none →
      ∃ (after : Instrument ℚ) (w : ℚ), (s.perform.perform i).value = (.ok (), after) ∧
        (p.query.perform.perform after).value = (.ok (.quantity w), after) ∧
        (saturations (s.perform.perform i)).length ≤ 1 ∧
        (saturations (s.perform.perform i) = [] → p.Near i.calibration v w) ∧
        (saturations (s.perform.perform i) ≠ [] → p.Outside (p.idealCount i.calibration v)) := by
  refine ⟨Event.isSaturation_iff, ?_, ?_⟩
  · intro s fault refused
    rw [Setter.saturations_perform h, Setter.perform_of_refused h refused, refused]
    exact ⟨rfl, rfl⟩
  · intro p v s hs accepted
    obtain ⟨stored, keeps⟩ := Setter.counts_of_setter? (c := i.calibration) hs
    have performed := Setter.perform_of_accepted h accepted
    rw [Setter.settle_eq_putAll keeps, stored] at performed
    have full := Instrument.put_fullSize h p (s.count i.calibration p)
    have read := Place.query_of_setter? full hs
    rw [Instrument.value_put_self h, Instrument.put_calibration] at read
    have reported := Setter.saturations_perform h s
    rw [accepted] at reported
    have faithful := Place.faithful (c := i.calibration) hs accepted
    refine ⟨_, _, performed, read, ?_, ?_, ?_⟩
    · rw [reported]
      exact Option.length_toList_le
    · intro silent
      rw [reported, Option.toList_eq_nil_iff] at silent
      exact Place.near_of_nearCount (Place.nonneg_or_origin_eq hs accepted) (faithful.near silent)
    · intro some
      rw [reported, ne_eq, Option.toList_eq_nil_iff] at some
      exact faithful.outside some

/-- Just below one volt the last count is near enough; at one volt it no longer is, and below zero
nothing is stored. -/
theorem clamping_is_reported_around_the_last_count :
    let i : Instrument ℚ := .blank .ideal
    let l : Loop := ⟨.one, .two⟩
    let p : Place := .number (.setpoint l)
    let below : ℚ := (16383 + 1 / 3) / 16384
    i.FullSize ∧ saturations ((Setter.setpoint l (-1)).perform.perform i) = [] ∧
      (∃ (after : Instrument ℚ) (w : ℚ),
        ((Setter.setpoint l below).perform.perform i).value = (.ok (), after) ∧
        (p.query.perform.perform after).value = (.ok (.quantity w), after) ∧
        p.Near i.calibration below w) ∧
      p.Outside (p.idealCount i.calibration 1) := by
  intro i l p below
  have full : i.FullSize := Instrument.blank_fullSize _
  obtain ⟨-, refused, accepted⟩ := clamping_is_reported full
  have silent : saturations ((Setter.setpoint l below).perform.perform i) = [] := by decide +kernel
  have warned : saturations ((Setter.setpoint l 1).perform.perform i) ≠ [] := by decide +kernel
  obtain ⟨after, w, set, read, -, near, -⟩ := accepted p below (.setpoint l below) rfl (by decide +kernel)
  obtain ⟨-, -, -, -, -, -, outside⟩ := accepted p 1 (.setpoint l 1) rfl (by decide +kernel)
  exact ⟨full, (refused (.setpoint l (-1)) _ rfl).2, ⟨after, w, set, read, near silent⟩,
    outside warned⟩

end LockServo
