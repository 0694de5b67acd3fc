import LockServo.Proofs.Conversion.Order
import LockServo.Proofs.Instrument.Calls

/-!
# Bounds in order

Nothing in the instrument compares a lower bound with the higher one. They stay in order because the
conversions on the way into the registers and back out keep it, under whatever calibration.
-/

namespace LockServo

open Arithmetic Register

/-! ## Calls that spare a place -/

namespace Call

variable {ν : Type} [Arithmetic ν] {i : Instrument ν}

def Spares (call : Call ν) (p : Place) : Prop := ∀ c : Calibration ν, p ∉ (call.stores c).map Prod.fst

theorem after_sound (call : Call ν) (h : i.Sound) : (call.after i).Sound :=
  Instrument.sound_recalibrate (Instrument.putAll_sound _ h) _

theorem value_after_of_spares {call : Call ν} {p : Place} (spares : call.Spares p) (h : i.Sound) :
    (call.after i).value p = i.value p := by
  rw [after, Instrument.value_recalibrate, Instrument.value_putAll_of_not_mem _ h (spares _)]

theorem value_afterAll_of_spares {calls : List (Call ν)} {p : Place}
    (spare : ∀ call ∈ calls, call.Spares p) (h : i.Sound) : (afterAll calls i).value p = i.value p := by
  induction calls generalizing i with
  | nil => rfl
  | cons call rest ih =>
    have first := value_after_of_spares (spare call List.mem_cons_self) h
    exact (ih (fun c later => spare c (List.mem_cons_of_mem call later)) (call.after_sound h)).trans first

theorem afterAll_sound (calls : List (Call ν)) (h : i.Sound) : (afterAll calls i).Sound := by
  induction calls generalizing i with
  | nil => exact h
  | cons call rest ih => exact ih (call.after_sound h)

theorem afterAll_append (calls later : List (Call ν)) (i : Instrument ν) :
    afterAll (calls ++ later) i = afterAll later (afterAll calls i) :=
  List.foldl_append

theorem outcomes_append (calls later : List (Call ν)) (i : Instrument ν) :
    outcomes (calls ++ later) i = outcomes calls i ++ outcomes later (afterAll calls i) := by
  induction calls generalizing i with
  | nil => rfl
  | cons call rest ih => exact congrArg (call.outcome i :: ·) (ih (call.after i))

end Call

/-! ## Pairs of bounds -/

inductive BoundPair where
  | limit (channel : Channel)
  | relock (loop : Loop)
  deriving DecidableEq

namespace BoundPair

variable {ν : Type}

def place : BoundPair → Bound → Place
  | .limit d, b => .number (.limit d b)
  | .relock l, .low => .number (.relockLow l)
  | .relock l, .high => .number (.relockHigh l)

def setter : BoundPair → Bound → ν → Setter ν
  | .limit d, b, v => .limit d b v
  | .relock l, .low, v => .relockLow l v
  | .relock l, .high, v => .relockHigh l v

theorem targets_setter (p : BoundPair) (b : Bound) (v : ν) : (p.setter b v).targets = [p.place b] := by
  cases p <;> cases b <;> rfl

theorem calibrationAfter_setter (p : BoundPair) (b : Bound) (v : ν) (c : Calibration ν) :
    (p.setter b v).calibrationAfter c = c := by
  cases p <;> cases b <;> rfl

theorem place_injective (p : BoundPair) {b b' : Bound} (h : p.place b = p.place b') : b = b' := by
  cases p <;> cases b <;> cases b' <;> first | rfl | cases h

/-! ## Setting both -/

section

variable [Arithmetic ν] {i : Instrument ν} {p : BoundPair} {b : Bound} {v : ν}

def count (p : BoundPair) (c : Calibration ν) (b : Bound) (v : ν) : UInt32 :=
  (p.setter b v).count c (p.place b) &&& (p.place b).mask

theorem calibration_after : ((Call.store (p.setter b v)).after i).calibration = i.calibration :=
  p.calibrationAfter_setter b v i.calibration

theorem outcome_store (accepted : (p.setter b v).refusal? = none) :
    (Call.store (p.setter b v)).outcome i = .ok .done := by
  rw [Call.outcome, accepted]
  rfl

theorem value_after (h : i.Sound) (accepted : (p.setter b v).refusal? = none) (b' : Bound) :
    ((Call.store (p.setter b v)).after i).value (p.place b') =
      if b' = b then p.count i.calibration b v else i.value (p.place b') := by
  have stores : (Call.store (p.setter b v)).stores i.calibration = (p.setter b v).counts i.calibration := by
    rw [Call.stores, accepted]
    rfl
  rw [Call.after, Instrument.value_recalibrate, stores, Setter.value_putAll_counts h, targets_setter]
  by_cases same : b' = b
  · subst same
    rw [if_pos List.mem_cons_self, if_pos rfl, count]
  · have other : p.place b' ∉ [p.place b] := fun member =>
      same (p.place_injective (List.mem_singleton.mp member))
    rw [if_neg other, if_neg same]

variable {volts : Bound → ν}

def calls (p : BoundPair) (volts : Bound → ν) (order : List Bound) : List (Call ν) :=
  order.map fun b => .store (p.setter b (volts b))

theorem outcomes_calls (accepted : ∀ b, (p.setter b (volts b)).refusal? = none) (order : List Bound) :
    Call.outcomes (p.calls volts order) i = order.map fun _ => .ok .done := by
  induction order generalizing i with
  | nil => rfl
  | cons b rest ih =>
    change _ :: Call.outcomes (p.calls volts rest) _ = _
    rw [outcome_store (accepted b), ih]
    rfl

/-- A bound that has been set, or held its count from the start, holds it in the end. -/
theorem value_afterAll (h : i.Sound) (accepted : ∀ b, (p.setter b (volts b)).refusal? = none)
    {order : List Bound} {b : Bound}
    (set : b ∈ order ∨ i.value (p.place b) = p.count i.calibration b (volts b)) :
    (Call.afterAll (p.calls volts order) i).value (p.place b) = p.count i.calibration b (volts b) := by
  induction order generalizing i with
  | nil => exact set.resolve_left List.not_mem_nil
  | cons first rest ih =>
    have one := value_after (v := volts first) h (accepted first) b
    have kept := calibration_after (i := i) (p := p) (b := first) (v := volts first)
    have later := ih ((Call.store (p.setter first (volts first))).after_sound h)
    rw [one, kept] at later
    refine later ?_
    by_cases here : b = first
    · subst here
      exact .inr (if_pos rfl)
    · rw [if_neg here]
      exact set.imp_left fun member => (List.mem_cons.mp member).resolve_left here

end

/-! ## Counts and readings in order -/

variable [Arithmetic ν] [MonotoneRounding ν] {volts : Bound → ν}

theorem count_le (p : BoundPair) (c : Calibration ν) (le : AtMost (volts .low) (volts .high)) :
    p.count c .low (volts .low) ≤ p.count c .high (volts .high) := by
  rw [UInt32.le_iff_toNat_le]
  cases p with
  | limit d =>
    have counts := Scale.count_code_mono (s := Scale.unipolar) (k := c.output.get d)
      (positive_ofNat one_pos (by norm_num)) finite_ofNat_zero le
    rw [Scale.count_of_unsigned _ rfl, Scale.count_of_unsigned _ rfl, Scale.unipolar_mask] at counts
    exact Int.ofNat_le.mp counts
  | relock l =>
    have counts := Span.inputCode_mono le
    rw [← Span.inputCode_and_mask (volts .low), ← Span.inputCode_and_mask (volts .high)] at counts
    exact UInt32.le_iff_toNat_le.mp counts

theorem readings_le (p : BoundPair) {j : Instrument ν} (full : j.FullSize)
    (le : j.value (p.place .low) ≤ j.value (p.place .high)) :
    ∃ x y : ν, ((p.place .low).query.perform.perform j).value = (.ok (.quantity x), j) ∧
      ((p.place .high).query.perform.perform j).value = (.ok (.quantity y), j) ∧ AtMost x y := by
  have low := Place.query_value full (p.place .low)
  have high := Place.query_value full (p.place .high)
  cases p with
  | limit d =>
    refine ⟨_, _, low, high, Scale.decode_le (positive_ofNat one_pos (by norm_num)) finite_ofNat_zero ?_⟩
    have masked : ∀ b, j.value ((limit d).place b) &&& 0x3FFF = j.value ((limit d).place b) := fun b =>
      Instrument.value_and_mask _
    rw [Scale.unipolar_count (masked .low), Scale.unipolar_count (masked .high)]
    exact_mod_cast UInt32.le_iff_toNat_le.mp le
  | relock l => exact ⟨_, _, low, high, Span.slowInput_fromZero.voltage_le le⟩

end BoundPair

/-- No conversion takes the larger argument to the smaller result. So a pair of bounds given in order is held in
order, whichever was set first, and read in order under every calibration that comes later. -/
theorem conversions_preserve_order {ν : Type} [Arithmetic ν] [MonotoneRounding ν] :
    (∀ (s : Scale ν) (k : Correction ν) {u : ν}, Positive s.fullScale → isFinite u = true →
      (∀ {v w : ν} {m n : UInt32}, AtMost v w → (s.encode k u v).run.value = .ok m →
        (s.encode k u w).run.value = .ok n → s.count m ≤ s.count n) ∧
      ∀ {m n : UInt32}, s.count m ≤ s.count n → AtMost (s.decode k u m).value (s.decode k u n).value) ∧
    (∀ {factor : ν}, Positive factor →
      (∀ {quantity : Quantity} {mask : UInt32} {v w : ν} {m n : UInt32}, AtMost v w →
        (Gain.encode quantity factor mask v).run.value = .ok m →
        (Gain.encode quantity factor mask w).run.value = .ok n → m ≤ n) ∧
      ∀ {m n : UInt32}, m ≤ n → AtMost (Gain.decode factor m) (Gain.decode factor n)) ∧
    (∀ {v w : ν} {m n : UInt32}, AtMost v w → (Span.encodeInput v).run.value = .ok m →
      (Span.encodeInput w).run.value = .ok n → m ≤ n) ∧
    (∀ {v w : ν} {m n : UInt32}, AtMost v w → (Span.encodeOutput v).run.value = .ok m →
      (Span.encodeOutput w).run.value = .ok n → m ≤ n) ∧
    (∀ {m n : UInt32}, m ≤ n →
      AtMost (Span.slowInput.voltage m : ν) (Span.slowInput.voltage n) ∧
      AtMost (Span.slowOutput.voltage m : ν) (Span.slowOutput.voltage n)) ∧
    ∀ {i : Instrument ν} (p : BoundPair) {volts : Bound → ν} {order : List Bound} {later : List (Call ν)},
      i.Sound → AtMost (volts .low) (volts .high) → (∀ b, (p.setter b (volts b)).refusal? = none) →
      (∀ b, b ∈ order) → (∀ call ∈ later, ∀ b, call.Spares (p.place b)) →
      ∃ (answers : List (Except (Fault ν) (Answer ν))) (final : Instrument ν) (x y : ν),
        (Call.run (p.calls volts order ++ later) i).value =
          (order.map (fun _ => .ok .done) ++ answers, final) ∧
        final.value (p.place .low) ≤ final.value (p.place .high) ∧
        ((p.place .low).query.perform.perform final).value = (.ok (.quantity x), final) ∧
        ((p.place .high).query.perform.perform final).value = (.ok (.quantity y), final) ∧
        AtMost x y := by
  refine ⟨?_, ?_, ?_, ?_, ?_, ?_⟩
  · intro s k u positive finite
    exact ⟨fun le first second => Scale.encode_le positive finite le first second,
      Scale.decode_le positive finite⟩
  · intro factor positive
    exact ⟨fun le first second => Gain.encode_le positive le first second, Gain.decode_le positive⟩
  · intro v w m n le first second
    exact Span.encodeInput_le le first second
  · intro v w m n le first second
    exact Span.encodeOutput_le le first second
  · intro m n le
    exact ⟨Span.slowInput_fromZero.voltage_le le, Span.slowOutput_fromZero.voltage_le le⟩
  · intro i p volts order later sound le accepted both spared
    let written := Call.afterAll (p.calls volts order) i
    let final := Call.afterAll later written
    have writtenSound : written.Sound := Call.afterAll_sound _ sound
    have held : ∀ b, final.value (p.place b) = p.count i.calibration b (volts b) := fun b =>
      (Call.value_afterAll_of_spares (fun call member => spared call member b) writtenSound).trans
        (BoundPair.value_afterAll sound accepted (.inl (both b)))
    have ordered : final.value (p.place .low) ≤ final.value (p.place .high) := by
      rw [held, held]
      exact p.count_le i.calibration le
    have full : final.FullSize := (Call.afterAll_sound later writtenSound).fullSize
    obtain ⟨x, y, low, high, read⟩ := p.readings_le full ordered
    have ran := Call.run_value (p.calls volts order ++ later) sound.fullSize
    rw [Call.outcomes_append, BoundPair.outcomes_calls accepted, Call.afterAll_append] at ran
    exact ⟨_, final, x, y, ran, ordered, low, high, read⟩

/-- A voltage below every count and one past the last keep their order under a record that is no correction. So do
limits whose upper bound is infinite, set first, after the gain that they were set under has been replaced. -/
theorem conversions_preserve_order_at_the_ends :
    let s : Scale Binary64 := ⟨31, .ofRat (1 / 3), true, by decide, by decide⟩
    let k : Correction Binary64 := ⟨.nan true, .infinite true⟩
    let steep : Correction Binary64 := ⟨.ofRat 3, .ofRat (-1 / 8)⟩
    let i : Instrument Binary64 := .blank ⟨⟨.ideal, .ideal⟩, ⟨.ideal, steep⟩⟩
    let volts : Bound → Binary64 := fun b => if b = .low then .ofRat (1 / 8) else .infinite false
    let later : List (Call Binary64) := [.ask .capture, .exchange ⟨⟨.ideal, .ideal⟩, ⟨.ideal, k⟩⟩]
    let p : BoundPair := .limit .two
    (∃ m n : UInt32, (s.encode k (.ofRat 7) (.infinite true)).run.value = .ok m ∧
      (s.encode k (.ofRat 7) (.ofRat 8)).run.value = .ok n ∧
      s.count m = -0x40000000 ∧ s.count n = 0x3FFFFFFF ∧ s.count m ≤ s.count n) ∧
    ∃ (answers : List (Except (Fault Binary64) (Answer Binary64))) (final : Instrument Binary64)
      (x y : Binary64),
      (Call.run (p.calls volts [.high, .low] ++ later) i).value =
        ([.ok .done, .ok .done] ++ answers, final) ∧
      final.value (p.place .low) ≤ final.value (p.place .high) ∧
      ((p.place .low).query.perform.perform final).value = (.ok (.quantity x), final) ∧
      ((p.place .high).query.perform.perform final).value = (.ok (.quantity y), final) ∧
      AtMost x y := by
  intro s k steep i volts later p
  obtain ⟨scales, -, -, -, -, bounds⟩ := conversions_preserve_order (ν := Binary64)
  have below : AtMost (Binary64.infinite true) (.ofRat 8) := by
    unfold AtMost
    decide +kernel
  have lowest : (s.encode k (.ofRat 7) (.infinite true)).run.value = .ok 0x40000000 := by decide +kernel
  have highest : (s.encode k (.ofRat 7) (.ofRat 8)).run.value = .ok 0x3FFFFFFF := by decide +kernel
  have positive : Positive s.fullScale := by
    unfold Positive
    decide +kernel
  have encoded := (scales s k (u := .ofRat 7) positive (by decide +kernel)).1 below lowest highest
  refine ⟨⟨_, _, lowest, highest, by decide +kernel, by decide +kernel, encoded⟩, ?_⟩
  have ordered : AtMost (volts .low) (volts .high) := by
    unfold AtMost
    decide +kernel
  have accepted : ∀ b, (p.setter b (volts b)).refusal? = none := by
    rintro (_ | _) <;> decide +kernel
  have spared : ∀ call ∈ later, ∀ b, call.Spares (p.place b) := by
    simp [later, Call.Spares, Call.stores]
  exact bounds p (Instrument.blank_sound _) ordered accepted (by rintro (_ | _) <;> decide) spared

end LockServo
