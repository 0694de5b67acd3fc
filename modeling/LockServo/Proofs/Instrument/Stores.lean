import LockServo.Call
import LockServo.Proofs.Instrument.Actions
import LockServo.Proofs.Instrument.Switches

/-!
# What setters store

A setter as data: the counts that it puts into places under the calibration in force, or why it
refuses. The main statement: performing a setter on full-size blocks does exactly that, reports on the
way included, and a refusal changes nothing.
-/

namespace LockServo

open Arithmetic Register

variable {ν : Type}

namespace Setter

def stored (p : Place) (parameter : Parameter) (count : Conversion ν UInt32) :
    Conversion ν (List (Place × UInt32)) := do
  let n ← count
  report (.setting parameter)
  return [(p, n)]

def stores [Arithmetic ν] (c : Calibration ν) : Setter ν → Conversion ν (List (Place × UInt32))
  | .setpoint l v =>
    stored (.number (.setpoint l)) .setpoint
      (Scale.unipolar.encode (c.input.get l.input) (ofNat 0) v)
  | .proportional l v =>
    stored (.number (.proportional l)) .proportional
      (Gain.encode .proportional (ofRat Gain.proportionalFactor) (Field.proportional l).mask v)
  | .integral l v =>
    stored (.number (.integral l)) .integral
      (Gain.encode .integral (ofRat Gain.integralFactor) (Field.integral l).mask v)
  | .derivative l n => stored (.number (.derivative l)) .derivative (pure n)
  | .feature l f on => stored (.switch l f) .feature (pure (level on))
  | .features l s => do
    report (.setting .features)
    return Feature.all.map fun f => (.switch l f, level (s.contains f))
  | .relockLow l v => stored (.number (.relockLow l)) .relockLow (Span.encodeInput v)
  | .relockHigh l v => stored (.number (.relockHigh l)) .relockHigh (Span.encodeInput v)
  | .relockStep l v =>
    stored (.number (.relockStep l)) .relockStep
      (Gain.encode .relockStep (ofRat Gain.stepFactor) (Field.relockStep l).mask v)
  | .relockPin l p => watched l p
  | .relockCode l n =>
    match Pin.ofCode n with
    | .ok p => watched l p
    | .error fault => throw (.outOfRange fault)
  | .limit d b v =>
    stored (.number (.limit d b)) .limit (Scale.unipolar.encode (c.output.get d) (ofNat 0) v)
  | .pinValue (.output k) v =>
    stored (.number (.slowOutput k)) .analogOutput (Span.encodeOutput v)
  | .pinValue (.input k) _ => throw (.outOfRange ⟨.outputPin, (Pin.input k).code⟩)
  | .resetPins => do
    report .outputsReset
    return (List.finRange 4).map fun k => (.number (.slowOutput k), 0)
  | .reload _ => do
    report .calibrationReloaded
    return []
where
  watched (l : Loop) : Pin → Conversion ν (List (Place × UInt32))
    | .input k => stored (.number (.relockPin l)) .relockPin (pure (UInt32.ofNat k))
    | .output k => throw (.outOfRange ⟨.relockPin, (Pin.output k).code⟩)

def calibrationAfter (c : Calibration ν) : Setter ν → Calibration ν
  | .reload record => record
  | _ => c

def settle (s : Setter ν) (i : Instrument ν) (stores : List (Place × UInt32)) : Instrument ν :=
  { i.putAll stores with calibration := s.calibrationAfter i.calibration }

def result (s : Setter ν) (i : Instrument ν) :
    Except (Fault ν) (List (Place × UInt32)) → Except (Fault ν) Unit × Instrument ν
  | .ok stores => (.ok (), s.settle i stores)
  | .error fault => (.error fault, i)

end Setter

theorem Setter.settle_eq_putAll {s : Setter ν} {i : Instrument ν}
    (keeps : s.calibrationAfter i.calibration = i.calibration) (stores : List (Place × UInt32)) :
    s.settle i stores = i.putAll stores := by
  rw [settle, keeps, ← Instrument.putAll_calibration stores i]

namespace Action

variable {i : Instrument ν} {s : Setter ν}

/-! ## The shapes that setters share -/

theorem perform_reported (keeps : s.calibrationAfter i.calibration = i.calibration) {p : Place}
    {n : UInt32} {write : Action ν Unit} (hw : write.perform i = pure (.ok (), i.put p n))
    (parameter : Parameter) :
    (do ofReporting (report (.setting parameter)); write : Action ν Unit).perform i =
      s.result i <$> (Setter.stored p parameter (pure n)).run := by
  have settles : s.settle i [(p, n)] = i.put p n := Setter.settle_eq_putAll keeps _
  rw [perform_bind, perform_ofReporting]
  simp only [hw, map_eq_pure_bind, bind_assoc, pure_bind, ← settles]
  rfl

theorem perform_converted (keeps : s.calibrationAfter i.calibration = i.calibration) {p : Place}
    {write : UInt32 → Action ν Unit} (hw : ∀ n, (write n).perform i = pure (.ok (), i.put p n))
    (parameter : Parameter) (count : Conversion ν UInt32) :
    (do let n ← ofConversion count; ofReporting (report (.setting parameter)); write n).perform i =
      s.result i <$> (Setter.stored p parameter count).run := by
  rw [perform_bind, perform_ofConversion, Setter.stored, ExceptT.run_bind, map_bind,
    map_eq_pure_bind, bind_assoc]
  congr 1
  funext outcome
  cases outcome with
  | error fault => rfl
  | ok n =>
    rw [pure_bind]
    exact perform_reported keeps (hw n) parameter

theorem perform_forM {β : Type} {f : β → Action ν Unit} {store : β → Place × UInt32}
    (hf : ∀ (x : β) {j : Instrument ν}, j.FullSize →
      (f x).perform j = pure (.ok (), j.put (store x).1 (store x).2))
    (h : i.FullSize) (xs : List β) :
    (xs.forM f).perform i = pure (.ok (), i.putAll (xs.map store)) := by
  induction xs generalizing i with
  | nil => rfl
  | cons x rest ih =>
    change (f x >>= fun _ => rest.forM f).perform i = _
    rw [perform_bind_of_ok (hf x h), ih (Instrument.put_fullSize h _ _)]
    rfl

/-! ## Changes of the feature word -/

theorem perform_updateSwitch (h : i.FullSize) (l : Loop) (f : Feature) (on : Bool) :
    (update Field.features.block fun v =>
      let change := if on then v.setBits else v.clearBits
      change Field.features.offset (featureBit l f) Field.features.mask).perform i =
      pure (.ok (), i.put (.switch l f) (level on)) := by
  have inside := i.isWord_window h Field.features.isWord
  rw [Instrument.put, Instrument.setWord]
  apply perform_update_of_ok
  cases on with
  | false =>
    rw [Place.write_switch_eq_clearBits]
    exact View.clearBits_of_isWord inside _ _
  | true =>
    rw [Place.write_switch_eq_setBits]
    exact View.setBits_of_isWord inside _ _

theorem putAll_switches (h : i.FullSize) (l : Loop) (on : Feature → Bool) (fs : List Feature)
    (word : UInt32) :
    (i.setWord Field.features.block Field.features.offset word).putAll
        (fs.map fun f => (.switch l f, level (on f))) =
      i.setWord Field.features.block Field.features.offset (writeSwitches l on fs word) := by
  induction fs generalizing word with
  | nil => rfl
  | cons f rest ih =>
    have step : (i.setWord Field.features.block Field.features.offset word).put (.switch l f)
        (level (on f)) = i.setWord Field.features.block Field.features.offset
          ((Place.switch l f).write word (level (on f))) := by
      change (i.setWord Field.features.block Field.features.offset word).setWord
        Field.features.block Field.features.offset _ = _
      rw [Instrument.setWord_setWord]
      exact congrArg _ (congrArg (Place.write _ · _) (Instrument.word_setWord_self h Field.features.isWord word))
    change Instrument.putAll (Instrument.put _ (.switch l f) (level (on f))) _ = _
    rw [step, ih]
    rfl

theorem perform_updateSwitches (h : i.FullSize) (l : Loop) (on : Feature → Bool) :
    (update Field.features.block fun v =>
      return (← v.modify Field.features.offset fun word =>
        (word &&& ~~~featureMask l (!on ·)) ||| featureMask l on).2).perform i =
      pure (.ok (), i.putAll (Feature.all.map fun f => (.switch l f, level (on f)))) := by
  have first : i.putAll (Feature.all.map fun f => (.switch l f, level (on f))) =
      i.setWord Field.features.block Field.features.offset
        (writeSwitches l on Feature.all (i.word Field.features.block Field.features.offset)) :=
    putAll_switches h l on _ _
  rw [first, Instrument.setWord]
  apply perform_update_of_ok
  rw [View.modify_of_isWord (i.isWord_window h Field.features.isWord), writeSwitches_all]
  rfl

end Action

/-! ## Every setter -/

open LockServo.Action in
theorem Setter.perform_eq [Arithmetic ν] (s : Setter ν) {i : Instrument ν} (h : i.FullSize) :
    s.perform.perform i = s.result i <$> (s.stores i.calibration).run := by
  have perform_watched : ∀ {s : Setter ν} (l : Loop) (p : Pin),
      s.calibrationAfter i.calibration = i.calibration →
      (setRelockPin l p).perform i = s.result i <$> (stores.watched l p : Conversion ν _).run := by
    intro s l p keeps
    cases p with
    | output k => rfl
    | input k => exact perform_reported keeps (perform_writeNumber h (.relockPin l) rfl _) _
  cases s with
  | setpoint l v =>
    exact (perform_bind_of_ok (perform_calibration i) _).trans
      (perform_converted rfl (perform_writeNumber h (.setpoint l) rfl) _ _)
  | proportional l v => exact perform_converted rfl (perform_writeNumber h (.proportional l) rfl) _ _
  | integral l v => exact perform_converted rfl (perform_writeNumber h (.integral l) rfl) _ _
  | derivative l n => exact perform_reported rfl (perform_writeNumber h (.derivative l) rfl n) _
  | feature l f on => exact perform_reported rfl (perform_updateSwitch h l f on) _
  | features l t =>
    change (ofReporting _ >>= fun _ => update _ _ : Action ν Unit).perform i = _
    rw [perform_bind, perform_ofReporting]
    simp only [map_eq_pure_bind, bind_assoc, pure_bind]
    rw [perform_updateSwitches h l t.contains,
      ← settle_eq_putAll (s := Setter.features l t) (i := i) rfl]
    rfl
  | relockLow l v => exact perform_converted rfl (perform_writeNumber h (.relockLow l) rfl) _ _
  | relockHigh l v => exact perform_converted rfl (perform_writeNumber h (.relockHigh l) rfl) _ _
  | relockStep l v => exact perform_converted rfl (perform_writeNumber h (.relockStep l) rfl) _ _
  | relockPin l p => exact perform_watched l p rfl
  | relockCode l n =>
    change (ofRange (Pin.ofCode n) >>= setRelockPin l : Action ν Unit).perform i = _
    rw [perform_bind, perform_ofRange, pure_bind, stores]
    cases Pin.ofCode n with
    | error fault => rfl
    | ok p => exact perform_watched l p rfl
  | limit d b v =>
    exact (perform_bind_of_ok (perform_calibration i) _).trans
      (perform_converted rfl (perform_writeNumber h (.limit d b) rfl) _ _)
  | pinValue p v =>
    cases p with
    | input k => rfl
    | output k => exact perform_converted rfl (perform_writeNumber h (.slowOutput k) rfl) _ _
  | resetPins =>
    let store : Pin → Place × UInt32 := fun p => (.number (.slowOutput p.index), 0)
    have pins : (Pin.outputs.forM fun p => writeField (.slowOutput p.index) 0).perform i =
        pure (.ok (), i.putAll (Pin.outputs.map store)) :=
      perform_forM (fun p _ hj => perform_writeNumber hj (.slowOutput p.index) rfl 0) h Pin.outputs
    change (Pin.outputs.forM (fun p => writeField (.slowOutput p.index) 0) >>=
      fun _ => ofReporting (report .outputsReset) : Action ν Unit).perform i = _
    rw [perform_bind_of_ok pins, perform_ofReporting,
      ← settle_eq_putAll (s := Setter.resetPins) (i := i) rfl, Pin.outputs, List.map_map]
    rfl
  | reload record => rfl

end LockServo
