import LockServo.Proofs.Instrument.Places

/-!
# Actions step by step

What an action does to an instrument, with laws for the ways to build one. On full-size blocks no
register access is refused, so reading a field is its count and writing one is a store.
-/

namespace LockServo.Action

open Register

variable {ν α β : Type}

theorem perform_bind (x : Action ν α) (f : α → Action ν β) (i : Instrument ν) :
    (x >>= f).perform i = x.perform i >>= fun
      | (.ok a, j) => (f a).perform j
      | (.error fault, j) => pure (.error fault, j) := by
  unfold perform
  simp only [ExceptT.run_bind, StateT.run_bind]
  congr 1
  funext ⟨outcome, j⟩
  cases outcome <;> rfl

theorem perform_bind_of_ok {x : Action ν α} {i j : Instrument ν} {a : α}
    (h : x.perform i = pure (.ok a, j)) (f : α → Action ν β) :
    (x >>= f).perform i = (f a).perform j := by
  rw [perform_bind, h, pure_bind]

theorem perform_bind_value_of_ok {x : Action ν α} {i j : Instrument ν} {a : α}
    (h : (x.perform i).value = (.ok a, j)) (f : α → Action ν β) :
    ((x >>= f).perform i).value = ((f a).perform j).value := by
  rw [perform_bind, Logged.bind_value, h]

theorem perform_ofReporting (x : Reporting α) (i : Instrument ν) :
    (ofReporting x : Action ν α).perform i = (fun a => (.ok a, i)) <$> x := by
  change StateT.run (Except.ok <$> (monadLift x : StateT (Instrument ν) Reporting α)) i = _
  rw [StateT.run_map, StateT.run_monadLift]
  simp

theorem perform_ofConversion (x : Conversion ν α) (i : Instrument ν) :
    (ofConversion x).perform i = (fun outcome => (outcome, i)) <$> x.run := by
  rfl

theorem perform_ofRange (x : Except RangeFault α) (i : Instrument ν) :
    (ofRange x : Action ν α).perform i = pure (x.mapError .outOfRange, i) := by
  cases x <;> rfl

theorem perform_calibration (i : Instrument ν) :
    calibration.perform i = pure (.ok i.calibration, i) := rfl

/-! ## Register access on full-size blocks -/

variable {i : Instrument ν}

theorem perform_query_of_ok {b : Block} {f : View → Except RangeFault α} {a : α}
    (h : f (i.view b) = .ok a) : (query b f).perform i = pure (.ok a, i) := by
  change (ofRange (f (i.view b))).perform i = _
  rw [h, perform_ofRange]
  rfl

theorem perform_update_of_ok {b : Block} {f : View → Except RangeFault View} {v : View}
    (h : f (i.view b) = .ok v) : (update b f).perform i = pure (.ok (), i.setView b v) := by
  change (ofRange (f (i.view b)) >>= fun v => modify (·.setView b v) : Action ν Unit).perform i = _
  rw [h]
  rfl

theorem perform_readField (h : i.FullSize) (f : Field) :
    (readField f).perform i =
      pure (.ok (getField (i.word f.block f.offset) f.mask f.shift), i) :=
  perform_query_of_ok (View.getField_of_isWord (i.isWord_window h f.isWord) f.mask f.shift)

theorem perform_readNumber (h : i.FullSize) (f : Field) (adjustable : f.isAdjustable = true) :
    (readField f).perform i = pure (.ok (i.value (.number f adjustable)), i) :=
  perform_readField h f

theorem perform_writeNumber (h : i.FullSize) (f : Field) (adjustable : f.isAdjustable = true)
    (count : UInt32) :
    (writeField f count).perform i = pure (.ok (), i.put (.number f adjustable) count) :=
  perform_update_of_ok (View.setField_of_isWord (i.isWord_window h f.isWord) count f.mask f.shift)

end LockServo.Action
