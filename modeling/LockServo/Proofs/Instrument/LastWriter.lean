import LockServo.Proofs.Instrument.Readings
import LockServo.Proofs.Instrument.Stores

/-!
# Last writer wins

Runs of setters and reloads, in any order and with any arguments. The stores of a run are those of its
accepted calls, each encoded under the calibration in force at that call; afterwards every place holds
what was stored there last, and no other bit of any block has changed.
-/

namespace LockServo

open Register

variable {ν : Type}

namespace Instrument

/-! ## The calibration is apart from the registers -/

theorem put_recalibrate (i : Instrument ν) (c : Calibration ν) (p : Place) (count : UInt32) :
    { i with calibration := c }.put p count = { i.put p count with calibration := c } := by
  unfold put setWord
  cases p.field.block <;> rfl

theorem putAll_recalibrate (i : Instrument ν) (c : Calibration ν) (stores : List (Place × UInt32)) :
    { i with calibration := c }.putAll stores = { i.putAll stores with calibration := c } := by
  induction stores generalizing i with
  | nil => rfl
  | cons store rest ih =>
    change ({ i with calibration := c }.put store.1 store.2).putAll rest = _
    rw [put_recalibrate, ih]
    rfl

theorem word_recalibrate (i : Instrument ν) (c : Calibration ν) (b : Block) (offset : Nat) :
    { i with calibration := c }.word b offset = i.word b offset := by
  cases b <;> rfl

theorem value_recalibrate (i : Instrument ν) (c : Calibration ν) (p : Place) :
    { i with calibration := c }.value p = i.value p := by
  rw [value, word_recalibrate, value]

theorem fullSize_recalibrate {i : Instrument ν} (h : i.FullSize) (c : Calibration ν) :
    { i with calibration := c }.FullSize := by
  intro b
  rw [← h b]
  cases b <;> rfl

theorem sound_recalibrate {i : Instrument ν} (h : i.Sound) (c : Calibration ν) :
    { i with calibration := c }.Sound where
  fullSize := fullSize_recalibrate h.fullSize c
  apart {b b' _ _} ne hb hb' := h.apart ne (by cases b <;> exact hb) (by cases b' <;> exact hb')

end Instrument

namespace Setter

variable [Arithmetic ν]

def inForce (c : Calibration ν) (calls : List (Setter ν)) : Calibration ν :=
  calls.foldl (fun c s => s.calibrationAfter c) c

/-- The stores of the accepted calls of a run, first to last. -/
def history : Calibration ν → List (Setter ν) → List (Place × UInt32)
  | _, [] => []
  | c, s :: rest => (s.stores c).run.value.toOption.getD [] ++ history (s.calibrationAfter c) rest

def outcomes : Calibration ν → List (Setter ν) → List (Except (Fault ν) (Answer ν))
  | _, [] => []
  | c, s :: rest => ((s.stores c).run.value.map fun _ => .done) :: outcomes (s.calibrationAfter c) rest

theorem calibrationAfter_of_error {c : Calibration ν} {s : Setter ν} {fault : Fault ν}
    (h : (s.stores c).run.value = .error fault) : s.calibrationAfter c = c := by
  cases s <;> first | rfl | cases h

/-- One call stores its part of the history and leaves the rest of the run its calibration. -/
theorem perform_value (s : Setter ν) {i : Instrument ν} (h : i.FullSize) :
    ((Call.store s).perform.perform i).value =
      ((s.stores i.calibration).run.value.map fun _ => .done,
        s.settle i ((s.stores i.calibration).run.value.toOption.getD [])) := by
  rw [Call.perform, Action.perform_bind, s.perform_eq h, Logged.bind_value, Logged.map_value]
  cases hs : (s.stores i.calibration).run.value with
  | ok stores => rfl
  | error fault =>
    have kept : s.settle i [] = i := settle_eq_putAll (calibrationAfter_of_error hs) []
    change (Except.error fault, i) = (Except.error fault, s.settle i [])
    rw [kept]

omit [Arithmetic ν] in
theorem settle_fullSize (s : Setter ν) {i : Instrument ν} (h : i.FullSize)
    (stores : List (Place × UInt32)) : (s.settle i stores).FullSize :=
  Instrument.fullSize_recalibrate (Instrument.putAll_fullSize stores h) _

theorem run_value (calls : List (Setter ν)) {i : Instrument ν} (h : i.FullSize) :
    (Call.run (calls.map .store) i).value =
      (outcomes i.calibration calls,
        { i.putAll (history i.calibration calls) with calibration := inForce i.calibration calls }) := by
  induction calls generalizing i with
  | nil => rfl
  | cons s rest ih =>
    rw [List.map_cons, Call.run, Logged.bind_value, perform_value s h]
    simp only [Logged.bind_value, Logged.pure_value, ih (settle_fullSize s h _)]
    simp only [settle, Instrument.putAll_recalibrate]
    rw [history, Instrument.putAll_append]
    rfl

end Setter

variable [Arithmetic ν]

/-- Whatever the calls and their order, each place ends with its last accepted store, every getter
decodes what its place holds under the calibration then in force, and no other bit has moved. -/
theorem last_writer_wins {i final : Instrument ν} (h : i.Sound) {calls : List (Setter ν)}
    {answers : List (Except (Fault ν) (Answer ν))}
    (ran : (Call.run (calls.map .store) i).value = (answers, final)) :
    answers = Setter.outcomes i.calibration calls ∧
    final.Sound ∧
    (∀ p : Place, final.value p =
      match (Setter.history i.calibration calls).reverse.lookup p with
      | some count => count &&& p.mask
      | none => i.value p) ∧
    (∀ p : Place, (p.query.perform.perform final).value =
      (.ok (p.answer (Setter.inForce i.calibration calls) (final.value p)), final)) ∧
    ∀ (b : Block) (offset k : Nat), b.IsWord offset → (∀ p : Place, ¬ p.Covers b offset k) →
      bit (final.word b offset) k = bit (i.word b offset) k := by
  rw [Setter.run_value calls h.fullSize] at ran
  obtain ⟨rfl, rfl⟩ := Prod.mk.inj ran
  have sound := Instrument.sound_recalibrate
    (Instrument.putAll_sound (Setter.history i.calibration calls) h)
    (Setter.inForce i.calibration calls)
  refine ⟨rfl, sound, ?_, ?_, ?_⟩
  · intro p
    rw [Instrument.value_recalibrate, Instrument.value_putAll _ h]
    cases (Setter.history i.calibration calls).reverse.lookup p <;> rfl
  · intro p
    exact Place.query_value sound.fullSize p
  · intro b offset k inside uncovered
    rw [Instrument.word_recalibrate]
    exact Instrument.bit_putAll _ h inside fun store _ => uncovered store.1

/-- A setpoint is encoded under the record in force when it was set, a refused one leaves no trace, and
of a set's eight bits only a feature's own is stored. -/
theorem last_writer_wins_across_reloads :
    let ideal : Calibration Binary64 := .ideal
    let doubled := { ideal with input := ⟨⟨.ofRat 2, .ofRat 0⟩, .ideal⟩ }
    let l : Loop := ⟨.one, .two⟩
    let calls : List (Setter Binary64) :=
      [.setpoint l (.ofRat (1 / 2)), .reload doubled, .setpoint l (.ofRat (1 / 4)),
        .setpoint l (.nan false), .feature l .inverted true, .reload ideal, .features l ⟨0xE1⟩]
    let final := (Call.run (calls.map .store) (Instrument.blank ideal)).value.2
    (Instrument.blank ideal).Sound ∧
      final.value (.number (.setpoint l)) = 8192 ∧
      final.value (.switch l .integratorReset) = 1 ∧ final.value (.switch l .inverted) = 0 := by
  intro ideal doubled l calls final
  have sound := Instrument.blank_sound ideal
  have ran : (Call.run (calls.map .store) (Instrument.blank ideal)).value = (_, final) :=
    Prod.mk.eta.symm
  obtain ⟨-, -, places, -⟩ := last_writer_wins sound ran
  exact ⟨sound, (places _).trans (by decide +kernel), (places _).trans (by decide +kernel),
    (places _).trans (by decide +kernel)⟩

end LockServo
