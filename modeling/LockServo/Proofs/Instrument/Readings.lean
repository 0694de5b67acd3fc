import LockServo.Call
import LockServo.Proofs.Instrument.Actions
import LockServo.Proofs.Instrument.Switches

/-!
# What getters read

On full-size blocks every getter succeeds, leaves the instrument alone, and reports the count in its
own place, decoded under the calibration in force. A capture is made of these readings.
-/

namespace LockServo

open Arithmetic Register

variable {ν : Type} [Arithmetic ν]

/-- The input that the two bits of a relock count name. -/
def Pin.watched (n : UInt32) : Pin := .input (n.toBitVec.setWidth 2).toFin

theorem Pin.watched_eq {n : UInt32} (h : n.toNat < 4) : Pin.watched n = .input ⟨n.toNat, h⟩ := by
  have low : (n.toBitVec.setWidth 2).toFin = ⟨n.toNat, h⟩ := by
    apply Fin.ext
    change n.toNat % 2 ^ 2 = n.toNat
    omega
  rw [watched, low]

theorem Pin.ofCode_watched {n : UInt32} (h : n.toNat < 4) :
    Pin.ofCode ((Pin.input 0).code + n.toNat) = .ok (.watched n) := by
  rw [ofCode, show (Pin.input 0).code + n.toNat = (Pin.input ⟨n.toNat, h⟩).code from rfl,
    ofCode?_code, watched_eq h]

namespace Register

def Field.quantity (c : Calibration ν) : Field → UInt32 → ν
  | .setpoint l, n => (Scale.unipolar.decode (c.input.get l.input) (ofNat 0) n).value
  | .proportional _, n => Gain.decode (ofRat Gain.proportionalFactor) n
  | .integral _, n => Gain.decode (ofRat Gain.integralFactor) n
  | .relockLow _, n | .relockHigh _, n | .slowInput _, n => Span.slowInput.voltage n
  | .relockStep _, n => Gain.decode (ofRat Gain.stepFactor) n
  | .limit d _, n => (Scale.unipolar.decode (c.output.get d) (ofNat 0) n).value
  | .slowOutput _, n => Span.slowOutput.voltage n
  | .fastInput d, n => (Scale.bipolar.decode (c.input.get d) (ofNat 0) n).value
  | .fastOutput d, n => (Scale.bipolar.decode (c.output.get d) (ofNat 0) n).value
  | .features, n | .derivative _, n | .relockPin _, n => ofNat n.toNat

namespace Place

/-- Whether a parameter set holds the place; the slow outputs are in none. -/
def isParameter : Place → Bool
  | .number (.slowOutput _) _ => false
  | _ => true

def query : Place → Query
  | .number (.setpoint l) _ => .setpoint l
  | .number (.proportional l) _ => .proportional l
  | .number (.integral l) _ => .integral l
  | .number (.derivative l) _ => .derivative l
  | .number (.relockLow l) _ => .relockLow l
  | .number (.relockHigh l) _ => .relockHigh l
  | .number (.relockStep l) _ => .relockStep l
  | .number (.relockPin l) _ => .relockPin l
  | .number (.limit d b) _ => .limit d b
  | .number (.slowOutput k) _ => .pinValue (.output k)
  | .switch l f => .feature l f

def answer (c : Calibration ν) : Place → UInt32 → Answer ν
  | .number (.derivative _) _, n => .word n
  | .number (.relockPin _) _, n => .pin (.watched n)
  | .number f _, n => .quantity (f.quantity c n)
  | .switch .., n => .switch (n != 0)

end Place

end Register

namespace Instrument

def quantity (i : Instrument ν) (f : Field) (adjustable : f.isAdjustable = true := by exact Eq.refl true) : ν :=
  f.quantity i.calibration (i.value (.number f adjustable))

def featureSet (i : Instrument ν) (l : Loop) : FeatureSet :=
  .ofList (Feature.all.filter fun f => i.value (.switch l f) != 0)

def relockPin (i : Instrument ν) (l : Loop) : Pin := .watched (i.value (.number (.relockPin l)))

def loopParameters (i : Instrument ν) (l : Loop) : LoopParameters ν where
  loop := l
  setpoint := i.quantity (.setpoint l)
  proportional := i.quantity (.proportional l)
  integral := i.quantity (.integral l)
  derivative := i.value (.number (.derivative l))
  features := i.featureSet l
  relockLow := i.quantity (.relockLow l)
  relockHigh := i.quantity (.relockHigh l)
  relockStep := i.quantity (.relockStep l)
  relockPin := i.relockPin l

def limitParameters (i : Instrument ν) (d : Channel) : LimitParameters ν :=
  ⟨d, i.quantity (.limit d .low), i.quantity (.limit d .high)⟩

def parameters (i : Instrument ν) : ParameterSet ν :=
  ⟨Loop.all.map i.loopParameters, Channel.all.map i.limitParameters⟩

/-- A capture shows nothing but the counts in places and the calibration. -/
theorem parameters_eq_of_value_eq {i j : Instrument ν} (hc : i.calibration = j.calibration)
    (hv : ∀ p : Place, p.isParameter = true → i.value p = j.value p) :
    i.parameters = j.parameters := by
  have quantities : ∀ (f : Field) (hf : f.isAdjustable = true),
      (Place.number f hf).isParameter = true → i.quantity f hf = j.quantity f hf := by
    intro f hf parameter
    rw [quantity, quantity, hc, hv _ parameter]
  have switches : ∀ l, i.featureSet l = j.featureSet l := by
    intro l
    simp only [featureSet, fun f => hv (.switch l f) rfl]
  have loops : i.loopParameters = j.loopParameters := by
    funext l
    rw [loopParameters, loopParameters, quantities (.setpoint l) rfl rfl,
      quantities (.proportional l) rfl rfl, quantities (.integral l) rfl rfl,
      hv (.number (.derivative l)) rfl, switches l, quantities (.relockLow l) rfl rfl,
      quantities (.relockHigh l) rfl rfl, quantities (.relockStep l) rfl rfl, relockPin,
      hv (.number (.relockPin l)) rfl, relockPin]
  have limits : i.limitParameters = j.limitParameters := by
    funext d
    rw [limitParameters, limitParameters, quantities (.limit d .low) rfl rfl,
      quantities (.limit d .high) rfl rfl]
  rw [parameters, parameters, loops, limits]

end Instrument

/-! ## Switches and pins in their words -/

namespace Register

theorem and_featureBit_ne_zero (word : UInt32) (l : Loop) (f : Feature) :
    (word &&& featureBit l f != 0) = bit word (position l f) := by
  have bound := position_lt l f
  rw [Bool.eq_iff_iff, bne_iff_ne]
  constructor
  · intro ne
    cases hb : bit word (position l f) with
    | true => rfl
    | false =>
      refine absurd (eq_of_bit fun k hk => ?_) ne
      rw [bit_and, bit_featureBit l f hk, bit_zero]
      by_cases h : k = position l f
      · simp [h, hb]
      · simp [h]
  · intro set zero
    have cleared := congrArg (bit · (position l f)) zero
    simp [bit_featureBit l f (show position l f < 32 by omega), set] at cleared

theorem level_ne_zero (on : Bool) : (level on != 0) = on := by
  cases on <;> rfl

theorem getField_and_featureBit (word : UInt32) (l : Loop) (f : Feature) :
    (getField word Field.features.mask Field.features.shift &&& featureBit l f != 0) =
      ((Place.switch l f).read word != 0) := by
  have bound := position_lt l f
  have shift : Field.features.shift.toNat = 0 := rfl
  rw [and_featureBit_ne_zero, bit_getField (by rw [shift]; decide), Place.read_switch, level_ne_zero,
    Field.bit_mask, shift, Nat.zero_add]
  simp [Field.width, bound]

theorem bitsSet_featureBit (word : UInt32) (l : Loop) (f : Feature) :
    bitsSet word (featureBit l f) Field.features.mask = ((Place.switch l f).read word != 0) := by
  have bound := position_lt l f
  have within : featureBit l f &&& Field.features.mask = featureBit l f := by
    apply eq_of_bit
    intro k hk
    rw [bit_and, bit_featureBit l f hk, Field.bit_mask]
    by_cases h : k = position l f
    · simp [h, Field.width, bound]
    · simp [h]
  rw [bitsSet, within, Place.read_switch, level_ne_zero, ← and_featureBit_ne_zero, Bool.eq_iff_iff]
  simp only [beq_iff_eq, bne_iff_ne]
  constructor
  · intro all zero
    have set := congrArg (bit · (position l f)) (all.symm.trans zero)
    simp [bit_featureBit l f (show position l f < 32 by omega)] at set
  · intro ne
    have set := bne_iff_ne.mpr ne
    rw [and_featureBit_ne_zero] at set
    apply eq_of_bit
    intro k hk
    rw [bit_and, bit_featureBit l f hk]
    by_cases h : k = position l f
    · simp [h, set]
    · simp [h]

theorem Place.toNat_read_lt (p : Place) (word : UInt32) : (p.read word).toNat < 2 ^ p.width := by
  apply Nat.lt_pow_two_of_testBit
  intro k hk
  change bit (p.read word) k = false
  rw [bit_read, decide_eq_false (Nat.not_lt.mpr hk), Bool.and_false]

end Register

namespace Action

variable {i : Instrument ν}

/-! ## The getters -/

theorem setpoint_value (h : i.FullSize) (l : Loop) :
    ((setpoint l).perform i).value = (.ok (i.quantity (.setpoint l)), i) := by
  rw [setpoint, perform_bind_of_ok (perform_readNumber h (.setpoint l) rfl)]
  rfl

theorem perform_gain (h : i.FullSize) (factor : Rat) (f : Field) (adjustable : f.isAdjustable = true) :
    (gain factor f : Action ν ν).perform i =
      pure (.ok (Gain.decode (ofRat factor) (i.value (.number f adjustable))), i) := by
  rw [gain, perform_bind_of_ok (perform_readNumber h f adjustable)]
  rfl

theorem gain_value (h : i.FullSize) (factor : Rat) (f : Field) (adjustable : f.isAdjustable = true) :
    ((gain factor f : Action ν ν).perform i).value =
      (.ok (Gain.decode (ofRat factor) (i.value (.number f adjustable))), i) := by
  rw [perform_gain h factor f adjustable]
  rfl

theorem relockBound_value (h : i.FullSize) (f : Field) (adjustable : f.isAdjustable = true) :
    ((relockBound f : Action ν ν).perform i).value =
      (.ok (Span.slowInput.voltage (i.value (.number f adjustable))), i) := by
  rw [relockBound, perform_bind_of_ok (perform_readNumber h f adjustable)]
  rfl

omit [Arithmetic ν] in
theorem feature_value (h : i.FullSize) (l : Loop) (f : Feature) :
    ((feature l f).perform i).value = (.ok (i.value (.switch l f) != 0), i) := by
  have inside := i.isWord_window h Field.features.isWord
  rw [feature, perform_query_of_ok (View.bitsSet_of_isWord inside _ _), bitsSet_featureBit]
  rfl

omit [Arithmetic ν] in
theorem features_value (h : i.FullSize) (l : Loop) :
    ((features l).perform i).value = (.ok (i.featureSet l), i) := by
  rw [features, featureWord, perform_bind_of_ok (perform_readField h .features)]
  simp only [getField_and_featureBit]
  rfl

omit [Arithmetic ν] in
theorem relockPin_value (h : i.FullSize) (l : Loop) :
    ((relockPin l).perform i).value = (.ok (i.relockPin l), i) := by
  have small : (i.value (.number (.relockPin l))).toNat < 4 := Place.toNat_read_lt _ _
  rw [relockPin, perform_bind_of_ok (perform_readNumber h (.relockPin l) rfl), perform_ofRange,
    Pin.ofCode_watched small]
  rfl

theorem limit_value (h : i.FullSize) (d : Channel) (b : Bound) :
    ((limit d b).perform i).value = (.ok (i.quantity (.limit d b)), i) := by
  rw [limit, perform_bind_of_ok (perform_readNumber h (.limit d b) rfl)]
  rfl

theorem pinValue_value (h : i.FullSize) (k : Fin 4) :
    ((pinValue (.output k)).perform i).value = (.ok (i.quantity (.slowOutput k)), i) := by
  rw [pinValue, perform_bind_of_ok (perform_readNumber h (.slowOutput k) rfl)]
  rfl

end Action

open LockServo.Action in
/-- Every getter answers with the count in its place. -/
theorem Register.Place.query_value {i : Instrument ν} (h : i.FullSize) (p : Place) :
    (p.query.perform.perform i).value = (.ok (p.answer i.calibration (i.value p)), i) := by
  cases p with
  | switch l f => exact perform_bind_value_of_ok (feature_value h l f) _
  | number f adjustable =>
    cases f with
    | setpoint l => exact perform_bind_value_of_ok (setpoint_value h l) _
    | proportional l => exact perform_bind_value_of_ok (gain_value h _ (.proportional l) rfl) _
    | integral l => exact perform_bind_value_of_ok (gain_value h _ (.integral l) rfl) _
    | derivative l =>
      have read := congrArg Logged.value (perform_readNumber h (.derivative l) rfl)
      exact perform_bind_value_of_ok read _
    | relockLow l => exact perform_bind_value_of_ok (relockBound_value h (.relockLow l) rfl) _
    | relockHigh l => exact perform_bind_value_of_ok (relockBound_value h (.relockHigh l) rfl) _
    | relockStep l => exact perform_bind_value_of_ok (gain_value h _ (.relockStep l) rfl) _
    | relockPin l => exact perform_bind_value_of_ok (relockPin_value h l) _
    | limit d b => exact perform_bind_value_of_ok (limit_value h d b) _
    | slowOutput k => exact perform_bind_value_of_ok (pinValue_value h k) _
    | features | slowInput | fastInput | fastOutput => cases adjustable

end LockServo
