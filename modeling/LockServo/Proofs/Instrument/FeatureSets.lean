import LockServo.Proofs.ParameterSet.Restore

/-!
# Features at once and one by one

Writing all features of a loop at once leaves what writing them one by one leaves, from whatever word and
in whatever order. The set read back has the features that are on, and storing it again changes nothing.
-/

namespace LockServo

open Register

variable {ν : Type}

namespace Instrument

def switchAll (i : Instrument ν) (l : Loop) (on : Feature → Bool) : Instrument ν :=
  i.setWord Field.features.block Field.features.offset
    (writeSwitches l on Feature.all (i.word Field.features.block Field.features.offset))

variable {i : Instrument ν} {l : Loop} {on : Feature → Bool}

theorem putAll_switches_of_forall_mem (h : i.FullSize) {order : List Feature} (each : ∀ f, f ∈ order) :
    i.putAll (order.map fun f => (.switch l f, level (on f))) = i.switchAll l on := by
  have written := Action.putAll_switches h l on order (i.word Field.features.block Field.features.offset)
  rw [setWord_word h Field.features.isWord] at written
  rw [written, writeSwitches_eq_of_forall_mem l on each]
  rfl

theorem word_switchAll_self (h : i.FullSize) :
    (i.switchAll l on).word Field.features.block Field.features.offset =
      writeSwitches l on Feature.all (i.word Field.features.block Field.features.offset) :=
  word_setWord_self h Field.features.isWord _

theorem switchAll_fullSize (h : i.FullSize) : (i.switchAll l on).FullSize :=
  setWord_fullSize h _ _ _

theorem value_switchAll_self (h : i.FullSize) (f : Feature) :
    (i.switchAll l on).value (.switch l f) = level (on f) := by
  rw [value, Place.read_switch]
  exact congrArg level ((congrArg (bit · _) (word_switchAll_self h)).trans
    (bit_writeSwitches_of_mem l on f.mem_all _))

theorem value_switchAll_of_ne (h : i.FullSize) {l' : Loop} (ne : l' ≠ l) (f : Feature) :
    (i.switchAll l on).value (.switch l' f) = i.value (.switch l' f) := by
  have inside : position l' f < 32 := Nat.lt_trans (position_lt l' f) (by decide)
  rw [value, Place.read_switch, value, Place.read_switch]
  exact congrArg level ((congrArg (bit · _) (word_switchAll_self h)).trans
    (bit_writeSwitches_of_forall_ne l on inside (fun g _ => position_ne_of_ne ne f g) _))

theorem featureSet_switchAll_self (h : i.FullSize) (s : FeatureSet) :
    (i.switchAll l s.contains).featureSet l = s.restrict := by
  have levels : (fun f => (i.switchAll l s.contains).value (.switch l f) != 0) = s.contains := by
    funext f
    rw [value_switchAll_self h, level_ne_zero]
  rw [featureSet, levels, FeatureSet.ofList_filter_contains]

theorem featureSet_switchAll_of_ne (h : i.FullSize) {l' : Loop} (ne : l' ≠ l) :
    (i.switchAll l on).featureSet l' = i.featureSet l' := by
  simp only [featureSet, value_switchAll_of_ne h ne]

theorem bit_switchAll_of_le (h : i.FullSize) {k : Nat} (beyond : 20 ≤ k) :
    bit ((i.switchAll l on).word Field.features.block Field.features.offset) k =
      bit (i.word Field.features.block Field.features.offset) k := by
  rcases Nat.lt_or_ge k 32 with inside | outside
  · rw [word_switchAll_self h, bit_writeSwitches_of_forall_ne l on inside]
    intro f _ same
    have := position_lt l f
    omega
  · rw [bit_of_le outside, bit_of_le outside]

/-- Switching the features to where they are already changes nothing. -/
theorem switchAll_featureSet (h : i.FullSize) (l : Loop) : i.switchAll l (i.featureSet l).contains = i := by
  have same : writeSwitches l (i.featureSet l).contains Feature.all
      (i.word Field.features.block Field.features.offset) = i.word Field.features.block Field.features.offset := by
    apply eq_of_bit
    intro k hk
    by_cases owned : ∃ f, k = position l f
    · obtain ⟨f, rfl⟩ := owned
      rw [bit_writeSwitches_of_mem l _ f.mem_all, contains_featureSet, value, Place.read_switch,
        level_ne_zero]
      rfl
    · exact bit_writeSwitches_of_forall_ne l _ hk (fun f _ same => owned ⟨f, same⟩) _
  rw [switchAll, same, setWord_word h Field.features.isWord]

end Instrument

variable [Arithmetic ν]

namespace Action

variable {i : Instrument ν}

theorem setFeatures_value (h : i.FullSize) (l : Loop) (s : FeatureSet) :
    ((setFeatures l s).perform i).value = (.ok (), i.switchAll l s.contains) := by
  change ((Setter.features l s).perform.perform i).value = _
  rw [Setter.perform_eq _ h, ← Instrument.putAll_switches_of_forall_mem h Feature.mem_all,
    ← Setter.settle_eq_putAll (s := Setter.features l s) rfl]
  rfl

theorem forM_setFeature_value (h : i.FullSize) (l : Loop) (on : Feature → Bool) {order : List Feature}
    (each : ∀ f, f ∈ order) :
    ((order.forM fun f => setFeature l f (on f)).perform i).value = (.ok (), i.switchAll l on) := by
  have accepted : Setter.Accepts (ν := ν) i.calibration (order.map fun f => .feature l f (on f))
      (order.map fun f => (.switch l f, level (on f))) := by
    rw [List.map_eq_flatMap, List.map_eq_flatMap]
    exact .flatMap (fun f => .single rfl rfl) order
  have performed := accepted.forM_value rfl h
  rw [Instrument.putAll_switches_of_forall_mem h each, List.forM_eq_forM, List.forM_map,
    ← List.forM_eq_forM] at performed
  exact performed

end Action

/-- Setting all features of a loop at once and setting them one by one in any order come to the same. The
loop then has the features asked for, nothing else is touched, and reading the set agrees with reading each
feature, so that a set read can be stored again without effect. -/
theorem features_at_once_or_one_by_one {i : Instrument ν} (h : i.Sound) (l : Loop) (s : FeatureSet) :
    (∃ j : Instrument ν, ((Action.setFeatures l s).perform i).value = (.ok (), j) ∧
      (∀ order : List Feature, order.Perm Feature.all →
        ((order.forM fun f => Action.setFeature l f (s.contains f)).perform i).value = (.ok (), j)) ∧
      ((Action.features l).perform j).value = (.ok s.restrict, j) ∧
      (∀ f, ((Action.feature l f).perform j).value = (.ok (s.contains f), j)) ∧
      (∀ l' : Loop, l' ≠ l → ∃ t, ((Action.features l').perform i).value = (.ok t, i) ∧
        ((Action.features l').perform j).value = (.ok t, j)) ∧
      (∀ k, 20 ≤ k → bit (j.word .pid 0) k = bit (i.word .pid 0) k) ∧
      ∀ (b : Block) (offset : Nat), b.IsWord offset → ¬ (b = .pid ∧ offset = 0) →
        j.word b offset = i.word b offset) ∧
    ∃ t, ((Action.features l).perform i).value = (.ok t, i) ∧
      (∀ f, ((Action.feature l f).perform i).value = (.ok (t.contains f), i)) ∧
      ((Action.setFeatures l t).perform i).value = (.ok (), i) := by
  have full := h.fullSize
  have full' : (i.switchAll l s.contains).FullSize := Instrument.switchAll_fullSize full
  refine ⟨⟨i.switchAll l s.contains, Action.setFeatures_value full l s, ?_, ?_, ?_, ?_, ?_, ?_⟩,
    i.featureSet l, Action.features_value full l, ?_, ?_⟩
  · intro order perm
    exact Action.forM_setFeature_value full l s.contains fun f => perm.mem_iff.mpr f.mem_all
  · rw [Action.features_value full', Instrument.featureSet_switchAll_self full]
  · intro f
    rw [Action.feature_value full', Instrument.value_switchAll_self full, level_ne_zero]
  · intro l' ne
    refine ⟨i.featureSet l', Action.features_value full l', ?_⟩
    rw [Action.features_value full', Instrument.featureSet_switchAll_of_ne full ne]
  · intro k beyond
    exact Instrument.bit_switchAll_of_le full beyond
  · intro b offset inside other
    refine (Instrument.word_setWord h Field.features.isWord inside _).trans (if_neg ?_)
    rintro ⟨rfl, rfl⟩
    exact other ⟨rfl, rfl⟩
  · intro f
    rw [Action.feature_value full, Instrument.contains_featureSet]
  · rw [Action.setFeatures_value full, Instrument.switchAll_featureSet full]

/-- From a word with bits of every loop and beyond the features, for a set with three bits of no feature. -/
theorem features_at_once_or_one_by_one_on_a_busy_word :
    let i := (Instrument.blank (.ideal : Calibration Binary64)).setWord .pid 0 0xFFF5A3C6
    let l : Loop := ⟨.one, .two⟩
    let order : List Feature := [.relock, .inverted, .integratorHold, .integratorReset, .resetWhenRailed]
    i.Sound ∧ order.Perm Feature.all ∧ ∃ j : Instrument Binary64,
      ((Action.setFeatures l ⟨0xE9⟩).perform i).value = (.ok (), j) ∧ j.word .pid 0 = 0xFFF1E386 ∧
      ((order.forM fun f => Action.setFeature l f ((⟨0xE9⟩ : FeatureSet).contains f)).perform i).value =
        (.ok (), j) ∧
      ((Action.features l).perform j).value = (.ok ⟨0x09⟩, j) := by
  intro i l order
  have sound : i.Sound := Instrument.setWord_sound (Instrument.blank_sound _) _ _ _
  have perm : order.Perm Feature.all := by decide
  obtain ⟨⟨j, written, oneByOne, read, -⟩, -⟩ := features_at_once_or_one_by_one sound l ⟨0xE9⟩
  have word : ((Action.setFeatures l ⟨0xE9⟩).perform i).value.2.word .pid 0 = 0xFFF1E386 := by decide +kernel
  rw [written] at word
  exact ⟨sound, perm, j, written, word, oneByOne order perm, read⟩

end LockServo
