import LockServo.Proofs.Instrument.Refusals

/-!
# Runs of setters

Setters called one after another until one refuses. Each place ends with the count that the last setter
for it would have stored on its own; places that no setter reached, and all other bits, are as before.
-/

namespace LockServo

open Arithmetic Register

variable {ν : Type}

theorem Action.perform_bind_value_of_error {α β : Type} {x : Action ν α} {i j : Instrument ν}
    {fault : Fault ν} (h : (x.perform i).value = (.error fault, j)) (f : α → Action ν β) :
    ((x >>= f).perform i).value = (.error fault, j) := by
  rw [perform_bind, Logged.bind_value, h]
  rfl

variable [Arithmetic ν]

namespace Setter

/-- The last of some setters that stores into a place. -/
def writer? (setters : List (Setter ν)) (p : Place) : Option (Setter ν) :=
  setters.reverse.find? fun s => p ∈ s.targets

variable {setters : List (Setter ν)} {i : Instrument ν} {c : Calibration ν}

theorem accepts_of_forall (keeps : ∀ s ∈ setters, s.calibrationAfter c = c)
    (accepted : ∀ s ∈ setters, s.refusal? = none) : Accepts c setters (setters.flatMap (counts c)) := by
  induction setters with
  | nil => exact .nil
  | cons s rest ih =>
    have stored : (s.stores c).run.value = .ok (s.counts c) := by
      rw [stores_value, verdict, accepted s List.mem_cons_self]
    exact .cons (keeps s List.mem_cons_self) stored
      (ih (fun t member => keeps t (List.mem_cons_of_mem s member))
        fun t member => accepted t (List.mem_cons_of_mem s member))

theorem forM_value_of_refused {before later : List (Setter ν)} {s : Setter ν} {fault : Fault ν}
    {stores : List (Place × UInt32)} (full : i.FullSize) (accepted : Accepts i.calibration before stores)
    (refused : s.refusal? = some fault) :
    (((before ++ s :: later).forM Setter.perform).perform i).value = (.error fault, i.putAll stores) := by
  have stopped := perform_of_refused (Instrument.putAll_fullSize stores full) refused
  rw [List.forM_eq_forM, List.forM_append, ← List.forM_eq_forM,
    Action.perform_bind_value_of_ok (accepted.forM_value rfl full)]
  exact Action.perform_bind_value_of_error stopped _

theorem mem_targets_of_mem_counts {s : Setter ν} {store : Place × UInt32} (h : store ∈ s.counts c) :
    store.1 ∈ s.targets ∧ store.2 = s.count c store.1 := by
  obtain ⟨p, member, rfl⟩ := List.mem_map.mp h
  exact ⟨member, rfl⟩

theorem value_putAll_counts (h : i.Sound) (s : Setter ν) (p : Place) :
    (i.putAll (s.counts c)).value p =
      if p ∈ s.targets then s.count c p &&& p.mask else i.value p := by
  have places : (s.counts c).map Prod.fst = s.targets := by
    rw [counts, List.map_map]
    exact List.map_id _
  split
  · rename_i member
    exact Instrument.value_putAll_of_forall _ h
      (fun store inside => (mem_targets_of_mem_counts inside).2) (places ▸ member)
  · rename_i other
    exact Instrument.value_putAll_of_not_mem _ h (places ▸ other)

omit [Arithmetic ν] in
theorem writer?_cons (s : Setter ν) (rest : List (Setter ν)) (p : Place) :
    writer? (s :: rest) p = (writer? rest p).or (if p ∈ s.targets then some s else none) := by
  rw [writer?, List.reverse_cons, List.find?_append, List.find?_singleton]
  simp only [decide_eq_true_eq]
  rfl

/-- A run of accepted setters leaves in each place the count of the last one that stores there. -/
theorem value_putAll_run (h : i.Sound) (setters : List (Setter ν)) (p : Place) :
    (i.putAll (setters.flatMap (counts c))).value p =
      match writer? setters p with
      | some s => s.count c p &&& p.mask
      | none => i.value p := by
  induction setters generalizing i with
  | nil => rfl
  | cons s rest ih =>
    rw [List.flatMap_cons, Instrument.putAll_append, ih (Instrument.putAll_sound _ h), writer?_cons]
    cases writer? rest p with
    | some last => rfl
    | none =>
      rw [value_putAll_counts h, Option.none_or]
      by_cases target : p ∈ s.targets <;> simp [target]

omit [Arithmetic ν] in
theorem not_mem_targets_of_writer? {p : Place} (h : writer? setters p = none) {s : Setter ν}
    (member : s ∈ setters) : p ∉ s.targets := by
  have missing := List.find?_eq_none.mp h s (List.mem_reverse.mpr member)
  simpa using missing

omit [Arithmetic ν] in
theorem mem_of_writer? {p : Place} {s : Setter ν} (h : writer? setters p = some s) :
    s ∈ setters ∧ p ∈ s.targets := by
  have found := List.find?_some h
  exact ⟨List.mem_reverse.mp (List.mem_of_find?_eq_some h), by simpa using found⟩

omit [Arithmetic ν] in
theorem writer?_of_block_ne {b : Block} {p : Place}
    (all : ∀ s ∈ setters, ∀ p ∈ s.targets, p.field.block = b) (h : p.field.block ≠ b) :
    writer? setters p = none := by
  refine List.find?_eq_none.mpr fun s member target => h ?_
  exact all s (List.mem_reverse.mp member) p (of_decide_eq_true target)

end Setter

/-- One instrument is another after some stores: each place has the count that its writer leaves there
when it is called alone, and bits in no written place are as before. -/
structure Instrument.StoredBy (i after : Instrument ν) (writer? : Place → Option (Setter ν)) : Prop where
  places : ∀ p : Place, after.value p =
    match writer? p with
    | some s => (s.perform.perform i).value.2.value p
    | none => i.value p
  elsewhere : ∀ (b : Block) (offset k : Nat), b.IsWord offset →
    (∀ p : Place, p.Covers b offset k → writer? p = none) →
    bit (after.word b offset) k = bit (i.word b offset) k
  calibration : after.calibration = i.calibration

theorem Setter.value_perform {s : Setter ν} {i : Instrument ν} (h : i.Sound)
    (accepted : s.refusal? = none) {p : Place} (target : p ∈ s.targets) :
    (s.perform.perform i).value.2.value p = s.count i.calibration p &&& p.mask := by
  rw [perform_of_accepted h.fullSize accepted, settle, Instrument.value_recalibrate,
    value_putAll_counts h, if_pos target]

theorem Instrument.storedBy_putAll {i : Instrument ν} (h : i.Sound) {setters : List (Setter ν)}
    (accepted : ∀ s ∈ setters, s.refusal? = none) :
    i.StoredBy (i.putAll (setters.flatMap (Setter.counts i.calibration))) (Setter.writer? setters) where
  places p := by
    rw [Setter.value_putAll_run h]
    cases last : Setter.writer? setters p with
    | none => rfl
    | some s =>
      obtain ⟨member, target⟩ := Setter.mem_of_writer? last
      exact (Setter.value_perform h (accepted s member) target).symm
  elsewhere b offset k inside unwritten := by
    refine bit_putAll _ h inside fun store member covers => ?_
    obtain ⟨s, called, stored⟩ := List.mem_flatMap.mp member
    exact Setter.not_mem_targets_of_writer? (unwritten store.1 covers) called
      (Setter.mem_targets_of_mem_counts stored).1
  calibration := putAll_calibration _ i

end LockServo
