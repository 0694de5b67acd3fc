import LockServo.Proofs.Instrument.Calls

/-!
# Devices and simulations

An instrument mapped from a device and one that holds its own words go through the same calls in the same
way: the words agree, so the answers do, and on the device a call changes bytes of the three blocks only.
-/

namespace LockServo

open Arithmetic Register

variable {ν : Type}

namespace Register.Block

def Holds (b : Block) (address : Nat) : Prop := b.base ≤ address ∧ address < b.base + b.size

def mapping (page : Nat) (b : Block) : Mapping := .ofAddress page b.base b.size

/-- Pages of up to `2 ^ 45` bytes leave room for every block. -/
theorem mapping_not_refused {k : Nat} (small : k ≤ 45) (b : Block) :
    Window.refusal? (2 ^ k) (b.mapping (2 ^ k)) = none := by
  have page_le : 2 ^ k ≤ 2 ^ 45 := Nat.pow_le_pow_right Nat.two_pos small
  have within : b.base % 2 ^ k < 2 ^ k := Nat.mod_lt _ (Nat.two_pow_pos k)
  have start : b.base / 2 ^ k * 2 ^ k ≤ b.base := Nat.div_mul_le_self _ _
  have bounds : b.size ≤ 0x90 ∧ b.base ≤ 0x40600000 := by cases b <;> decide
  have pages : (b.mapping (2 ^ k)).pages (2 ^ k) ≤ 2 * 2 ^ k + 0x90 := by
    have whole := Nat.div_mul_le_self (b.base % 2 ^ k + b.size - 1) (2 ^ k)
    change ((b.base % 2 ^ k + b.size - 1) / 2 ^ k + 1) * 2 ^ k ≤ _
    rw [Nat.add_one_mul]
    omega
  have length : ¬ Window.longestMapping < (b.mapping (2 ^ k)).inPage + (b.mapping (2 ^ k)).length := by
    change ¬ 2 ^ 63 - 1 < b.base % 2 ^ k + b.size
    omega
  have room : ¬ Window.mappingRoom < (b.mapping (2 ^ k)).pages (2 ^ k) := by
    change ¬ (2 ^ 47 - 0x1000) / 3 * 2 < _
    omega
  have place : ¬ Window.mappingLimit ≤ (b.mapping (2 ^ k)).base + (b.mapping (2 ^ k)).pages (2 ^ k) := by
    change ¬ 2 ^ 63 ≤ b.base / 2 ^ k * 2 ^ k + _
    omega
  rw [Window.refusal?, if_neg length, if_neg room, if_neg place]

end Register.Block

namespace Instrument

/-! ## Instruments on a device -/

def onDevice (page : Nat) (m : Memory) (calibration : Calibration ν) : Instrument ν where
  pid := ⟨Block.pid.name, .mapped (Block.pid.mapping page)⟩
  limit := ⟨Block.limit.name, .mapped (Block.limit.mapping page)⟩
  analog := ⟨Block.analog.name, .mapped (Block.analog.mapping page)⟩
  memory := m
  calibration

theorem mapBlock_value {page : Nat} {b : Block} (m : Memory)
    (mapped : Window.refusal? page (b.mapping page) = none) :
    (map.mapBlock (ν := ν) page (.ok m) b).value = .ok ⟨b.name, .mapped (b.mapping page)⟩ := by
  have aligned : ¬ b.base % wordSize ≠ 0 := by cases b <;> decide
  unfold Block.mapping at mapped
  unfold map.mapBlock Window.map
  rw [if_neg aligned]
  simp only [mapped]
  rfl

theorem map_value {page : Nat} (m : Memory) (c : Calibration ν)
    (mapped : ∀ b : Block, Window.refusal? page (b.mapping page) = none) :
    (map page (.ok m) c).value = .ok (onDevice page m c) := by
  unfold map
  simp only [Logged.bind_value, mapBlock_value m (mapped .pid), mapBlock_value m (mapped .limit),
    mapBlock_value m (mapped .analog)]
  rfl

/-- The instrument looks into its blocks of a device whose bytes elsewhere are those of a memory. -/
structure Maps (page : Nat) (m : Memory) (i : Instrument ν) : Prop where
  window (b : Block) : i.window b = ⟨b.name, .mapped (b.mapping page)⟩
  elsewhere {address : Nat} : (∀ b : Block, ¬ b.Holds address) → i.memory.byte address = m.byte address

theorem onDevice_maps (page : Nat) (m : Memory) (c : Calibration ν) : (onDevice page m c).Maps page m where
  window b := by cases b <;> rfl
  elsewhere _ := rfl

namespace Maps

variable {page : Nat} {m : Memory} {i : Instrument ν}

theorem word_eq (h : i.Maps page m) (b : Block) (offset : Nat) :
    i.word b offset = i.memory.readWord (b.base + offset) := by
  rw [word, View.get, view, h.window b]
  exact congrArg i.memory.readWord (Mapping.ofAddress_address page b.base b.size offset)

theorem sound (h : i.Maps page m) : i.Sound where
  fullSize b := by
    rw [h.window b]
    rfl
  apart {b c n n'} ne hb hc := by
    rw [h.window] at hb hc
    cases hb
    cases hc
    simp only [Block.mapping, Mapping.ofAddress_address]
    exact Block.apart_of_ne ne

theorem set_eq (h : i.Maps page m) (b : Block) (offset : Nat) (word : UInt32) :
    (i.view b).set offset word = ⟨i.window b, i.memory.writeWord (b.base + offset) word⟩ := by
  rw [View.set, view, h.window b]
  exact congrArg (fun address => View.mk _ (i.memory.writeWord address word))
    (Mapping.ofAddress_address page b.base b.size offset)

theorem setWord (h : i.Maps page m) {b : Block} {offset : Nat} (inside : b.IsWord offset) (word : UInt32) :
    (i.setWord b offset word).Maps page m := by
  rw [Instrument.setWord, h.set_eq]
  constructor
  · intro c
    rw [← h.window c]
    cases b <;> cases c <;> rfl
  · intro address outside
    have memory : (i.setView b ⟨i.window b, i.memory.writeWord (b.base + offset) word⟩).memory =
        i.memory.writeWord (b.base + offset) word := by
      cases b <;> rfl
    have bound := inside.2
    rw [memory, Memory.writeWord_byte_of_outside, h.elsewhere outside]
    have free := outside b
    simp only [Block.Holds, wordSize] at free bound
    omega

theorem put (h : i.Maps page m) (p : Place) (count : UInt32) : (i.put p count).Maps page m :=
  h.setWord p.field.isWord _

theorem putAll (h : i.Maps page m) (stores : List (Place × UInt32)) : (i.putAll stores).Maps page m := by
  induction stores generalizing i with
  | nil => exact h
  | cons store rest ih => exact ih (h.put store.1 store.2)

theorem recalibrate (h : i.Maps page m) (c : Calibration ν) : { i with calibration := c }.Maps page m where
  window b := by
    rw [← h.window b]
    cases b <;> rfl
  elsewhere := h.elsewhere

end Maps

/-! ## Stores on instruments that agree -/

namespace Agrees

variable {i j : Instrument ν}

theorem put (h : i.Agrees j) (hi : i.Sound) (hj : j.Sound) (p : Place) (count : UInt32) :
    (i.put p count).Agrees (j.put p count) where
  calibration := by rw [put_calibration, put_calibration, h.calibration]
  word b offset inside := by rw [word_put hi p count inside, word_put hj p count inside, h.word b offset inside]

theorem putAll (h : i.Agrees j) (hi : i.Sound) (hj : j.Sound) (stores : List (Place × UInt32)) :
    (i.putAll stores).Agrees (j.putAll stores) := by
  induction stores generalizing i j with
  | nil => exact h
  | cons store rest ih =>
    exact ih (h.put hi hj store.1 store.2) (put_sound hi store.1 store.2) (put_sound hj store.1 store.2)

theorem recalibrate (h : i.Agrees j) (c : Calibration ν) :
    { i with calibration := c }.Agrees { j with calibration := c } where
  calibration := rfl
  word b offset inside := by
    calc { i with calibration := c }.word b offset = i.word b offset := word_recalibrate i c b offset
      _ = j.word b offset := h.word b offset inside
      _ = { j with calibration := c }.word b offset := (word_recalibrate j c b offset).symm

theorem count (h : i.Agrees j) (f : Field) : i.count f = j.count f := by
  rw [Instrument.count, h.word _ _ f.isWord, Instrument.count]

theorem reading [Arithmetic ν] (h : i.Agrees j) (f : Field) : i.reading f = j.reading f := by
  rw [Instrument.reading, h.calibration, h.count, Instrument.reading]

theorem featureSet (h : i.Agrees j) (l : Loop) : i.featureSet l = j.featureSet l := by
  simp only [Instrument.featureSet, fun f => h.value (.switch l f)]

theorem answer [Arithmetic ν] (h : i.Agrees j) (q : Query) : q.answer i = q.answer j := by
  cases q with
  | feature l f => rw [Query.answer, h.value, Query.answer]
  | features l => rw [Query.answer, h.featureSet, Query.answer]
  | relockPin l => rw [Query.answer, Instrument.relockPin, h.value, Query.answer, Instrument.relockPin]
  | derivative | featureWord => rw [Query.answer, h.count, Query.answer]
  | pinValue p => cases p <;> rw [Query.answer, h.reading, Query.answer]
  | calibration => rw [Query.answer, h.calibration, Query.answer]
  | capture =>
    exact congrArg Answer.parameters (parameters_eq_of_value_eq h.calibration fun p _ => h.value p)
  | _ => rw [Query.answer, h.reading, Query.answer]

end Agrees

/-! ## Calls on both -/

variable [Arithmetic ν]

structure Mirrors (page : Nat) (m : Memory) (device held : Instrument ν) : Prop where
  maps : device.Maps page m
  sound : held.Sound
  agrees : device.Agrees held

namespace Mirrors

variable {page : Nat} {m : Memory} {device held : Instrument ν}

omit [Arithmetic ν] in
theorem start {m : Memory} (page : Nat) (c : Calibration ν)
    (clear : ∀ (b : Block) (address : Nat), b.Holds address → m.byte address = 0) :
    Mirrors page m (onDevice page m c) (blank c) where
  maps := onDevice_maps page m c
  sound := blank_sound c
  agrees := by
    refine ⟨rfl, fun b offset inside => ?_⟩
    have bound := inside.2
    simp only [wordSize] at bound
    have zero : ∀ k < 4, m.byte (b.base + offset + k) = 0 := fun k small =>
      clear b _ ⟨by omega, by omega⟩
    rw [(onDevice_maps page m c).word_eq, blank_word]
    change m.readWord (b.base + offset) = 0
    rw [Memory.readWord, zero 1 (by decide), zero 2 (by decide), zero 3 (by decide)]
    have first : m.byte (b.base + offset) = 0 := zero 0 (by decide)
    rw [first]
    rfl

theorem outcome (h : Mirrors page m device held) (call : Call ν) :
    call.outcome device = call.outcome held := by
  cases call with
  | store | apply => rfl
  | ask q => exact congrArg Except.ok (h.agrees.answer q)
  | exchange record => rw [Call.outcome, h.agrees.calibration, Call.outcome]

theorem after (h : Mirrors page m device held) (call : Call ν) :
    Mirrors page m (call.after device) (call.after held) := by
  unfold Call.after
  rw [h.agrees.calibration]
  exact ⟨(h.maps.putAll _).recalibrate _, sound_recalibrate (putAll_sound _ h.sound) _,
    (h.agrees.putAll h.maps.sound h.sound _).recalibrate _⟩

theorem run (h : Mirrors page m device held) (calls : List (Call ν)) :
    Call.outcomes calls device = Call.outcomes calls held ∧
      Mirrors page m (Call.afterAll calls device) (Call.afterAll calls held) := by
  induction calls generalizing device held with
  | nil => exact ⟨rfl, h⟩
  | cons call rest ih =>
    obtain ⟨answers, final⟩ := ih (h.after call)
    exact ⟨congrArg₂ List.cons (h.outcome call) answers, final⟩

end Mirrors

end Instrument

variable [Arithmetic ν]

/-- On a device whose blocks are zero and can be mapped, every run of calls answers as on a simulated
instrument, ends with the same words, and has changed no byte outside the blocks. -/
theorem device_mirrors_simulation {page : Nat} {m : Memory}
    (clear : ∀ (b : Block) (address : Nat), b.Holds address → m.byte address = 0)
    (mapped : ∀ b : Block, Window.refusal? page (b.mapping page) = none) (c : Calibration ν) :
    ∃ device : Instrument ν, (Instrument.map page (.ok m) c).value = .ok device ∧
      ∀ calls : List (Call ν),
        let onDevice := (Call.run calls device).value
        let simulated := (Call.run calls (Instrument.simulated c).value).value
        onDevice.1 = simulated.1 ∧
        (∀ (b : Block) (offset : Nat), b.IsWord offset →
          onDevice.2.memory.readWord (b.base + offset) = simulated.2.word b offset) ∧
        ∀ address : Nat, (∀ b : Block, ¬ b.Holds address) →
          onDevice.2.memory.byte address = m.byte address := by
  refine ⟨_, Instrument.map_value m c mapped, fun calls => ?_⟩
  have mirrors := Instrument.Mirrors.start page c clear
  obtain ⟨answers, final⟩ := mirrors.run calls
  have held : (Instrument.simulated c).value = .blank c := rfl
  rw [held, Call.run_value calls mirrors.maps.sound.fullSize, Call.run_value calls mirrors.sound.fullSize]
  refine ⟨answers, fun b offset inside => ?_, fun address outside => final.maps.elsewhere outside⟩
  rw [← final.agrees.word b offset inside, final.maps.word_eq]

/-- A file of other bytes around its cleared blocks, on pages of 4096 bytes and on the smallest ones: a
refused set and a reload included, the run answers as the simulation does. -/
theorem device_mirrors_simulation_past_a_refusal :
    let held : Nat → Bool := fun a => Block.all.any fun b => b.base ≤ a && a < b.base + b.size
    let m : Memory := ⟨fun a => if held a then 0 else 0xA5⟩
    let l : Loop := ⟨.one, .two⟩
    let parameters : LoopParameters Binary64 :=
      ⟨l, .ofRat (1 / 2), .nan true, .ofRat 0, 7, ⟨0xE2⟩, .ofRat (-1), .ofRat 3, .ofRat 0, .input 2⟩
    let calls : List (Call Binary64) :=
      [.apply ⟨[parameters], []⟩, .exchange ⟨⟨.ideal, .ideal⟩, ⟨⟨.ofRat 2, .ofRat 0⟩, .ideal⟩⟩,
        .store (.limit .one .high (.ofRat (1 / 4))), .ask .capture]
    ∀ k ∈ [2, 12], ∃ device : Instrument Binary64,
      (Instrument.map (2 ^ k) (.ok m) .ideal).value = .ok device ∧
      (Call.run calls device).value.1 = (Call.run calls (Instrument.simulated .ideal).value).value.1 ∧
      (Call.run calls device).value.2.memory.readWord 0x40600004 = 8192 ∧
      (Call.run calls device).value.2.memory.byte 0x402FFFFF = 0xA5 := by
  intro held m l parameters calls k member
  have small : k ≤ 45 := by
    simp only [List.mem_cons, List.not_mem_nil, or_false] at member
    omega
  have clear : ∀ (b : Block) (address : Nat), b.Holds address → m.byte address = 0 := by
    intro b address inside
    have found : held address = true := by
      simp only [held, List.any_eq_true, Bool.and_eq_true, decide_eq_true_eq]
      exact ⟨b, by cases b <;> decide, inside⟩
    exact if_pos found
  obtain ⟨device, mapped, mirrors⟩ :=
    device_mirrors_simulation clear (Block.mapping_not_refused small) (.ideal : Calibration Binary64)
  obtain ⟨answers, words, elsewhere⟩ := mirrors calls
  refine ⟨device, mapped, answers, ?_, ?_⟩
  · exact (words .limit 4 (by decide)).trans (by decide +kernel)
  · refine (elsewhere 0x402FFFFF ?_).trans (by decide)
    rintro (_ | _ | _) ⟨low, high⟩ <;> revert low high <;> decide

end LockServo
