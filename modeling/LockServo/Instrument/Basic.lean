import LockServo.Calibration
import LockServo.Conversion.Scale
import LockServo.Register.Window

/-!
# The instrument

Three register windows over one physical memory, and the calibration in force. An action on it may
change it, report events, and fail; what it changed before a failure stays.
-/

namespace LockServo

open Register

structure Instrument (ν : Type) where
  pid : Window
  limit : Window
  analog : Window
  /-- What mapped windows look into. -/
  memory : Memory
  calibration : Calibration ν

namespace Instrument

variable {ν : Type}

def window (i : Instrument ν) : Block → Window
  | .pid => i.pid
  | .limit => i.limit
  | .analog => i.analog

def view (i : Instrument ν) (b : Block) : View := ⟨i.window b, i.memory⟩

def setView (i : Instrument ν) (b : Block) (v : View) : Instrument ν :=
  match b with
  | .pid => { i with pid := v.window, memory := v.memory }
  | .limit => { i with limit := v.window, memory := v.memory }
  | .analog => { i with analog := v.window, memory := v.memory }

@[simp] theorem view_setView (i : Instrument ν) (b : Block) (v : View) : (i.setView b v).view b = v := by
  cases b <;> rfl

def words (i : Instrument ν) (b : Block) : List UInt32 := (i.view b).words

/-- Every block has its documented length. -/
def FullSize (i : Instrument ν) : Prop := ∀ b : Block, (i.window b).length = b.size

/-! ## Bringing up and letting go -/

/-- Zeroed registers that the instrument holds itself. -/
def blank (calibration : Calibration ν) : Instrument ν where
  pid := .simulated Block.pid.name Block.pid.size
  limit := .simulated Block.limit.name Block.limit.size
  analog := .simulated Block.analog.name Block.analog.size
  memory := .zero
  calibration

theorem blank_fullSize (calibration : Calibration ν) : (blank calibration).FullSize := by
  intro b
  cases b <;> rfl

def simulated (calibration : Calibration ν) : Reporting (Instrument ν) := do
  report .instrumentSimulated
  return blank calibration

/-- The page size of the system. -/
def pageSize : Nat := 4096

/-- Maps the three blocks in order; the first that cannot be mapped is the fault, and the ones mapped
before it are let go again. -/
def map (page : Nat) (device : Except FileCause Memory) (calibration : Calibration ν) :
    Reporting (Except (Fault ν) (Instrument ν)) := do
  match ← mapBlock .pid with
  | .error fault => return .error fault
  | .ok pid =>
    match ← mapBlock .limit with
    | .error fault =>
      pid.close
      return .error fault
    | .ok limit =>
      match ← mapBlock .analog with
      | .error fault =>
        limit.close
        pid.close
        return .error fault
      | .ok analog =>
        report .instrumentMapped
        return .ok ⟨pid, limit, analog, device.toOption.getD .zero, calibration⟩
where
  mapBlock (b : Block) : Reporting (Except (Fault ν) Window) :=
    Window.map page device b.name b.base b.size

def close (i : Instrument ν) : Reporting Unit := do
  i.pid.close
  i.limit.close
  i.analog.close

end Instrument

/-- A change of the instrument that reports events and may fail part of the way. -/
abbrev Action (ν α : Type) := ExceptT (Fault ν) (StateT (Instrument ν) Reporting) α

namespace Action

variable {ν α : Type}

/-- The outcome, the instrument afterwards, and the events. -/
def perform (action : Action ν α) (i : Instrument ν) :
    Reporting (Except (Fault ν) α × Instrument ν) :=
  StateT.run (ExceptT.run action) i

def ofReporting (x : Reporting α) : Action ν α := liftM (m := StateT (Instrument ν) Reporting) x

def ofConversion (x : Conversion ν α) : Action ν α :=
  ExceptT.mk (liftM (m := Reporting) (ExceptT.run x))

def ofRange (x : Except RangeFault α) : Action ν α :=
  match x with
  | .ok a => pure a
  | .error fault => throw (.outOfRange fault)

def calibration : Action ν (Calibration ν) := return (← get).calibration

def query (b : Block) (f : View → Except RangeFault α) : Action ν α := do
  ofRange (f ((← get).view b))

def update (b : Block) (f : View → Except RangeFault View) : Action ν Unit := do
  let v ← ofRange (f ((← get).view b))
  modify (·.setView b v)

def readField (f : Field) : Action ν UInt32 :=
  query f.block (·.getField f.offset f.mask f.shift)

def writeField (f : Field) (value : UInt32) : Action ν Unit :=
  update f.block (·.setField f.offset value f.mask f.shift)

/-- Stores a raw word past every conversion. -/
def poke (b : Block) (offset : Nat) (word : UInt32) : Action ν Unit :=
  update b (·.write offset word)

end Action

end LockServo
