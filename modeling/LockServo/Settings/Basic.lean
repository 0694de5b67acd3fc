import LockServo.Document.Load
import LockServo.Instrument.Basic

/-!
# Settings

What the program is told about its service, its memory device and its calibration. Settings are fit for
use when they name the service, name a device unless they simulate one, and calibrate by finite numbers.
They bring up an instrument with registers of its own, or one on the blocks of their device.
-/

namespace LockServo

structure Settings where
  /-- Events less severe than this are not logged. -/
  severity : Severity := .info
  serviceName : String := "lockbox"
  device : String := "/dev/mem"
  simulate : Bool := false
  calibration : Calibration Binary64 := .ideal
  deriving DecidableEq

namespace Settings

def defaultPath : String := "/etc/lockbox/lockbox.toml"

/-- The first reason why the settings are unfit for use. -/
def validate (s : Settings) : Except DocumentFault Unit :=
  if s.serviceName.isEmpty then .error (.unfit .emptyServiceName)
  else if !s.simulate && s.device.isEmpty then .error (.unfit .emptyDevice)
  else if !s.calibration.hasFiniteValues then .error (.unfit .calibrationNotFinite)
  else .ok ()

def start (s : Settings) (device : Except FileCause Register.Memory) :
    Reporting (Except (Fault Binary64) (Instrument Binary64)) :=
  if s.simulate then Except.ok <$> Instrument.simulated s.calibration
  else Instrument.map Instrument.pageSize device s.calibration

end Settings

end LockServo
