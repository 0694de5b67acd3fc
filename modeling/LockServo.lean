import LockServo.Call
import LockServo.Command.Directory
import LockServo.Main
import LockServo.Proofs.Register.Bits
import LockServo.Proofs.Register.Lens
import LockServo.Proofs.Register.View
import LockServo.Proofs.Register.Place
import LockServo.Proofs.Instrument.Registers
import LockServo.Proofs.Instrument.Places
import LockServo.Proofs.Instrument.Actions
import LockServo.Proofs.Instrument.Switches
import LockServo.Proofs.Instrument.Stores
import LockServo.Proofs.Instrument.LastWriter
import LockServo.Proofs.ParameterSet.Restore
import LockServo.Proofs.Binary64.Sign
import LockServo.Proofs.Conversion.Values
import LockServo.Proofs.ParameterSet.Acceptance
import LockServo.Proofs.Conversion.Sanitized
import LockServo.Proofs.Arithmetic.Accuracy
import LockServo.Proofs.Binary64.Nearest
import LockServo.Proofs.Binary64.Accuracy
import LockServo.Proofs.Conversion.RoundTrip
import LockServo.Proofs.ParameterSet.Recoding
import LockServo.Proofs.ParameterSet.Transfer
import LockServo.Proofs.ParameterSet.Drift
import LockServo.Proofs.Instrument.Queries
import LockServo.Proofs.Instrument.Refusals
import LockServo.Proofs.Instrument.Writers
import LockServo.Proofs.ParameterSet.Application
import LockServo.Proofs.Binary64.Overflow
import LockServo.Proofs.Conversion.Voltages
import LockServo.Proofs.Instrument.Voltages
import LockServo.Proofs.Conversion.Saturation
import LockServo.Proofs.Conversion.Clamping
import LockServo.Proofs.Instrument.Flagging
import LockServo.Proofs.Instrument.Ranges
import LockServo.Proofs.Instrument.Readback
import LockServo.Proofs.Instrument.Device
import LockServo.Proofs.Command.Stages
import LockServo.Proofs.Command.Outcome
import LockServo.Proofs.Document.RoundTrip
import LockServo.Proofs.Register.Backend
import LockServo.Proofs.Conversion.Counts
import LockServo.Proofs.Instrument.Order
import LockServo.Proofs.Instrument.FeatureSets
import LockServo.Proofs.Conversion.Casts
import LockServo.Proofs.Conversion.Truncation
import LockServo.Proofs.Instrument.Gains
import LockServo.Proofs.Instrument.Sanitized
