import LockServo.Fault
import LockServo.Toml.Rendering

/-!
# Documents in files

From the bytes of a file to what its document describes, and from a text to its file. A file that is not
there is told apart from every other reason not to get a document out of it.
-/

namespace LockServo

inductive Unfit where
  | emptyServiceName
  | emptyDevice
  | calibrationNotFinite
  deriving DecidableEq

def Unfit.message : Unfit → String
  | .emptyServiceName => "service_name cannot be empty"
  | .emptyDevice => "mapping.device cannot be empty"
  | .calibrationNotFinite => "calibration values must be finite"

inductive DocumentFault where
  | notFound
  | malformed
  | unfit (cause : Unfit)
  | unwritable (cause : FileCause)
  deriving DecidableEq

def DocumentFault.message : DocumentFault → String
  | .notFound => "Configuration file not found"
  | .malformed => "Failed to parse configuration"
  | .unfit cause => "Configuration validation failed: " ++ cause.message
  | .unwritable cause => "Failed to write configuration: " ++ cause.message

namespace Toml

def decodeText {α : Type} (decode : Table → Option α) (text : String) : Except DocumentFault α :=
  match (parse? text).bind decode with
  | some a => .ok a
  | none => .error .malformed

def decodeFile {α : Type} (decode : Table → Option α) (file : Except FileCause ByteArray) :
    Except DocumentFault α :=
  match file with
  | .error .notFound => .error .notFound
  | .error _ => .error .malformed
  | .ok bytes =>
    match String.fromUTF8? bytes with
    | some text => decodeText decode text
    | none => .error .malformed

/-- The text that ends up in a file, unless nothing can be written there. -/
def encodeFile (target : Except FileCause Unit) (text : String) : Except DocumentFault String :=
  match target with
  | .error cause => .error (.unwritable cause)
  | .ok _ => .ok text

theorem decodeFile_toUTF8 {α : Type} (decode : Table → Option α) (text : String) :
    decodeFile decode (.ok text.toUTF8) = decodeText decode text := by
  have h : String.fromUTF8? text.toUTF8 = some text := by
    simp [String.fromUTF8?, String.toUTF8, String.fromUTF8, text.isValidUTF8]
  simp only [decodeFile, h]

end Toml

end LockServo
