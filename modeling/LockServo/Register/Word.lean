/-!
# Fields of a register word

Reading and writing some bits of a 32-bit word. A value wider than its mask loses its high bits, as it
would in hardware; nothing here fails. Shifts are below 32.
-/

namespace LockServo.Register

def getField (word mask shift : UInt32) : UInt32 := (word >>> shift) &&& mask

def setField (word value mask shift : UInt32) : UInt32 :=
  (word &&& ~~~(mask <<< shift)) ||| ((value &&& mask) <<< shift)

def setBits (word bits mask : UInt32) : UInt32 := word ||| (bits &&& mask)

def clearBits (word bits mask : UInt32) : UInt32 := word &&& ~~~(bits &&& mask)

def bitsSet (word bits mask : UInt32) : Bool :=
  let wanted := bits &&& mask
  word &&& wanted == wanted

/-- The low `width` bits as a two's complement number. -/
def signExtend (raw : UInt32) (width : Nat) : Int :=
  let unused := UInt32.ofNat (32 - width)
  ((raw <<< unused).toInt32 >>> unused.toInt32).toInt

end LockServo.Register
