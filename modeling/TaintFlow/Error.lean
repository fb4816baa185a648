import TaintFlow.Text.Hex

/-!
# Why an operation is refused

One type for every refusal of the taint state and of propagation. The last two
constructors belong to operations that ask their caller for a bound: reading a
bit past the end of a bit set, and building an interval that holds no address.
-/

namespace TaintFlow

/-- What is wrong with the description of a register layout. -/
inductive LayoutFault where
  /-- A pointer is no bytes wide, or wider than an address. -/
  | pointerWidth (width : Nat)
  /-- A register is empty or reaches past the end of the context. -/
  | slot (register : String) (offset width contextSize : Nat)
  /-- The stack pointer or the program counter is not as wide as a pointer. -/
  | pointerRegister (register : String) (width expected : Nat)
deriving DecidableEq

def LayoutFault.message : LayoutFault → String
  | .pointerWidth width => s!"pointer width {width} is not in 1..=8"
  | .slot register offset width contextSize =>
    s!"register {register} at {offset}+{width} does not fit a {contextSize}-byte context"
  | .pointerRegister register width expected =>
    s!"{register} is {width} bytes wide, pointers are {expected}"

inductive Error where
  | unknownRegister (register : String)
  | invalidLayout (fault : LayoutFault)
  /-- The range does not end below the last 64-bit address. -/
  | addressOverflow (address : UInt64) (size : Nat)
  /-- The context gives no value for a register that an address needs. -/
  | missingRegisterValue (register : String)
  /-- An index is scaled by something other than 1, 2, 4 or 8. -/
  | invalidScale (scale : UInt8)
  | bitmapTooShort (register : String) (needed available : Nat)
  | bitOutOfRange (offset length : Nat)
  | emptyInterval (start stop : UInt64)
deriving DecidableEq

def Error.message : Error → String
  | .unknownRegister register => s!"unknown register: {register}"
  | .invalidLayout fault => s!"invalid architecture layout: {fault.message}"
  | .addressOverflow address size =>
    s!"address range {Hex.ofNat address.toNat}+{Hex.ofNat size} overflows the address space"
  | .missingRegisterValue register =>
    s!"no value for register {register} in the register context"
  | .invalidScale scale => s!"invalid index scale {scale.toNat}"
  | .bitmapTooShort register needed available =>
    s!"bitmap for {register} holds {available} bytes, {needed} required"
  | .bitOutOfRange offset length => s!"bit offset {offset} out of range {length}"
  | .emptyInterval start stop =>
    s!"empty interval [{Hex.ofNat start.toNat}, {Hex.ofNat stop.toNat})"

end TaintFlow
