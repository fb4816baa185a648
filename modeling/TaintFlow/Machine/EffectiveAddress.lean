import TaintFlow.Error
import TaintFlow.Machine.Instruction

/-!
# Register values and effective addresses

Tracking needs the values of registers only to compute addresses. A
`RegisterContext` answers with the value of a register at the current point of
the program, where it knows one.
-/

namespace TaintFlow

abbrev RegisterContext := String → Option UInt64

def RegisterContext.read (context : RegisterContext) (register : String) : Except Error UInt64 :=
  match context register with
  | some value => .ok value
  | none => .error (.missingRegisterValue register)

/-- The scales that the index of an address can have. -/
def MemoryOperand.validScale (operand : MemoryOperand) : Bool :=
  operand.scale == 1 || operand.scale == 2 || operand.scale == 4 || operand.scale == 8

def MemoryOperand.indexOffset (operand : MemoryOperand) (context : RegisterContext) :
    Except Error UInt64 :=
  match operand.index with
  | none => .ok 0
  | some index =>
    if operand.validScale then do
      let value ← context.read index
      return value * operand.scale.toUInt64
    else .error (.invalidScale operand.scale)

/-- The address that an operand denotes, computed modulo `2 ^ 64`. An operand
without a base register is absolute or relative to a segment; it denotes no
address that is tracked. -/
def MemoryOperand.effectiveAddress (operand : MemoryOperand) (context : RegisterContext) :
    Except Error (Option UInt64) :=
  match operand.base with
  | none => .ok none
  | some base => do
    let value ← context.read base
    let offset ← operand.indexOffset context
    return some (value + operand.displacement.toUInt64 + offset)

end TaintFlow
