/-!
# Decoded instructions

An instruction as the instrumentation layer delivers it: its address, its
mnemonic as a disassembler prints it, and its operands, destination first.
-/

namespace TaintFlow

/-- The address `base + index * scale + displacement`. -/
structure MemoryOperand where
  base : Option String := none
  index : Option String := none
  scale : UInt8 := 1
  displacement : Int64 := 0
deriving DecidableEq

inductive OperandKind where
  | register (name : String)
  | memory (operand : MemoryOperand)
  | immediate (value : Int64)
deriving DecidableEq

/-- An operand, and how many bytes of it the instruction accesses. -/
structure Operand where
  kind : OperandKind
  size : UInt64
deriving DecidableEq

def Operand.register? (operand : Operand) : Option String :=
  match operand.kind with
  | .register name => some name
  | _ => none

structure Instruction where
  address : UInt64
  mnemonic : String
  operands : List Operand := []
deriving DecidableEq

/-- Whether the mnemonic begins with `stem`, which is lowercase. Uppercase ASCII
letters of the mnemonic count as lowercase ones. -/
def Instruction.begins (instruction : Instruction) (stem : String) : Bool :=
  stem.toList.isPrefixOf (instruction.mnemonic.toList.map Char.toLower)

end TaintFlow
