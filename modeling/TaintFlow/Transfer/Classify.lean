import TaintFlow.Machine.Instruction

/-!
# What an instruction does to taint

Every instruction is one of a closed set of transfers, told from the number and
kinds of its operands and from the beginning of its mnemonic. Only data movement
is modelled: arithmetic, logic and string instructions are untracked, which
under-approximates the flow of information.
-/

namespace TaintFlow

inductive Transfer where
  /-- A register takes the taint of memory. -/
  | load (dest : String) (src : MemoryOperand)
  /-- The taint of a register is added to memory. -/
  | store (dest : MemoryOperand) (src : String)
  /-- A register takes the taint of a register. -/
  | copy (dest src : String)
  /-- A register is combined with itself into zero. -/
  | zero (dest : String)
  /-- A register takes a constant. -/
  | clear (dest : String)
  /-- Memory of the given size takes a constant. -/
  | clearMemory (dest : MemoryOperand) (size : UInt64)
  | push (src : String)
  | pop (dest : String)
  /-- The program counter is taken from the stack. -/
  | ret
  | untracked
deriving DecidableEq

namespace Transfer

/-- The transfer of a two-operand instruction that is no comparison. -/
def ofPair (instruction : Instruction) (dest src : Operand) : Transfer :=
  match dest.kind, src.kind with
  | .register dest, .memory src => .load dest src
  | .memory dest, .register src => .store dest src
  | .register dest, .immediate _ => if instruction.begins "mov" then .clear dest else .untracked
  | .memory dest, .immediate _ =>
    if instruction.begins "mov" then .clearMemory dest src.size else .untracked
  | .register dest, .register src =>
    if instruction.begins "xor" && dest == src then .zero dest else .copy dest src
  | _, _ => .untracked

/-- The transfer of an instruction on the stack, by its operand. -/
def ofStackOperand (operand : Operand) (transfer : String → Transfer) : Transfer :=
  match operand.register? with
  | some register => transfer register
  | none => .untracked

def classify (instruction : Instruction) : Transfer :=
  match instruction.operands with
  | [dest, src] =>
    if instruction.begins "cmp" || instruction.begins "test" then .untracked
    else ofPair instruction dest src
  | [operand] =>
    if instruction.begins "push" then ofStackOperand operand .push
    else if instruction.begins "pop" then ofStackOperand operand .pop
    else if instruction.begins "ret" then .ret
    else .untracked
  | _ => if instruction.begins "ret" then .ret else .untracked

def isTracked : Transfer → Bool
  | .untracked => false
  | _ => true

end Transfer

end TaintFlow
