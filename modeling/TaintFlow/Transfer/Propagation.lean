import TaintFlow.Machine.EffectiveAddress
import TaintFlow.Taint.State
import TaintFlow.Transfer.Classify

/-!
# Propagation of taint

A transfer moves taint between registers and memory. It looks up, reads and
checks everything before it changes anything, so a refused transfer leaves the
state as it was.
-/

namespace TaintFlow

/-- Where a push writes, seen from the stack pointer that the context shows. -/
inductive PushSlot where
  /-- At the stack pointer, which has been lowered already. -/
  | atStackPointer
  /-- Right below the stack pointer, which is about to be lowered. -/
  | belowStackPointer
deriving DecidableEq

structure PropagationOptions where
  pushSlot : PushSlot := .atStackPointer
  /-- Whether a store untaints the bytes it writes before it adds the taint of the
  register. Otherwise bytes that the register leaves clean keep their taint. -/
  overwriteOnStore : Bool := false
deriving DecidableEq

namespace Propagation

variable {L : Layout}

/-- The register takes the taint of as many bytes of memory as it has. -/
def loadRegister (dest : String) (address : UInt64) : Tracking L Unit := do
  let slot ← L.slot dest
  let bitmap ← Tracking.ofMemory (·.bitmap address slot.width)
  Tracking.onRegisters (RegisterTaint.load dest bitmap)

def storeRegister (options : PropagationOptions) (address : UInt64) (src : String) :
    Tracking L Unit := do
  let ranges ← Tracking.ofRegisters (·.intervals src address)
  if options.overwriteOnStore then
    let slot ← L.slot src
    Tracking.onMemory (MemoryTaint.clear address slot.width)
  Tracking.onMemory (modify (·.addAll ranges))

def pushAddress (options : PropagationOptions) (context : RegisterContext) (src : String) :
    Tracking L UInt64 := do
  let top ← context.read L.stackPointer
  match options.pushSlot with
  | .atStackPointer => return top
  | .belowStackPointer =>
    let slot ← L.slot src
    return top - UInt64.ofNat slot.width

/-- Runs `body` on the address of an operand that denotes one. -/
def withAddress (context : RegisterContext) (operand : MemoryOperand)
    (body : UInt64 → Tracking L Unit) : Tracking L Unit := do
  match ← operand.effectiveAddress context with
  | some address => body address
  | none => return

def apply (options : PropagationOptions) (context : RegisterContext) : Transfer → Tracking L Unit
  | .load dest src => withAddress context src (loadRegister dest)
  | .store dest src => withAddress context dest (storeRegister options · src)
  | .copy dest src => Tracking.onRegisters (RegisterTaint.copy dest src)
  | .zero dest | .clear dest => Tracking.onRegisters (RegisterTaint.untaint dest)
  | .clearMemory dest size =>
    withAddress context dest fun address =>
      Tracking.onMemory (MemoryTaint.untaint address size.toNat)
  | .push src => do
    let address ← pushAddress options context src
    storeRegister options address src
  | .pop dest => do
    let top ← context.read L.stackPointer
    loadRegister dest top
  | .ret => do
    let top ← context.read L.stackPointer
    let bitmap ← Tracking.ofMemory (·.bitmap top L.pointerWidth)
    Tracking.onRegisters (RegisterTaint.load L.programCounter bitmap)
  | .untracked => return

def execute (options : PropagationOptions) (context : RegisterContext) (instruction : Instruction) :
    Tracking L Transfer := do
  let transfer := Transfer.classify instruction
  apply options context transfer
  return transfer

end Propagation

end TaintFlow
