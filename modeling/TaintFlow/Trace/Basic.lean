import TaintFlow.Machine.Instruction
import TaintFlow.NameMap

/-!
# Execution traces

A trace is the recording of one run: the executed instructions in order, each
with the values of some registers before it was executed.
-/

namespace TaintFlow

/-- Register values observed at one point of the program. -/
abbrev Snapshot := NameMap UInt64

structure TraceStep where
  instruction : Instruction
  registers : Snapshot
deriving DecidableEq

def TraceStep.address (step : TraceStep) : UInt64 := step.instruction.address

structure Trace where
  steps : List TraceStep := []
deriving DecidableEq

end TaintFlow
