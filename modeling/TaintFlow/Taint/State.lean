import TaintFlow.Taint.Memory
import TaintFlow.Taint.Registers

/-!
# The taint of a machine

Registers and memory together. A computation that changes them is made of changes of the
one part and of the other, and of questions to either.
-/

namespace TaintFlow

structure TaintState (L : Layout) where
  registers : RegisterTaint L
  memory : MemoryTaint
deriving DecidableEq

def TaintState.clean {L : Layout} : TaintState L := ⟨.clean, .clean⟩

/-- A computation on the taint of a machine, which may be refused. -/
abbrev Tracking (L : Layout) := Mutation (TaintState L)

namespace Tracking

variable {L : Layout} {α : Type}

def ofRegisters (f : RegisterTaint L → Except Error α) : Tracking L α := do
  f (← get).registers

def ofMemory (f : MemoryTaint → Except Error α) : Tracking L α := do
  f (← get).memory

def onRegisters (change : Mutation (RegisterTaint L) α) : Tracking L α :=
  .within TaintState.registers (fun state registers => { state with registers }) change

def onMemory (change : Mutation MemoryTaint α) : Tracking L α :=
  .within TaintState.memory (fun state memory => { state with memory }) change

@[simp] theorem run_ofRegisters (f : RegisterTaint L → Except Error α) (state : TaintState L) :
    Mutation.run (ofRegisters f) state = (f state.registers, state) := rfl

@[simp] theorem run_ofMemory (f : MemoryTaint → Except Error α) (state : TaintState L) :
    Mutation.run (ofMemory f : Tracking L α) state = (f state.memory, state) := rfl

@[simp] theorem run_onRegisters (change : Mutation (RegisterTaint L) α) (state : TaintState L) :
    Mutation.run (onRegisters change) state =
      ((change.run state.registers).1,
        { state with registers := (change.run state.registers).2 }) := rfl

@[simp] theorem run_onMemory (change : Mutation MemoryTaint α) (state : TaintState L) :
    Mutation.run (onMemory change : Tracking L α) state =
      ((change.run state.memory).1, { state with memory := (change.run state.memory).2 }) := rfl

end Tracking

end TaintFlow
