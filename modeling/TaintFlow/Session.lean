import TaintFlow.Transfer.Propagation

/-!
# Tracing sessions

A session is the taint of one traced execution together with the options under
which it is propagated. It is where taint is seeded and read, and where every
executed instruction is delivered.
-/

namespace TaintFlow

structure Session (L : Layout) where
  options : PropagationOptions
  state : TaintState L
deriving DecidableEq

namespace Session

variable {L : Layout} {α : Type}

def start (L : Layout) (options : PropagationOptions) : Session L := ⟨options, .clean⟩

def run (s : Session L) (computation : Tracking L α) : Except Error α × Session L :=
  let (result, state) := computation.run s.state
  (result, { s with state })

def execute (s : Session L) (instruction : Instruction) (context : RegisterContext) :
    Except Error Transfer × Session L :=
  s.run (Propagation.execute s.options context instruction)

/-- An executed instruction is its transfer, applied. -/
theorem execute_eq (s : Session L) (instruction : Instruction) (context : RegisterContext) :
    s.execute instruction context =
      ((s.run (Propagation.apply s.options context (Transfer.classify instruction))).1.map
          fun _ => Transfer.classify instruction,
        (s.run (Propagation.apply s.options context (Transfer.classify instruction))).2) := by
  rw [execute, run, Propagation.execute, run, Mutation.run_bind]
  rcases Mutation.run (Propagation.apply s.options context (Transfer.classify instruction))
    s.state with ⟨result, after⟩
  cases result with
  | error e => rfl
  | ok _ => rfl

def taintRegister (s : Session L) (register : String) : Except Error Unit × Session L :=
  s.run (Tracking.onRegisters (RegisterTaint.taint register))

def untaintRegister (s : Session L) (register : String) : Except Error Unit × Session L :=
  s.run (Tracking.onRegisters (RegisterTaint.untaint register))

def taintMemory (s : Session L) (address : UInt64) (size : Nat) : Except Error Unit × Session L :=
  s.run (Tracking.onMemory (MemoryTaint.taint address size))

def untaintMemory (s : Session L) (address : UInt64) (size : Nat) :
    Except Error Unit × Session L :=
  s.run (Tracking.onMemory (MemoryTaint.untaint address size))

def taintedMemory (s : Session L) : List Interval := s.state.memory.merged

/-- The tainted bytes of a register as addresses, when its first byte lies at `base`. -/
def registerIntervals (s : Session L) (register : String) (base : UInt64) :
    Except Error (List Interval) :=
  s.state.registers.intervals register base

def reset (s : Session L) : Session L := { s with state := .clean }

end Session

end TaintFlow
