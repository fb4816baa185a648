import TaintFlow.Replay.Config

/-!
# Replaying a trace

A replay delivers the instructions of a trace to a session, one after another.
Tracking is switched on at the start address and ends before the stop address.
Seeds are applied before the instruction that they wait for, each of them once
and also while tracking is off; seeds without an address are applied when
tracking is switched on.
-/

namespace TaintFlow

inductive ReplayError where
  | seed (address : UInt64) (cause : SeedError)
  | propagation (mnemonic : String) (address : UInt64) (cause : Error)
deriving DecidableEq

/-- The reasons from the outermost to the first cause. -/
def ReplayError.chain : ReplayError → List String
  | .seed address cause =>
    [s!"Failed to apply taint seed at {Hex.ofNat address.toNat}", cause.message]
  | .propagation mnemonic address cause =>
    [s!"Failed to propagate taint through {mnemonic} at {Hex.ofNat address.toNat}", cause.message]

structure ReplayStats where
  /-- Instructions delivered while tracking was on. -/
  replayed : Nat := 0
  /-- Those among them that have a modelled effect. -/
  propagated : Nat := 0
  /-- The stop address, if it was reached. -/
  stoppedAt : Option UInt64 := none
deriving DecidableEq

/-- The register values at a step: those recorded, and for the program counter and
the other names of its bytes the address of the instruction. -/
def TraceStep.context (L : Layout) (step : TraceStep) : RegisterContext := fun register =>
  match step.registers.get? register with
  | some value => some value
  | none =>
    match L.registers.get? register with
    | some slot =>
      if L.registers.get? L.programCounter = some slot then some step.address else none
    | none => none

/-- Whether a seed is to be applied at an instruction with this address, when
tracking is on or off. -/
def Seed.isDue (seed : Seed) (address : UInt64) (active : Bool) : Bool :=
  match seed.at? with
  | some trigger => trigger == address
  | none => active

structure Replay (L : Layout) where
  session : Session L
  active : Bool := false
  /-- The seeds that have not been applied yet, in their order. -/
  pending : List Seed
  stats : ReplayStats := {}

namespace Replay

variable {L : Layout}

def start (L : Layout) (config : ReplayConfig) : Replay L where
  session := .start L config.options
  pending := config.seeds

/-- Applies seeds in their order, up to the first that is refused. -/
def applySeeds (session : Session L) (step : TraceStep) :
    List Seed → Except ReplayError (Session L)
  | [] => .ok session
  | seed :: seeds =>
    match seed.apply session step.registers with
    | (.ok (), session) => applySeeds session step seeds
    | (.error cause, _) => .error (.seed step.address cause)

def isActive (config : ReplayConfig) (active : Bool) (step : TraceStep) : Bool :=
  active ||
    match config.start? with
    | some start => start == step.address
    | none => true

def executeStep (replay : Replay L) (step : TraceStep) : Except ReplayError (Replay L) :=
  match replay.session.execute step.instruction (step.context L) with
  | (.ok transfer, session) =>
    .ok { replay with
      session
      stats := { replay.stats with
        replayed := replay.stats.replayed + 1
        propagated := replay.stats.propagated + if transfer.isTracked then 1 else 0 } }
  | (.error cause, _) =>
    .error (.propagation step.instruction.mnemonic step.address cause)

/-- Applies the seeds that are due at a step, and delivers its instruction if
tracking is on. -/
def visit (replay : Replay L) (active : Bool) (step : TraceStep) :
    Except ReplayError (Replay L) := do
  let (due, pending) := replay.pending.partition fun seed => seed.isDue step.address active
  let session ← applySeeds replay.session step due
  let replay := { replay with session, active, pending }
  if active then replay.executeStep step else return replay

def run (config : ReplayConfig) (replay : Replay L) :
    List TraceStep → Except ReplayError (Replay L)
  | [] => .ok replay
  | step :: steps =>
    let active := isActive config replay.active step
    if active && config.stop? == some step.address then
      .ok { replay with active, stats := { replay.stats with stoppedAt := some step.address } }
    else do
      let replay ← replay.visit active step
      replay.run config steps

end Replay

/-- Replays a trace: the final session, and what was counted on the way. -/
def Trace.replay (trace : Trace) (config : ReplayConfig) :
    Except ReplayError (Replay config.architecture.layout) :=
  (Replay.start config.architecture.layout config).run config trace.steps

end TaintFlow
