import TaintFlow.Session
import TaintFlow.Trace.Basic

/-!
# Seeds of taint

A seed marks its target as tainted once, at one point of a replay. Memory can be
named by its address, or by the register that holds the address at that point.
-/

namespace TaintFlow

inductive SeedTarget where
  | register (name : String)
  | memory (address size : UInt64)
  /-- Memory at the address that a register holds when the seed is applied. -/
  | pointedMemory (register : String) (size : UInt64)
deriving DecidableEq

/-- A source of taint, which is applied once. -/
structure Seed where
  /-- The instruction before which the seed is applied; the first one tracked, if
  there is none. -/
  at? : Option UInt64 := none
  target : SeedTarget
deriving DecidableEq

inductive SeedError where
  /-- The snapshot has no value for the register that holds the address. -/
  | missingRegisterValue (register : String)
  | refused (cause : Error)
deriving DecidableEq

def SeedError.message : SeedError → String
  | .missingRegisterValue register => s!"No value for seed register {register}"
  | .refused cause => cause.message

def Seed.apply {L : Layout} (seed : Seed) (session : Session L) (snapshot : Snapshot) :
    Except SeedError Unit × Session L :=
  match seed.target with
  | .register name =>
    let (result, session) := session.taintRegister name
    (result.mapError .refused, session)
  | .memory address size =>
    let (result, session) := session.taintMemory address size.toNat
    (result.mapError .refused, session)
  | .pointedMemory register size =>
    match snapshot.get? register with
    | none => (.error (.missingRegisterValue register), session)
    | some address =>
      let (result, session) := session.taintMemory address size.toNat
      (result.mapError .refused, session)

end TaintFlow
