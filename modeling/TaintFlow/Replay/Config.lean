import TaintFlow.Machine.Amd64
import TaintFlow.Replay.Seed

/-!
# What to replay

A configuration tells for which architecture a trace was recorded, where tracking
starts and stops, where taint comes from, and how it is propagated.
-/

namespace TaintFlow

inductive Architecture where
  | amd64
deriving DecidableEq

def Architecture.layout : Architecture → Layout
  | .amd64 => .amd64

structure ReplayConfig where
  architecture : Architecture := .amd64
  /-- Tracking starts at the first instruction with this address; at the first of
  all, if there is none. -/
  start? : Option UInt64 := none
  /-- Tracking stops before the first instruction with this address. -/
  stop? : Option UInt64 := none
  seeds : List Seed := []
  options : PropagationOptions := {}
deriving DecidableEq

end TaintFlow
