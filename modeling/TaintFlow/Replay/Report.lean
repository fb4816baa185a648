import TaintFlow.Json.Printer
import TaintFlow.Replay.Run
import TaintFlow.Text.Quoted

/-!
# Reports

The taint of a session for a reader: which bytes of which registers are tainted,
and which memory. A report of a replay also tells how far the replay went.
-/

namespace TaintFlow

open Json (Value)

structure Report where
  /-- The registers with a tainted byte and their patterns, by ascending name. -/
  registers : List (String × List Bool)
  /-- The tainted memory as ascending, separated intervals. -/
  memory : List Interval
  stats : ReplayStats := {}
deriving DecidableEq

namespace Report

def ofSession {L : Layout} (session : Session L) : Report where
  registers := session.state.registers.tainted
  memory := session.taintedMemory

def isRegisterTainted (report : Report) (name : String) : Bool :=
  report.registers.any (·.1 == name)

def memoryBytes (report : Report) : UInt64 :=
  (report.memory.map Interval.size).foldl (· + ·) 0

/-- The bytes of a pattern, eight flags to a byte, as hexadecimal digits. -/
def bitmapText (pattern : List Bool) : String :=
  Hex.ofBytes (BitSet.ofList pattern).bytes.toList

def registerToJson (entry : String × List Bool) : Value :=
  .record [("name", .text entry.1), ("bitmap", .text (bitmapText entry.2))]

def intervalToJson (interval : Interval) : Value :=
  .record [("start", .int interval.start.toNat), ("end", .int interval.stop.toNat)]

def toJson (report : Report) : Value :=
  .record [
    ("tainted_registers", .array (report.registers.map registerToJson)),
    ("tainted_memory", .array (report.memory.map intervalToJson)),
    ("instructions_replayed", .int report.stats.replayed),
    ("instructions_propagated", .int report.stats.propagated),
    ("stopped_at",
      match report.stats.stoppedAt with
      | some address => .int address.toNat
      | none => .null)]

def render (report : Report) : String := report.toJson.render .indented

/-- Two lines for a reader: register names, and memory intervals. -/
protected def toString (report : Report) : String :=
  let registers := Text.bracketed (report.registers.map fun entry => Text.quote entry.1)
  let memory := Text.bracketed (report.memory.map Interval.toString)
  " tainted registers: " ++ registers ++ "\n tainted memory   : " ++ memory

end Report

def Trace.report (trace : Trace) (config : ReplayConfig) : Except ReplayError Report := do
  let replay ← trace.replay config
  return { Report.ofSession replay.session with stats := replay.stats }

end TaintFlow
