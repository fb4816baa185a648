import TaintFlow.Replay.Config
import TaintFlow.Trace.Json

/-!
# Replay configurations in JSON

Every field of a configuration may be left out. The target of a seed names its
kind in a member of its own, so a reader takes the whole target in before it
knows the kind, and accepts only what it can take in.
-/

namespace TaintFlow

open Json (Value)

namespace Architecture

def toJson : Architecture → Value
  | .amd64 => .text "amd64"

def ofJson? (value : Value) : Option Architecture :=
  match value.bareChoice? with
  | some "amd64" => some .amd64
  | _ => none

end Architecture

namespace PushSlot

def toJson : PushSlot → Value
  | .atStackPointer => .text "at_stack_pointer"
  | .belowStackPointer => .text "below_stack_pointer"

def ofJson? (value : Value) : Option PushSlot :=
  match value.bareChoice? with
  | some "at_stack_pointer" => some .atStackPointer
  | some "below_stack_pointer" => some .belowStackPointer
  | _ => none

end PushSlot

namespace PropagationOptions

def toJson (options : PropagationOptions) : Value :=
  .record [
    ("push_slot", options.pushSlot.toJson),
    ("overwrite_on_store", .bool options.overwriteOnStore)]

def ofJson? (value : Value) : Option PropagationOptions := do
  let fields ← value.fields? ["push_slot", "overwrite_on_store"]
  return {
    pushSlot := ← fields.optional "push_slot" .atStackPointer PushSlot.ofJson?
    overwriteOnStore := ← fields.optional "overwrite_on_store" false Value.bool? }

end PropagationOptions

namespace SeedTarget

/-- How deep arrays and objects inside a target may be nested: a text may open 127
of them within one another, and four are open around the fields of a target. -/
def nestingLimit : Nat := 123

def toJson : SeedTarget → Value
  | .register name => .record [("kind", .text "register"), ("name", .text name)]
  | .memory address size =>
    .record [
      ("kind", .text "memory"),
      ("address", uint64ToJson address),
      ("size", uint64ToJson size)]
  | .pointedMemory holder size =>
    .record [
      ("kind", .text "pointed_memory"),
      ("register", .text holder),
      ("size", uint64ToJson size)]

def ofJson? (value : Value) : Option SeedTarget := do
  match ← value.tagged? nestingLimit "kind" with
  | ("register", rest) =>
    let fields ← rest.fields? ["name"]
    return .register (← fields.required "name" Value.text?)
  | ("memory", rest) =>
    let fields ← rest.fields? ["address", "size"]
    return .memory (← fields.required "address" Value.uint64?) (← fields.required "size" Value.uint64?)
  | ("pointed_memory", rest) =>
    let fields ← rest.fields? ["register", "size"]
    return .pointedMemory (← fields.required "register" Value.text?) (← fields.required "size" Value.uint64?)
  | _ => none

end SeedTarget

namespace Seed

def toJson (seed : Seed) : Value :=
  .record [("at", optionToJson uint64ToJson seed.at?), ("target", seed.target.toJson)]

def ofJson? (value : Value) : Option Seed := do
  let fields ← value.fields? ["at", "target"]
  return {
    at? := ← fields.optional "at" none (Value.option? Value.uint64?)
    target := ← fields.required "target" SeedTarget.ofJson? }

end Seed

namespace ReplayConfig

def toJson (config : ReplayConfig) : Value :=
  .record [
    ("architecture", config.architecture.toJson),
    ("start_address", optionToJson uint64ToJson config.start?),
    ("stop_address", optionToJson uint64ToJson config.stop?),
    ("seeds", .array (config.seeds.map Seed.toJson)),
    ("engine", config.options.toJson)]

def ofJson? (value : Value) : Option ReplayConfig := do
  let fields ← value.fields? ["architecture", "start_address", "stop_address", "seeds", "engine"]
  return {
    architecture := ← fields.optional "architecture" .amd64 Architecture.ofJson?
    start? := ← fields.optional "start_address" none (Value.option? Value.uint64?)
    stop? := ← fields.optional "stop_address" none (Value.option? Value.uint64?)
    seeds := ← fields.optional "seeds" [] (Value.list? Seed.ofJson?)
    options := ← fields.optional "engine" {} PropagationOptions.ofJson? }

def render (config : ReplayConfig) : String := config.toJson.render .compact

def parse? (text : String) : Option ReplayConfig := do
  let value ← Value.parse? text
  ofJson? value

end ReplayConfig

end TaintFlow
