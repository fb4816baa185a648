import TaintFlow.Json.Parser
import TaintFlow.Json.Printer
import TaintFlow.Json.Record
import TaintFlow.Trace.Basic

/-!
# Traces in JSON

The recorded form of a trace. Operands, snapshots and every part of an address
may be left out when they are empty or have their usual value.
-/

namespace TaintFlow

open Json (Value)

def optionToJson {α : Type} (encode : α → Value) : Option α → Value
  | none => .null
  | some a => encode a

def uint64ToJson (n : UInt64) : Value := .int n.toNat

namespace MemoryOperand

def toJson (operand : MemoryOperand) : Value :=
  .record [
    ("base", optionToJson .text operand.base),
    ("index", optionToJson .text operand.index),
    ("scale", .int operand.scale.toNat),
    ("displacement", .int operand.displacement.toInt)]

def ofJson? (value : Value) : Option MemoryOperand := do
  let fields ← value.fields? ["base", "index", "scale", "displacement"]
  return {
    base := ← fields.optional "base" none (Value.option? Value.text?)
    index := ← fields.optional "index" none (Value.option? Value.text?)
    scale := ← fields.optional "scale" 1 Value.uint8?
    displacement := ← fields.optional "displacement" 0 Value.int64? }

end MemoryOperand

namespace OperandKind

def toJson : OperandKind → Value
  | .register name => .record [("register", .text name)]
  | .memory operand => .record [("memory", operand.toJson)]
  | .immediate value => .record [("immediate", .int value.toInt)]

def ofJson? (value : Value) : Option OperandKind :=
  match value.choice? with
  | some ("register", some value) => value.text?.map .register
  | some ("memory", some value) => (MemoryOperand.ofJson? value).map .memory
  | some ("immediate", some value) => value.int64?.map .immediate
  | _ => none

end OperandKind

namespace Operand

def toJson (operand : Operand) : Value :=
  .record [("kind", operand.kind.toJson), ("size", uint64ToJson operand.size)]

def ofJson? (value : Value) : Option Operand := do
  let fields ← value.fields? ["kind", "size"]
  return {
    kind := ← fields.required "kind" OperandKind.ofJson?
    size := ← fields.required "size" Value.uint64? }

end Operand

namespace Instruction

def toJson (instruction : Instruction) : Value :=
  .record [
    ("address", uint64ToJson instruction.address),
    ("mnemonic", .text instruction.mnemonic),
    ("operands", .array (instruction.operands.map Operand.toJson))]

def ofJson? (value : Value) : Option Instruction := do
  let fields ← value.fields? ["address", "mnemonic", "operands"]
  return {
    address := ← fields.required "address" Value.uint64?
    mnemonic := ← fields.required "mnemonic" Value.text?
    operands := ← fields.optional "operands" [] (Value.list? Operand.ofJson?) }

end Instruction

def Snapshot.toJson (snapshot : Snapshot) : Value :=
  .record (snapshot.entries.map fun (name, value) => (name, uint64ToJson value))

namespace TraceStep

def toJson (step : TraceStep) : Value :=
  .record [("instruction", step.instruction.toJson), ("registers", Snapshot.toJson step.registers)]

def ofJson? (value : Value) : Option TraceStep := do
  let fields ← value.fields? ["instruction", "registers"]
  return {
    instruction := ← fields.required "instruction" Instruction.ofJson?
    registers := ← fields.optional "registers" .empty (Value.map? Value.uint64?) }

end TraceStep

namespace Trace

def toJson (trace : Trace) : Value :=
  .record [("instructions", .array (trace.steps.map TraceStep.toJson))]

def ofJson? (value : Value) : Option Trace := do
  let fields ← value.fields? ["instructions"]
  return { steps := ← fields.required "instructions" (Value.list? TraceStep.ofJson?) }

def render (trace : Trace) : String := trace.toJson.render .indented

def parse? (text : String) : Option Trace := do
  let value ← Value.parse? text
  ofJson? value

end Trace

end TaintFlow
