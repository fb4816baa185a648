import TaintFlow.Proofs.Records
import TaintFlow.Replay.Document

/-!
# Traces are read back

Every part of a trace is recovered from its value, from the operands up to the whole:
each record from its fields, each operand from the one field that names its kind. The
value has only integers for numbers, so a trace is recovered from its text as well,
whatever its addresses, values, names and mnemonics are.
-/

namespace TaintFlow

open Json

theorem MemoryOperand.recovers : Recovers toJson ofJson? where
  integral operand := by
    have hname := recovers_text.option nofun
    refine .record ?_
    rw [List.forall_mem_cons, List.forall_mem_cons, List.forall_mem_cons,
      List.forall_mem_singleton]
    exact ⟨hname.integral operand.base, hname.integral operand.index,
      recovers_uint8.integral operand.scale, recovers_int64.integral operand.displacement⟩
  decode_encode operand := by
    have hname := recovers_text.option nofun
    rw [toJson, ofJson?, Value.fields?_record_bind]
    · simp [hname.decode_encode,
        recovers_uint8.decode_encode, recovers_int64.decode_encode]
    · show ["base", "index", "scale", "displacement"].Nodup
      decide

theorem OperandKind.recovers : Recovers toJson ofJson? where
  integral
    | .register name => .record (List.forall_mem_singleton.mpr (recovers_text.integral name))
    | .memory operand =>
        .record (List.forall_mem_singleton.mpr (MemoryOperand.recovers.integral operand))
    | .immediate value =>
        .record (List.forall_mem_singleton.mpr (recovers_int64.integral value))
  decode_encode kind := by
    cases kind with
    | register name => rfl
    | memory operand =>
        show (MemoryOperand.ofJson? operand.toJson).map _ = _
        rw [MemoryOperand.recovers.decode_encode]
        rfl
    | immediate value =>
        show (Value.int64? (.int value.toInt)).map _ = _
        rw [recovers_int64.decode_encode]
        rfl

theorem Operand.recovers : Recovers toJson ofJson? where
  integral operand := by
    refine .record ?_
    rw [List.forall_mem_cons, List.forall_mem_singleton]
    exact ⟨OperandKind.recovers.integral operand.kind, recovers_uint64.integral operand.size⟩
  decode_encode operand := by
    rw [toJson, ofJson?, Value.fields?_record_bind]
    · simp [OperandKind.recovers.decode_encode,
        recovers_uint64.decode_encode]
    · show ["kind", "size"].Nodup
      decide

theorem Instruction.recovers : Recovers toJson ofJson? where
  integral instruction := by
    refine .record ?_
    rw [List.forall_mem_cons, List.forall_mem_cons, List.forall_mem_singleton]
    exact ⟨recovers_uint64.integral instruction.address,
      recovers_text.integral instruction.mnemonic,
      Operand.recovers.list.integral instruction.operands⟩
  decode_encode instruction := by
    rw [toJson, ofJson?, Value.fields?_record_bind]
    · simp [recovers_uint64.decode_encode, recovers_text.decode_encode,
        Operand.recovers.list.decode_encode]
    · show ["address", "mnemonic", "operands"].Nodup
      decide

theorem Snapshot.recovers : Recovers Snapshot.toJson (Value.map? Value.uint64?) :=
  recovers_uint64.map

theorem TraceStep.recovers : Recovers toJson ofJson? where
  integral step := by
    refine .record ?_
    rw [List.forall_mem_cons, List.forall_mem_singleton]
    exact ⟨Instruction.recovers.integral step.instruction,
      Snapshot.recovers.integral step.registers⟩
  decode_encode step := by
    rw [toJson, ofJson?, Value.fields?_record_bind]
    · simp [Instruction.recovers.decode_encode, Snapshot.recovers.decode_encode]
    · show ["instruction", "registers"].Nodup
      decide

namespace Trace

theorem recovers : Recovers toJson ofJson? where
  integral trace := by
    refine .record ?_
    rw [List.forall_mem_singleton]
    exact TraceStep.recovers.list.integral trace.steps
  decode_encode trace := by
    rw [toJson, ofJson?, Value.fields?_record_bind]
    · simp [TraceStep.recovers.list.decode_encode]
    · show ["instructions"].Nodup
      decide

/-- The text of any trace is read back as that trace. -/
theorem ofText_render (trace : Trace) : ofText trace.render = .ok trace := by
  have hparse : parse? trace.render = some trace := recovers.parse_render .indented trace
  rw [ofText, hparse]

end Trace

end TaintFlow
