import TaintFlow.Proofs.ConfigText
import TaintFlow.Proofs.RecordEdits
import TaintFlow.Proofs.TraceText

/-!
# Edited documents

Whoever writes a trace or a configuration by hand leaves out what has its usual value, and
puts the fields in an order of their own. `Trace.edits` and `ReplayConfig.edits` are the
changes by which the written value becomes such a one, and those that take away a field that
has to be there.

The table of each record (`MemoryOperand.parts` and so on) lists its fields with the values
for which they may be left out, and `reads` says that the decoder of the record finds just
these. Only the target of a seed has no table, because its fields depend on its kind. It may
stand in any order all the same, the kind behind what it is the kind of
(`SeedTarget.ofJson?_reorder`), and none of its fields may be missing: what can be decoded has
been given with every field that it has (`SeedTarget.mem_of_ofJson?`).
-/

namespace TaintFlow.Json

open Relation (ReflTransGen)

variable {α : Type}

/-- The text is cut into the tokens of the value, whatever blanks stand between them. -/
def Spells (text : String) (value : Value) : Prop := tokenize text.toList = some value.tokens

theorem Spells.parse? {text : String} {value : Value} (h : Spells text value) :
    Value.parse? text = some value := by
  rw [Value.parse?, h]
  exact value.ofTokens?_tokens

/-- The text of a value may be read if it was edited harmlessly: then `a` is read, from every
text of the edited value. After one more edit that is damaging it is refused. -/
def ReadsEdited (edits : Edits) (read : String → Except DocumentError α)
    (refusal : DocumentError) (written : Value) (a : α) : Prop :=
  ∀ value, ReflTransGen (edits .harmless) written value →
    (∀ style, Spells (value.render style) value) ∧
    (∀ text, Spells text value → read text = .ok a) ∧
    ∀ cut, edits .damaging value cut →
      (∀ style, Spells (cut.render style) cut) ∧
      ∀ text, Spells text cut → read text = .error refusal

theorem Recovers.readsEdited {encode : α → Value} {decode : Value → Option α} {edits : Edits}
    {read : String → Except DocumentError α} {refusal : DocumentError}
    (hrecovers : Recovers encode decode) (hrespects : Respects decode edits)
    (hok : ∀ {text a}, (Value.parse? text).bind decode = some a → read text = .ok a)
    (herror : ∀ {text}, (Value.parse? text).bind decode = none → read text = .error refusal)
    (a : α) : ReadsEdited edits read refusal (encode a) a := by
  intro value hvalue
  have hintegral : value.Integral := hrespects.integral_all hvalue (hrecovers.integral a)
  have hdecode : decode value = some a := hrespects.keeps_all hvalue (hrecovers.decode_encode a)
  refine ⟨hintegral.tokenize_render, ?_, ?_⟩
  · intro text htext
    refine hok ?_
    rw [htext.parse?, Option.bind_some, hdecode]
  · intro cut hcut
    refine ⟨(hrespects.integral hcut hintegral).tokenize_render, ?_⟩
    intro text htext
    refine herror ?_
    rw [htext.parse?, Option.bind_some, hrespects.fails hcut hdecode]

end TaintFlow.Json

namespace TaintFlow

open Json
open Relation (ReflTransGen)

/-! ## Traces -/

namespace MemoryOperand

def parts : List (RecordPart MemoryOperand) := [
  .optional "base" .none (Value.option? Value.text?) (·.base) .null,
  .optional "index" .none (Value.option? Value.text?) (·.index) .null,
  .optional "scale" .none Value.uint8? (·.scale) (.int 1),
  .optional "displacement" .none Value.int64? (·.displacement) (.int 0)]

def edits : Edits := RecordEdit (parts.map RecordPart.toRecordField)

theorem reads : Reads ofJson? parts := by
  have hnull : Value.option? Value.text? .null = some none := rfl
  have hone : Value.uint8? (.int 1) = some 1 := recovers_uint8.decode_encode 1
  have hzero : Value.int64? (.int 0) = some 0 := recovers_int64.decode_encode 0
  refine .of_fields (by decide) ?_ (fun _ => rfl) ?_
  · simp only [parts, List.Forall]
    exact ⟨.optional hnull (respects_none _), .optional hnull (respects_none _),
      .optional hone (respects_none _), .optional hzero (respects_none _)⟩
  · intro given operand
    simp only [parts, List.Forall, RecordPart.find?_optional hnull,
      RecordPart.find?_optional hone, RecordPart.find?_optional hzero,
      Option.bind_eq_bind, Option.bind_eq_some_iff, Option.pure_def, Option.some.injEq]
    constructor
    · rintro ⟨_, hbase, _, hindex, _, hscale, _, hdisplacement, rfl⟩
      exact ⟨hbase, hindex, hscale, hdisplacement⟩
    · rintro ⟨hbase, hindex, hscale, hdisplacement⟩
      exact ⟨_, hbase, _, hindex, _, hscale, _, hdisplacement, rfl⟩

end MemoryOperand

namespace OperandKind

/-- The address of an operand in memory is edited. -/
inductive Edit : Edits where
  | memory {effect : Effect} {value edited : Value} (h : MemoryOperand.edits effect value edited) :
      Edit effect (.record [("memory", value)]) (.record [("memory", edited)])

theorem ofJson?_memory (value : Value) :
    ofJson? (.record [("memory", value)]) = (MemoryOperand.ofJson? value).map .memory := rfl

theorem respects : Respects ofJson? Edit where
  keeps hedit hvalue := by
    cases hedit with
    | memory h =>
        rw [ofJson?_memory] at hvalue ⊢
        obtain ⟨operand, hoperand, rfl⟩ := Option.map_eq_some_iff.mp hvalue
        rw [MemoryOperand.reads.respects_record.keeps h hoperand]
        rfl
  fails hedit hvalue := by
    cases hedit with
    | memory h =>
        rw [ofJson?_memory] at hvalue ⊢
        obtain ⟨operand, hoperand, -⟩ := Option.map_eq_some_iff.mp hvalue
        rw [MemoryOperand.reads.respects_record.fails h hoperand]
        rfl
  integral hedit hvalue := by
    cases hedit with
    | memory h =>
        rw [Value.integral_record_iff, List.forall_mem_singleton] at hvalue ⊢
        exact MemoryOperand.reads.respects_record.integral h hvalue

end OperandKind

namespace Operand

def parts : List (RecordPart Operand) := [
  .required "kind" OperandKind.Edit OperandKind.ofJson? (·.kind),
  .required "size" .none Value.uint64? (·.size)]

def edits : Edits := RecordEdit (parts.map RecordPart.toRecordField)

theorem reads : Reads ofJson? parts := by
  refine .of_fields (by decide) ?_ (fun _ => rfl) ?_
  · simp only [parts, List.Forall]
    exact ⟨.required OperandKind.respects, .required (respects_none _)⟩
  · intro given operand
    simp only [parts, List.Forall, RecordPart.find?_required,
      Option.bind_eq_bind, Option.bind_eq_some_iff, Option.pure_def, Option.some.injEq]
    constructor
    · rintro ⟨_, hkind, _, hsize, rfl⟩
      exact ⟨hkind, hsize⟩
    · rintro ⟨hkind, hsize⟩
      exact ⟨_, hkind, _, hsize, rfl⟩

end Operand

namespace Instruction

def parts : List (RecordPart Instruction) := [
  .required "address" .none Value.uint64? (·.address),
  .required "mnemonic" .none Value.text? (·.mnemonic),
  .optional "operands" (ItemEdit Operand.edits) (Value.list? Operand.ofJson?) (·.operands)
    (.array [])]

def edits : Edits := RecordEdit (parts.map RecordPart.toRecordField)

theorem reads : Reads ofJson? parts := by
  have hnone : Value.list? Operand.ofJson? (.array []) = some [] := rfl
  refine .of_fields (by decide) ?_ (fun _ => rfl) ?_
  · simp only [parts, List.Forall]
    exact ⟨.required (respects_none _), .required (respects_none _),
      .optional hnone Operand.reads.respects_record.list⟩
  · intro given instruction
    simp only [parts, List.Forall, RecordPart.find?_required, RecordPart.find?_optional hnone,
      Option.bind_eq_bind, Option.bind_eq_some_iff, Option.pure_def, Option.some.injEq]
    constructor
    · rintro ⟨_, haddress, _, hmnemonic, _, hoperands, rfl⟩
      exact ⟨haddress, hmnemonic, hoperands⟩
    · rintro ⟨haddress, hmnemonic, hoperands⟩
      exact ⟨_, haddress, _, hmnemonic, _, hoperands, rfl⟩

end Instruction

namespace TraceStep

def parts : List (RecordPart TraceStep) := [
  .required "instruction" Instruction.edits Instruction.ofJson? (·.instruction),
  .optional "registers" .none (Value.map? Value.uint64?) (·.registers) (.record [])]

def edits : Edits := RecordEdit (parts.map RecordPart.toRecordField)

theorem reads : Reads ofJson? parts := by
  have hempty : Value.map? Value.uint64? (.record []) = some .empty := rfl
  refine .of_fields (by decide) ?_ (fun _ => rfl) ?_
  · simp only [parts, List.Forall]
    exact ⟨.required Instruction.reads.respects_record, .optional hempty (respects_none _)⟩
  · intro given step
    simp only [parts, List.Forall, RecordPart.find?_required, RecordPart.find?_optional hempty,
      Option.bind_eq_bind, Option.bind_eq_some_iff, Option.pure_def, Option.some.injEq]
    constructor
    · rintro ⟨_, hinstruction, _, hregisters, rfl⟩
      exact ⟨hinstruction, hregisters⟩
    · rintro ⟨hinstruction, hregisters⟩
      exact ⟨_, hinstruction, _, hregisters, rfl⟩

end TraceStep

namespace Trace

def parts : List (RecordPart Trace) := [
  .required "instructions" (ItemEdit TraceStep.edits) (Value.list? TraceStep.ofJson?) (·.steps)]

def edits : Edits := RecordEdit (parts.map RecordPart.toRecordField)

theorem reads : Reads ofJson? parts := by
  refine .of_fields (by decide) ?_ (fun _ => rfl) ?_
  · simp only [parts, List.Forall]
    exact .required TraceStep.reads.respects_record.list
  · intro given trace
    simp only [parts, List.Forall, RecordPart.find?_required,
      Option.bind_eq_bind, Option.bind_eq_some_iff, Option.pure_def, Option.some.injEq]
    constructor
    · rintro ⟨_, hsteps, rfl⟩
      exact hsteps
    · intro hsteps
      exact ⟨_, hsteps, rfl⟩

end Trace

/-- A trace of one return, with no operands and no register values. -/
def bareReturn : Trace := ⟨[⟨⟨4195859, "ret", []⟩, .empty⟩]⟩

/-- What is written of a trace of one step, when nothing is written of the step but these
fields of its instruction. -/
def writtenStep (fields : List (String × Value)) : Value :=
  .record [("instructions", .array [.record [("instruction", .record fields)]])]

theorem step_mem_parts :
    (⟨"instruction", none, Instruction.edits⟩ : RecordField) ∈
      TraceStep.parts.map RecordPart.toRecordField := by
  simp [TraceStep.parts]

theorem steps_mem_parts :
    (⟨"instructions", none, ItemEdit TraceStep.edits⟩ : RecordField) ∈
      Trace.parts.map RecordPart.toRecordField := by
  simp [Trace.parts]

/-- The operands and the register values are left out, and the mnemonic stands first. -/
theorem edits_bareReturn :
    ReflTransGen (Trace.edits .harmless) bareReturn.toJson
      (writtenStep [("mnemonic", .text "ret"), ("address", uint64ToJson 4195859)]) := by
  let address : String × Value := ("address", uint64ToJson 4195859)
  let mnemonic : String × Value := ("mnemonic", .text "ret")
  have hoperands : Instruction.edits .harmless
      (.record [address, mnemonic, ("operands", .array [])]) (.record [address, mnemonic]) :=
    @RecordEdit.leaveOut _ ⟨"operands", some (.array []), ItemEdit Operand.edits⟩ _ _
      [address, mnemonic] [] (by simp [Instruction.parts]) rfl .refl
  have hswap : Instruction.edits .harmless
      (.record [address, mnemonic]) (.record [mnemonic, address]) :=
    .reorder (.swap _ _ _)
  have hregisters (instruction : Value) : TraceStep.edits .harmless
      (.record [("instruction", instruction), ("registers", .record [])])
      (.record [("instruction", instruction)]) :=
    @RecordEdit.leaveOut _ ⟨"registers", some (.record []), .none⟩ _ _
      [("instruction", instruction)] [] (by simp [TraceStep.parts]) rfl .refl
  have hstep : ReflTransGen (TraceStep.edits .harmless)
      (.record [("instruction", .record [address, mnemonic, ("operands", .array [])]),
        ("registers", .record [])])
      (.record [("instruction", .record [mnemonic, address])]) :=
    .tail (RecordEdit.inside_all step_mem_parts (.tail (.single hoperands) hswap) [] _)
      (hregisters _)
  exact RecordEdit.inside_all steps_mem_parts (ItemEdit.item_all hstep [] []) [] []

theorem edits_withoutMnemonic :
    Trace.edits .damaging
      (writtenStep [("mnemonic", .text "ret"), ("address", uint64ToJson 4195859)])
      (writtenStep [("address", uint64ToJson 4195859)]) := by
  have hmnemonic : Instruction.edits .damaging
      (.record [("mnemonic", .text "ret"), ("address", uint64ToJson 4195859)])
      (.record [("address", uint64ToJson 4195859)]) :=
    @RecordEdit.drop _ ⟨"mnemonic", none, .none⟩ _ [] _ (by simp [Instruction.parts]) rfl
  have hstep := @RecordEdit.inside _ _ _ _ _ [] [] step_mem_parts hmnemonic
  exact @RecordEdit.inside _ _ _ _ _ [] [] steps_mem_parts (@ItemEdit.item _ _ _ _ [] [] hstep)

/-! ## Configurations -/

namespace PropagationOptions

def parts : List (RecordPart PropagationOptions) := [
  .optional "push_slot" .none PushSlot.ofJson? (·.pushSlot) (.text "at_stack_pointer"),
  .optional "overwrite_on_store" .none Value.bool? (·.overwriteOnStore) (.bool false)]

def edits : Edits := RecordEdit (parts.map RecordPart.toRecordField)

theorem reads : Reads ofJson? parts := by
  have hslot : PushSlot.ofJson? (.text "at_stack_pointer") = some .atStackPointer := rfl
  have hfalse : Value.bool? (.bool false) = some false := rfl
  refine .of_fields (by decide) ?_ (fun _ => rfl) ?_
  · simp only [parts, List.Forall]
    exact ⟨.optional hslot (respects_none _), .optional hfalse (respects_none _)⟩
  · intro given options
    simp only [parts, List.Forall, RecordPart.find?_optional hslot,
      RecordPart.find?_optional hfalse,
      Option.bind_eq_bind, Option.bind_eq_some_iff, Option.pure_def, Option.some.injEq]
    constructor
    · rintro ⟨_, hslot, _, hoverwrite, rfl⟩
      exact ⟨hslot, hoverwrite⟩
    · rintro ⟨hslot, hoverwrite⟩
      exact ⟨_, hslot, _, hoverwrite, rfl⟩

end PropagationOptions

namespace SeedTarget

/-- The name of the kind of the target. -/
def kind : SeedTarget → String
  | .register _ => "register"
  | .memory _ _ => "memory"
  | .pointedMemory _ _ => "pointed_memory"

/-- The fields that stand beside the kind. -/
def content : SeedTarget → List (String × Value)
  | .register name => [("name", .text name)]
  | .memory address size => [("address", uint64ToJson address), ("size", uint64ToJson size)]
  | .pointedMemory holder size => [("register", .text holder), ("size", uint64ToJson size)]

/-- All fields of the target. -/
def fields (target : SeedTarget) : List (String × Value) :=
  ("kind", .text target.kind) :: target.content

theorem toJson_eq_record (target : SeedTarget) : target.toJson = .record target.fields := by
  cases target with
  | register name => rfl
  | memory address size => rfl
  | pointedMemory holder size => rfl

theorem nodup_fields (target : SeedTarget) : (target.fields.map Prod.fst).Nodup := by
  cases target with
  | register name => exact (by decide : ["kind", "name"].Nodup)
  | memory address size => exact (by decide : ["kind", "address", "size"].Nodup)
  | pointedMemory holder size => exact (by decide : ["kind", "register", "size"].Nodup)

/-- One change of a target: its fields are put into another order, or one is missing. -/
inductive Edit : Edits where
  | reorder {given others : List (String × Value)} (h : given.Perm others) :
      Edit .harmless (.record given) (.record others)
  | drop {target : SeedTarget} {field : String × Value} {before after : List (String × Value)}
      (h : target.fields.Perm (before ++ field :: after)) :
      Edit .damaging (.record (before ++ field :: after)) (.record (before ++ after))

theorem ofJson?_reorder {given others : List (String × Value)} (hperm : given.Perm others)
    {target : SeedTarget} (h : ofJson? (.record given) = some target) :
    ofJson? (.record others) = some target := by
  rw [ofJson?] at h ⊢
  obtain ⟨⟨kind, rest⟩, htag, h⟩ := Option.bind_eq_some_iff.mp h
  obtain ⟨hkind, rfl, hplain⟩ := Value.of_tagged?_record htag
  have hrest : (given.filter (·.1 != "kind")).Perm (others.filter (·.1 != "kind")) :=
    hperm.filter _
  have hothers : (Value.record others).tagged? nestingLimit "kind" =
      some (kind, .record (others.filter (·.1 != "kind"))) :=
    Value.tagged?_record (List.singleton_perm.mp (hkind ▸ hperm.filter _)).symm rfl
      fun field hfield => hplain field (hrest.mem_iff.mpr hfield)
  rw [hothers, Option.bind_eq_bind, Option.bind_some]
  by_cases hregister : kind = "register"
  · subst hregister
    refine Value.fields?_record_bind_of_perm hrest (fun hlookup => ?_) h
    simp only [Fields.required, hlookup "name" (by simp)]
  by_cases hmemory : kind = "memory"
  · subst hmemory
    refine Value.fields?_record_bind_of_perm hrest (fun hlookup => ?_) h
    simp only [Fields.required, hlookup "address" (by simp), hlookup "size" (by simp)]
  by_cases hpointed : kind = "pointed_memory"
  · subst hpointed
    refine Value.fields?_record_bind_of_perm hrest (fun hlookup => ?_) h
    simp only [Fields.required, hlookup "register" (by simp), hlookup "size" (by simp)]
  · simp [hregister, hmemory, hpointed] at h

/-- What is decoded has been given, with all of its fields. -/
theorem mem_of_ofJson? {given : List (String × Value)} {target : SeedTarget}
    (h : ofJson? (.record given) = some target) :
    ("kind", .text target.kind) ∈ given ∧
      ∀ name ∈ target.content.map Prod.fst, name ∈ given.map Prod.fst := by
  rw [ofJson?] at h
  obtain ⟨⟨kind, rest⟩, htag, h⟩ := Option.bind_eq_some_iff.mp h
  obtain ⟨hkind, rfl, -⟩ := Value.of_tagged?_record htag
  have hmem : ("kind", .text kind) ∈ given :=
    List.mem_of_mem_filter (hkind ▸ List.mem_singleton_self _)
  have hbeside : ∀ name ∈ (given.filter (·.1 != "kind")).map Prod.fst,
      name ∈ given.map Prod.fst := (List.filter_sublist.map Prod.fst).subset
  by_cases hregister : kind = "register"
  · subst hregister
    obtain ⟨-, h⟩ := Value.fields?_record_bind_eq_some_iff.mp h
    obtain ⟨name, hname, h⟩ := Option.bind_eq_some_iff.mp h
    cases h
    refine ⟨hmem, List.forall_mem_singleton.mpr ?_⟩
    exact hbeside _ (Fields.mem_of_required hname)
  by_cases hmemory : kind = "memory"
  · subst hmemory
    obtain ⟨-, h⟩ := Value.fields?_record_bind_eq_some_iff.mp h
    obtain ⟨address, haddress, h⟩ := Option.bind_eq_some_iff.mp h
    obtain ⟨size, hsize, h⟩ := Option.bind_eq_some_iff.mp h
    cases h
    refine ⟨hmem, List.forall_mem_cons.mpr ⟨?_, List.forall_mem_singleton.mpr ?_⟩⟩
    · exact hbeside _ (Fields.mem_of_required haddress)
    · exact hbeside _ (Fields.mem_of_required hsize)
  by_cases hpointed : kind = "pointed_memory"
  · subst hpointed
    obtain ⟨-, h⟩ := Value.fields?_record_bind_eq_some_iff.mp h
    obtain ⟨holder, hholder, h⟩ := Option.bind_eq_some_iff.mp h
    obtain ⟨size, hsize, h⟩ := Option.bind_eq_some_iff.mp h
    cases h
    refine ⟨hmem, List.forall_mem_cons.mpr ⟨?_, List.forall_mem_singleton.mpr ?_⟩⟩
    · exact hbeside _ (Fields.mem_of_required hholder)
    · exact hbeside _ (Fields.mem_of_required hsize)
  · simp [hregister, hmemory, hpointed] at h

theorem eq_kind_of_mem {target : SeedTarget} {kind : String}
    (h : ("kind", .text kind) ∈ target.fields) : kind = target.kind := by
  rcases List.mem_cons.mp h with heq | hcontent
  · cases heq
    rfl
  · have hnodup := target.nodup_fields
    rw [fields, List.map_cons, List.nodup_cons] at hnodup
    exact absurd (List.mem_map_of_mem hcontent) hnodup.1

/-- The kind decides which fields there are. -/
theorem map_fst_content_of_kind {target other : SeedTarget} (h : target.kind = other.kind) :
    target.content.map Prod.fst = other.content.map Prod.fst := by
  cases target <;> cases other <;> simp_all [kind, content]

theorem ofJson?_drop {target : SeedTarget} {field : String × Value}
    {before after : List (String × Value)} (h : target.fields.Perm (before ++ field :: after)) :
    ofJson? (.record (before ++ after)) = none := by
  have hnodup := (h.map Prod.fst).nodup_iff.mp target.nodup_fields
  rw [List.map_append, List.map_cons, List.nodup_middle, List.nodup_cons,
    ← List.map_append] at hnodup
  cases hdecode : ofJson? (.record (before ++ after)) with
  | none => rfl
  | some other =>
      obtain ⟨hgiven, hcontent⟩ := mem_of_ofJson? hdecode
      -- What is decoded is of the same kind, so it has a field of the name that is missing.
      have hkind : other.kind = target.kind := by
        refine eq_kind_of_mem (h.mem_iff.mpr ?_)
        exact List.perm_middle.mem_iff.mpr (List.mem_cons_of_mem field hgiven)
      have hfield : field ∈ target.fields :=
        h.mem_iff.mpr (List.mem_append_right _ List.mem_cons_self)
      refine absurd ?_ hnodup.1
      rcases List.mem_cons.mp hfield with rfl | hfield
      · exact List.mem_map.mpr ⟨_, hgiven, rfl⟩
      · refine hcontent field.1 ?_
        rw [map_fst_content_of_kind hkind]
        exact List.mem_map_of_mem hfield

theorem respects : Respects ofJson? Edit where
  keeps hedit hvalue := by
    cases hedit with
    | reorder hperm => exact ofJson?_reorder hperm hvalue
  fails hedit _ := by
    cases hedit with
    | drop hfields => exact ofJson?_drop hfields
  integral hedit hvalue := by
    cases hedit with
    | reorder hperm => exact hvalue.reorder hperm
    | drop => exact (Value.integral_record_middle.mp hvalue).2

end SeedTarget

namespace Seed

def parts : List (RecordPart Seed) := [
  .optional "at" .none (Value.option? Value.uint64?) (·.at?) .null,
  .required "target" SeedTarget.Edit SeedTarget.ofJson? (·.target)]

def edits : Edits := RecordEdit (parts.map RecordPart.toRecordField)

theorem reads : Reads ofJson? parts := by
  have hnull : Value.option? Value.uint64? .null = some none := rfl
  refine .of_fields (by decide) ?_ (fun _ => rfl) ?_
  · simp only [parts, List.Forall]
    exact ⟨.optional hnull (respects_none _), .required SeedTarget.respects⟩
  · intro given seed
    simp only [parts, List.Forall, RecordPart.find?_required, RecordPart.find?_optional hnull,
      Option.bind_eq_bind, Option.bind_eq_some_iff, Option.pure_def, Option.some.injEq]
    constructor
    · rintro ⟨_, hat, _, htarget, rfl⟩
      exact ⟨hat, htarget⟩
    · rintro ⟨hat, htarget⟩
      exact ⟨_, hat, _, htarget, rfl⟩

end Seed

namespace ReplayConfig

def parts : List (RecordPart ReplayConfig) := [
  .optional "architecture" .none Architecture.ofJson? (·.architecture) (.text "amd64"),
  .optional "start_address" .none (Value.option? Value.uint64?) (·.start?) .null,
  .optional "stop_address" .none (Value.option? Value.uint64?) (·.stop?) .null,
  .optional "seeds" (ItemEdit Seed.edits) (Value.list? Seed.ofJson?) (·.seeds) (.array []),
  .optional "engine" PropagationOptions.edits PropagationOptions.ofJson? (·.options)
    (PropagationOptions.toJson {})]

def edits : Edits := RecordEdit (parts.map RecordPart.toRecordField)

theorem reads : Reads ofJson? parts := by
  have hamd64 : Architecture.ofJson? (.text "amd64") = some .amd64 := rfl
  have hnull : Value.option? Value.uint64? .null = some none := rfl
  have hnone : Value.list? Seed.ofJson? (.array []) = some [] := rfl
  have hengine := PropagationOptions.recovers.decode_encode {}
  refine .of_fields (by decide) ?_ (fun _ => rfl) ?_
  · simp only [parts, List.Forall]
    exact ⟨.optional hamd64 (respects_none _), .optional hnull (respects_none _),
      .optional hnull (respects_none _), .optional hnone Seed.reads.respects_record.list,
      .optional hengine PropagationOptions.reads.respects_record⟩
  · intro given config
    simp only [parts, List.Forall, RecordPart.find?_optional hamd64,
      RecordPart.find?_optional hnull, RecordPart.find?_optional hnone,
      RecordPart.find?_optional hengine,
      Option.bind_eq_bind, Option.bind_eq_some_iff, Option.pure_def, Option.some.injEq]
    constructor
    · rintro ⟨_, harchitecture, _, hstart, _, hstop, _, hseeds, _, hoptions, rfl⟩
      exact ⟨harchitecture, hstart, hstop, hseeds, hoptions⟩
    · rintro ⟨harchitecture, hstart, hstop, hseeds, hoptions⟩
      exact ⟨_, harchitecture, _, hstart, _, hstop, _, hseeds, _, hoptions, rfl⟩

end ReplayConfig

/-- A configuration of which only the target of one seed is written. -/
def writtenTarget (fields : List (String × Value)) : Value :=
  .record [("seeds", .array [.record [("target", .record fields)]])]

theorem target_mem_parts :
    (⟨"target", none, SeedTarget.Edit⟩ : RecordField) ∈
      Seed.parts.map RecordPart.toRecordField := by
  simp [Seed.parts]

theorem seeds_mem_parts :
    (⟨"seeds", some (.array []), ItemEdit Seed.edits⟩ : RecordField) ∈
      ReplayConfig.parts.map RecordPart.toRecordField := by
  simp [ReplayConfig.parts]

/-- The kind of the target stands last, and all that has its default is left out. -/
theorem edits_kindLast (target : SeedTarget) :
    ReflTransGen (ReplayConfig.edits .harmless)
      (ReplayConfig.toJson { seeds := [⟨none, target⟩] })
      (writtenTarget (target.content ++ [("kind", .text target.kind)])) := by
  have hkind : SeedTarget.Edit .harmless target.toJson
      (.record (target.content ++ [("kind", .text target.kind)])) := by
    rw [SeedTarget.toJson_eq_record]
    exact .reorder (List.perm_append_singleton _ _).symm
  have hat : Seed.edits .harmless (.record [("at", .null), ("target", target.toJson)])
      (.record [("target", target.toJson)]) :=
    @RecordEdit.leaveOut _ ⟨"at", some .null, .none⟩ _ _ [] _ (by simp [Seed.parts]) rfl .refl
  have hseed : ReflTransGen (Seed.edits .harmless)
      (.record [("at", .null), ("target", target.toJson)])
      (.record [("target", .record (target.content ++ [("kind", .text target.kind)]))]) :=
    .head hat (RecordEdit.inside_all target_mem_parts (.single hkind) [] [])
  refine .head (@RecordEdit.leaveOut _ ⟨"architecture", some (.text "amd64"), .none⟩ _ _ [] _
    (by simp [ReplayConfig.parts]) rfl .refl) ?_
  refine .head (@RecordEdit.leaveOut _ ⟨"start_address", some .null, .none⟩ _ _ [] _
    (by simp [ReplayConfig.parts]) rfl .refl) ?_
  refine .head (@RecordEdit.leaveOut _ ⟨"stop_address", some .null, .none⟩ _ _ [] _
    (by simp [ReplayConfig.parts]) rfl .refl) ?_
  refine .head (@RecordEdit.leaveOut _
    ⟨"engine", some (PropagationOptions.toJson {}), PropagationOptions.edits⟩ _ _
    [("seeds", .array [.record [("at", .null), ("target", target.toJson)]])] []
    (by simp [ReplayConfig.parts]) rfl .refl) ?_
  exact RecordEdit.inside_all seeds_mem_parts (ItemEdit.item_all hseed [] []) [] []

theorem edits_withoutKind (target : SeedTarget) :
    ReplayConfig.edits .damaging
      (writtenTarget (target.content ++ [("kind", .text target.kind)]))
      (writtenTarget target.content) := by
  have hkind : SeedTarget.Edit .damaging
      (.record (target.content ++ [("kind", .text target.kind)])) (.record target.content) := by
    have hdrop := @SeedTarget.Edit.drop target ("kind", .text target.kind) target.content []
      (List.perm_append_singleton _ _).symm
    rwa [List.append_nil] at hdrop
  have hseed := @RecordEdit.inside _ _ _ _ _ [] [] target_mem_parts hkind
  exact @RecordEdit.inside _ _ _ _ _ [] [] seeds_mem_parts (@ItemEdit.item _ _ _ _ [] [] hseed)

/-! ## Documents -/

/-- Traces and configurations are read from every text of their edited values. -/
theorem documents_readsEdited :
    (∀ trace : Trace,
      ReadsEdited Trace.edits Trace.ofText .malformedTrace trace.toJson trace) ∧
    ∀ config : ReplayConfig,
      ReadsEdited ReplayConfig.edits ReplayConfig.ofText .malformedConfig config.toJson
        config := by
  constructor
  · intro trace
    refine Trace.recovers.readsEdited Trace.reads.respects_record ?_ ?_ trace
    · intro text trace h
      rw [Trace.ofText, Trace.parse?, Option.bind_eq_bind, h]
    · intro text h
      rw [Trace.ofText, Trace.parse?, Option.bind_eq_bind, h]
  · intro config
    refine ReplayConfig.recovers.readsEdited ReplayConfig.reads.respects_record ?_ ?_ config
    · intro text config h
      rw [ReplayConfig.ofText, ReplayConfig.parse?, Option.bind_eq_bind, h]
    · intro text h
      rw [ReplayConfig.ofText, ReplayConfig.parse?, Option.bind_eq_bind, h]

/-- Neither the mnemonic of a return nor the kind of a seed has to stand where it is written,
and neither may be missing. -/
theorem documents_readsEdited_reordered :
    Trace.ofText ((writtenStep
        [("mnemonic", .text "ret"), ("address", uint64ToJson 4195859)]).render .compact) =
      .ok bareReturn ∧
    Trace.ofText ((writtenStep [("address", uint64ToJson 4195859)]).render .compact) =
      .error .malformedTrace ∧
    ReplayConfig.ofText ((writtenTarget
        [("name", .text "rdi"), ("kind", .text "register")]).render .compact) =
      .ok { seeds := [⟨none, .register "rdi"⟩] } ∧
    ReplayConfig.ofText ((writtenTarget [("name", .text "rdi")]).render .compact) =
      .error .malformedConfig := by
  obtain ⟨hstep, hreturn, hdamaged⟩ := documents_readsEdited.1 bareReturn _ edits_bareReturn
  obtain ⟨hcutStep, hnoTrace⟩ := hdamaged _ edits_withoutMnemonic
  obtain ⟨htarget, hconfig, hdamaged⟩ :=
    documents_readsEdited.2 _ _ (edits_kindLast (.register "rdi"))
  obtain ⟨hcutTarget, hnoConfig⟩ := hdamaged _ (edits_withoutKind (.register "rdi"))
  exact ⟨hreturn _ (hstep .compact), hnoTrace _ (hcutStep .compact),
    hconfig _ (htarget .compact), hnoConfig _ (hcutTarget .compact)⟩

end TaintFlow
