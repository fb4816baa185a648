import TaintFlow.Proofs.SeedSets

/-!
# What decides the transfer of an instruction

The arms of `Transfer.classify` hide each other: which of them an instruction reaches depends
on the number of its operands before anything is asked about its mnemonic. Here it is said
without an order, by the kinds of the operands and by how the lowercase mnemonic begins
(`Instruction.MovesData`).

Of the operands their kinds and names are looked at, of the mnemonic its beginning, and of a
constant that is stored its size. So instructions that agree in these have the same transfer
(`Instruction.Resembles`), and a trace whose mnemonics are spelled in other letters has the
same report. Only the reason for which a replay breaks off shows the spelling.
-/

namespace TaintFlow

/-! ## Mnemonics -/

/-- The mnemonic in lowercase letters. -/
def Instruction.lowered (instruction : Instruction) : List Char :=
  instruction.mnemonic.toList.map Char.toLower

/-- The lowercase mnemonic begins with `stem`. -/
def Instruction.Starts (instruction : Instruction) (stem : String) : Prop :=
  stem.toList <+: instruction.lowered

/-- The texts differ at most in the case of ASCII letters. -/
def EqualUpToCase (a b : String) : Prop :=
  a.toList.map Char.toLower = b.toList.map Char.toLower

theorem Instruction.begins_iff {instruction : Instruction} {stem : String} :
    instruction.begins stem = true ↔ instruction.Starts stem := List.isPrefixOf_iff_prefix

/-- A mnemonic begins with at most one of two stems that part ways. -/
theorem Instruction.Starts.excludes {instruction : Instruction} {stem other : String}
    (h : instruction.Starts stem)
    (hparted : ¬ (stem.toList <+: other.toList ∨ other.toList <+: stem.toList)) :
    ¬ instruction.Starts other := by
  intro hother
  exact hparted (List.prefix_or_prefix_of_prefix h hother)

/-! ## Instructions that are tracked -/

/-- The kinds of two operands between which data moves, `constant` telling whether a constant
is moved. -/
inductive OperandKind.Moves (constant : Prop) : OperandKind → OperandKind → Prop where
  | load (register : String) (operand : MemoryOperand) :
      Moves constant (.register register) (.memory operand)
  | store (operand : MemoryOperand) (register : String) :
      Moves constant (.memory operand) (.register register)
  | copy (dest src : String) : Moves constant (.register dest) (.register src)
  | clear (register : String) (value : Int64) (h : constant) :
      Moves constant (.register register) (.immediate value)
  | clearMemory (operand : MemoryOperand) (value : Int64) (h : constant) :
      Moves constant (.memory operand) (.immediate value)

/-- The instruction moves data: between two operands, between the stack and a register, or
from the stack into the program counter. -/
def Instruction.MovesData (instruction : Instruction) : Prop :=
  (∃ dest src, instruction.operands = [dest, src] ∧ ¬ instruction.Starts "cmp" ∧
      ¬ instruction.Starts "test" ∧
      OperandKind.Moves (instruction.Starts "mov") dest.kind src.kind) ∨
    (∃ operand register, instruction.operands = [operand] ∧
      operand.kind = .register register ∧
      (instruction.Starts "push" ∨ instruction.Starts "pop")) ∨
    (instruction.operands.length ≠ 2 ∧ instruction.Starts "ret")

namespace Transfer

variable {instruction other : Instruction} {dest src operand : Operand}

@[simp] theorem isTracked_untracked : untracked.isTracked = false := rfl

theorem isTracked_ofPair :
    (ofPair instruction dest src).isTracked = true ↔
      OperandKind.Moves (instruction.Starts "mov") dest.kind src.kind := by
  rw [ofPair, ← Instruction.begins_iff]
  constructor
  · intro h
    cases hdest : dest.kind with
    | register name =>
        cases hsrc : src.kind with
        | register source => exact .copy name source
        | memory place => exact .load name place
        | immediate value =>
            simp only [hdest, hsrc] at h
            split at h
            · next hmov => exact .clear name value hmov
            · cases h
    | memory place =>
        cases hsrc : src.kind with
        | register source => exact .store place source
        | memory _ => simp [hdest, hsrc, isTracked] at h
        | immediate value =>
            simp only [hdest, hsrc] at h
            split at h
            · next hmov => exact .clearMemory place value hmov
            · cases h
    | immediate _ =>
        cases hsrc : src.kind <;> simp [hdest, hsrc, isTracked] at h
  · intro h
    generalize dest.kind = destKind at h ⊢
    generalize src.kind = srcKind at h ⊢
    cases h with
    | load _ _ => rfl
    | store _ _ => rfl
    | copy dest src =>
        show (if _ then zero dest else copy dest src).isTracked = true
        split <;> rfl
    | clear register value hmov => simp [hmov, isTracked]
    | clearMemory operand value hmov => simp [hmov, isTracked]

theorem isTracked_ofStackOperand {transfer : String → Transfer}
    (h : ∀ register, (transfer register).isTracked = true) :
    (ofStackOperand operand transfer).isTracked = true ↔
      ∃ register, operand.kind = .register register := by
  cases hkind : operand.kind with
  | register name => simp [ofStackOperand, Operand.register?, hkind, h]
  | memory _ => simp [ofStackOperand, Operand.register?, hkind, isTracked]
  | immediate _ => simp [ofStackOperand, Operand.register?, hkind, isTracked]

/-- What has one operand is tracked if a register is pushed or popped, or as a return. -/
theorem isTracked_single (h : instruction.operands = [operand]) :
    (classify instruction).isTracked = true ↔
      (∃ register, operand.kind = .register register) ∧
          (instruction.Starts "push" ∨ instruction.Starts "pop") ∨
        instruction.Starts "ret" := by
  have hpushed : instruction.Starts "push" → ¬ instruction.Starts "ret" :=
    fun hpush => hpush.excludes (by decide)
  have hpopped : instruction.Starts "pop" → ¬ instruction.Starts "ret" :=
    fun hpop => hpop.excludes (by decide)
  simp only [← Instruction.begins_iff] at hpushed hpopped ⊢
  simp only [classify, h]
  split
  · next hpush =>
      rw [isTracked_ofStackOperand fun _ => rfl]
      simp [hpush, hpushed hpush]
  · next hpush =>
      split
      · next hpop =>
          rw [isTracked_ofStackOperand fun _ => rfl]
          simp [hpop, hpopped hpop]
      · next hpop =>
          split
          · next hret => simp [hret, isTracked]
          · next hret => simp [hpush, hpop, hret]

/-- The instructions that are tracked are those that move data. -/
theorem isTracked_classify_iff (instruction : Instruction) :
    (classify instruction).isTracked = true ↔ instruction.MovesData := by
  rw [Instruction.MovesData]
  cases hoperands : instruction.operands with
  | nil =>
      simp only [classify, hoperands, ← Instruction.begins_iff]
      cases instruction.begins "ret" <;> simp [isTracked]
  | cons first rest =>
      cases rest with
      | nil =>
          rw [isTracked_single hoperands]
          simp [and_comm]
      | cons second more =>
          cases more with
          | nil =>
              have hpair : (ofPair instruction first second).isTracked = true ↔
                  OperandKind.Moves (instruction.Starts "mov") first.kind second.kind :=
                isTracked_ofPair
              simp only [← Instruction.begins_iff] at hpair ⊢
              simp only [classify, hoperands]
              cases instruction.begins "cmp" <;> cases instruction.begins "test" <;>
                simp [hpair]
          | cons third more =>
              simp only [classify, hoperands, ← Instruction.begins_iff]
              cases instruction.begins "ret" <;> simp [isTracked]

/-! ## Copies between registers -/

/-- Of two registers, the first is zeroed by an exclusive or that names it twice; anything
else that is no comparison copies. -/
theorem classify_registers {a b : String} (h : instruction.operands = [dest, src])
    (hdest : dest.kind = .register a) (hsrc : src.kind = .register b) :
    (classify instruction = .zero a ↔ instruction.Starts "xor" ∧ a = b) ∧
      (classify instruction = .copy a b ↔ ¬ instruction.Starts "cmp" ∧
        ¬ instruction.Starts "test" ∧ ¬ (instruction.Starts "xor" ∧ a = b)) := by
  have hcmp : instruction.Starts "xor" → ¬ instruction.Starts "cmp" :=
    fun hxor => hxor.excludes (by decide)
  have htest : instruction.Starts "xor" → ¬ instruction.Starts "test" :=
    fun hxor => hxor.excludes (by decide)
  simp only [← Instruction.begins_iff] at hcmp htest ⊢
  simp only [classify, h, ofPair, hdest, hsrc]
  by_cases hcompares : (instruction.begins "cmp" || instruction.begins "test") = true
  · rw [if_pos hcompares]
    rw [Bool.or_eq_true] at hcompares
    grind
  · rw [if_neg hcompares]
    rw [Bool.or_eq_true] at hcompares
    by_cases hzeroes : (instruction.begins "xor" && a == b) = true
    · rw [if_pos hzeroes]
      grind
    · rw [if_neg hzeroes]
      grind

/-! ## Instructions that resemble each other -/

/-- With two operands, four stems are asked for. -/
theorem classify_congr_of_pair (h : instruction.operands = [dest, src])
    (hother : other.operands = [dest, src])
    (hstems : ∀ stem ∈ ["cmp", "test", "mov", "xor"],
      instruction.begins stem = other.begins stem) :
    classify instruction = classify other := by
  simp only [List.forall_mem_cons] at hstems
  obtain ⟨hcmp, htest, hmov, hxor, -⟩ := hstems
  simp only [classify, h, hother, ofPair, hcmp, htest, hmov, hxor]

/-- The stems of the stack mean nothing in front of two operands: such an instruction has
the transfer that it would have without a mnemonic. -/
theorem classify_stack_pair (h : instruction.operands = [dest, src])
    (hstack : instruction.Starts "push" ∨ instruction.Starts "pop" ∨ instruction.Starts "ret") :
    classify instruction = classify { instruction with mnemonic := "" } := by
  have hparted : ∀ stem ∈ ["cmp", "test", "mov", "xor"], ∀ mine ∈ ["push", "pop", "ret"],
      ¬ (mine.toList <+: stem.toList ∨ stem.toList <+: mine.toList) := by
    decide
  have hempty : ∀ stem ∈ ["cmp", "test", "mov", "xor"],
      stem.toList.isPrefixOf ("".toList.map Char.toLower) = false := by
    decide
  refine classify_congr_of_pair h h ?_
  intro stem hstem
  have hstarts : ¬ instruction.Starts stem := by
    rcases hstack with hpush | hpop | hret
    · exact hpush.excludes (hparted stem hstem "push" (by decide))
    · exact hpop.excludes (hparted stem hstem "pop" (by decide))
    · exact hret.excludes (hparted stem hstem "ret" (by decide))
  rw [← Instruction.begins_iff, Bool.not_eq_true] at hstarts
  rw [hstarts]
  exact (hempty stem hstem).symm

end Transfer

/-- Operands of one kind, with the same names. The values of constants may differ. -/
inductive OperandKind.Resembles : OperandKind → OperandKind → Prop where
  | register (name : String) : Resembles (.register name) (.register name)
  | memory (operand : MemoryOperand) : Resembles (.memory operand) (.memory operand)
  | immediate (value other : Int64) : Resembles (.immediate value) (.immediate other)

/-- One mnemonic up to the case of its letters, and operands that resemble each other.
Addresses, the values of constants and the sizes of operands may differ. -/
structure Instruction.Resembles (instruction other : Instruction) : Prop where
  mnemonic : EqualUpToCase instruction.mnemonic other.mnemonic
  operands : List.Forall₂ (fun a b => a.kind.Resembles b.kind) instruction.operands other.operands

/-- The size of the second of two operands. -/
def Instruction.sourceSize (instruction : Instruction) : UInt64 :=
  match instruction.operands with
  | [_, src] => src.size
  | _ => 0

/-- The transfer with another size where it clears memory. -/
def Transfer.withSize (size : UInt64) : Transfer → Transfer
  | .clearMemory dest _ => .clearMemory dest size
  | transfer => transfer

theorem Instruction.begins_congr {instruction other : Instruction}
    (h : EqualUpToCase instruction.mnemonic other.mnemonic) (stem : String) :
    instruction.begins stem = other.begins stem := by
  rw [begins, begins, h]

namespace Transfer

variable {instruction other : Instruction} {operand dest src destOther srcOther : Operand}

theorem ofPair_resembles (h : EqualUpToCase instruction.mnemonic other.mnemonic)
    (hdest : dest.kind.Resembles destOther.kind) (hsrc : src.kind.Resembles srcOther.kind) :
    ofPair other destOther srcOther = (ofPair instruction dest src).withSize srcOther.size := by
  simp only [ofPair, Instruction.begins_congr h]
  generalize dest.kind = destKind at hdest ⊢
  generalize destOther.kind = destKindOther at hdest ⊢
  generalize src.kind = srcKind at hsrc ⊢
  generalize srcOther.kind = srcKindOther at hsrc ⊢
  cases hdest with
  | register name =>
      cases hsrc with
      | register _ => simp only; split <;> rfl
      | memory _ => rfl
      | immediate _ _ => simp only; split <;> rfl
  | memory place =>
      cases hsrc with
      | register _ => rfl
      | memory _ => rfl
      | immediate _ _ => simp only; split <;> rfl
  | immediate _ _ => cases hsrc <;> rfl

theorem ofStackOperand_resembles {operandOther : Operand}
    (h : operand.kind.Resembles operandOther.kind) (transfer : String → Transfer) :
    ofStackOperand operandOther transfer = ofStackOperand operand transfer := by
  rw [ofStackOperand, ofStackOperand, Operand.register?, Operand.register?]
  generalize operand.kind = kind at h ⊢
  generalize operandOther.kind = kindOther at h ⊢
  cases h <;> rfl

theorem withSize_ofStackOperand {size : UInt64} {transfer : String → Transfer}
    (h : ∀ register, (transfer register).withSize size = transfer register) :
    (ofStackOperand operand transfer).withSize size = ofStackOperand operand transfer := by
  rw [ofStackOperand]
  cases operand.register? with
  | none => rfl
  | some register => exact h register

/-- Instructions that resemble each other have the same transfer, but for the size of the
memory that a constant is stored to. -/
theorem classify_resembles (h : instruction.Resembles other) :
    classify other = (classify instruction).withSize other.sourceSize := by
  have hbegins := Instruction.begins_congr h.mnemonic
  have hoperands := h.operands
  rw [classify, classify, Instruction.sourceSize]
  generalize instruction.operands = operands at hoperands ⊢
  generalize other.operands = operandsOther at hoperands ⊢
  simp only [hbegins]
  cases hoperands with
  | nil => simp only; split <;> rfl
  | cons hfirst hrest =>
      cases hrest with
      | nil =>
          simp only [ofStackOperand_resembles hfirst]
          split
          · exact (withSize_ofStackOperand fun _ => rfl).symm
          · split
            · exact (withSize_ofStackOperand fun _ => rfl).symm
            · split <;> rfl
      | cons hsecond hmore =>
          cases hmore with
          | nil =>
              simp only
              split
              · rfl
              · exact ofPair_resembles h.mnemonic hfirst hsecond
          | cons _ _ => simp only; split <;> rfl

end Transfer

/-! ## Respelled traces -/

/-- The same step, with the letters of the mnemonic in other cases. -/
structure TraceStep.Respells (step other : TraceStep) : Prop where
  mnemonic : EqualUpToCase step.instruction.mnemonic other.instruction.mnemonic
  operands : step.instruction.operands = other.instruction.operands
  address : step.address = other.address
  registers : step.registers = other.registers

/-- The same reason, with the letters of a mnemonic in other cases. -/
inductive ReplayError.Respells : ReplayError → ReplayError → Prop where
  | seed (address : UInt64) (cause : SeedError) : Respells (.seed address cause) (.seed address cause)
  | propagation {mnemonic other : String} (h : EqualUpToCase mnemonic other) (address : UInt64)
      (cause : Error) :
      Respells (.propagation mnemonic address cause) (.propagation other address cause)

theorem ReplayError.Respells.refl (e : ReplayError) : e.Respells e := by
  cases e with
  | seed address cause => exact .seed address cause
  | propagation mnemonic address cause => exact .propagation rfl address cause

section

variable {L : Layout} {step other : TraceStep}

theorem TraceStep.Respells.classify_eq (h : step.Respells other) :
    Transfer.classify step.instruction = Transfer.classify other.instruction := by
  simp only [Transfer.classify, Transfer.ofPair, Instruction.begins_congr h.mnemonic, h.operands]

theorem TraceStep.Respells.context_eq (h : step.Respells other) :
    step.context L = other.context L := by
  funext register
  rw [context, context, h.registers, h.address]

namespace Replay

theorem applySeeds_respelled (h : step.Respells other) (session : Session L)
    (seeds : List Seed) : applySeeds session step seeds = applySeeds session other seeds := by
  induction seeds generalizing session with
  | nil => rfl
  | cons seed seeds ih => simp only [applySeeds, h.registers, h.address, ih]

theorem executeStep_respelled (h : step.Respells other) (replay : Replay L) :
    Matched ReplayError.Respells Eq (replay.executeStep step) (replay.executeStep other) := by
  have hexecute : replay.session.execute step.instruction (step.context L) =
      replay.session.execute other.instruction (other.context L) := by
    rw [Session.execute_eq, Session.execute_eq, h.classify_eq, h.context_eq]
  rw [executeStep, executeStep, hexecute]
  rcases replay.session.execute other.instruction (other.context L) with ⟨result, after⟩
  cases result with
  | error cause =>
      rw [h.address]
      exact .error (.propagation h.mnemonic _ _)
  | ok transfer => exact .ok rfl

theorem visit_respelled (h : step.Respells other) (replay : Replay L) (active : Bool) :
    Matched ReplayError.Respells Eq (replay.visit active step) (replay.visit active other) := by
  simp only [visit, List.partition_eq_filter_filter, h.address, applySeeds_respelled h]
  cases applySeeds replay.session other
      (replay.pending.filter fun seed => seed.isDue other.address active) with
  | error e => exact .error (.refl e)
  | ok session =>
      cases active with
      | true => exact executeStep_respelled h _
      | false => exact .ok rfl

theorem run_respelled (config : ReplayConfig) {steps others : List TraceStep}
    (h : List.Forall₂ TraceStep.Respells steps others) (replay : Replay L) :
    Matched ReplayError.Respells Eq (replay.run config steps) (replay.run config others) := by
  induction h generalizing replay with
  | nil => exact .ok rfl
  | @cons step other steps others hstep _ ih =>
      have hactive : isActive config replay.active step =
          isActive config replay.active other := by
        rw [isActive, isActive, hstep.address]
      simp only [run, hactive, hstep.address]
      split
      · exact .ok rfl
      · refine (visit_respelled hstep replay _).bind ?_
        intro after _ hafter
        rw [← hafter]
        exact ih after

end Replay

end

/-- A trace whose mnemonics are spelled in letters of other cases has the same report, or
breaks off for a reason that differs in this spelling. -/
theorem Trace.report_respelled (config : ReplayConfig) {trace other : Trace}
    (h : List.Forall₂ TraceStep.Respells trace.steps other.steps) :
    Matched ReplayError.Respells Eq (trace.report config) (other.report config) := by
  refine (Replay.run_respelled config h _).bind ?_
  intro replay _ hreplay
  rw [← hreplay]
  exact .ok rfl

/-- The kinds of the operands and the beginning of the mnemonic, in letters of whatever case,
decide the transfer of an instruction. -/
theorem Transfer.classify_by_shape (instruction : Instruction) :
    ((classify instruction).isTracked = true ↔ instruction.MovesData) ∧
      (∀ dest src a b, instruction.operands = [dest, src] → dest.kind = .register a →
        src.kind = .register b →
          (classify instruction = .zero a ↔ instruction.Starts "xor" ∧ a = b) ∧
          (classify instruction = .copy a b ↔ ¬ instruction.Starts "cmp" ∧
            ¬ instruction.Starts "test" ∧ ¬ (instruction.Starts "xor" ∧ a = b))) ∧
      (∀ dest src, instruction.operands = [dest, src] →
        instruction.Starts "push" ∨ instruction.Starts "pop" ∨ instruction.Starts "ret" →
          classify instruction = classify { instruction with mnemonic := "" }) ∧
      (∀ other, instruction.Resembles other →
        classify other = (classify instruction).withSize other.sourceSize) ∧
      ∀ (config : ReplayConfig) (trace other : Trace),
        List.Forall₂ TraceStep.Respells trace.steps other.steps →
          Matched ReplayError.Respells Eq (trace.report config) (other.report config) := by
  refine ⟨isTracked_classify_iff instruction, ?_, ?_, ?_, ?_⟩
  · intro dest src a b hoperands hdest hsrc
    exact classify_registers hoperands hdest hsrc
  · intro dest src hoperands hstack
    exact classify_stack_pair hoperands hstack
  · intro other h
    exact classify_resembles h
  · intro config trace other h
    exact Trace.report_respelled config h

/-- The step `wipe` in capital letters. -/
def shoutedWipe : TraceStep where
  instruction := { wipe.instruction with mnemonic := "MOV" }
  registers := wipe.registers

/-- A register is combined with itself, two operands follow a stem of the stack, a constant is
stored at another size, and a trace is shouted. -/
theorem Transfer.classify_by_shape_shouted :
    classify ⟨0, "XORq", [⟨.register "rax", 8⟩, ⟨.register "rax", 8⟩]⟩ = .zero "rax" ∧
      classify ⟨0, "RetN", [⟨.register "eax", 4⟩, ⟨.memory {}, 4⟩]⟩ =
        classify ⟨0, "", [⟨.register "eax", 4⟩, ⟨.memory {}, 4⟩]⟩ ∧
      Instruction.Resembles ⟨4096, "MovAbs", [⟨.memory {}, 4⟩, ⟨.immediate 0, 4⟩]⟩
        ⟨0, "movabs", [⟨.memory {}, 8⟩, ⟨.immediate 7, 8⟩]⟩ ∧
      classify ⟨0, "movabs", [⟨.memory {}, 8⟩, ⟨.immediate 7, 8⟩]⟩ = .clearMemory {} 8 ∧
      List.Forall₂ TraceStep.Respells [wipe] [shoutedWipe] ∧
      Matched ReplayError.Respells Eq (Trace.report ⟨[wipe]⟩ {})
        (Trace.report ⟨[shoutedWipe]⟩ {}) := by
  have hxor : Instruction.Starts
      ⟨0, "XORq", [⟨.register "rax", 8⟩, ⟨.register "rax", 8⟩]⟩ "xor" :=
    Instruction.begins_iff.mp (by decide)
  have hret : Instruction.Starts ⟨0, "RetN", [⟨.register "eax", 4⟩, ⟨.memory {}, 4⟩]⟩ "ret" :=
    Instruction.begins_iff.mp (by decide)
  have hresembles : Instruction.Resembles
      ⟨4096, "MovAbs", [⟨.memory {}, 4⟩, ⟨.immediate 0, 4⟩]⟩
      ⟨0, "movabs", [⟨.memory {}, 8⟩, ⟨.immediate 7, 8⟩]⟩ :=
    ⟨by rw [EqualUpToCase]; decide, .cons (.memory {}) (.cons (.immediate 0 7) .nil)⟩
  have hrespells : List.Forall₂ TraceStep.Respells [wipe] [shoutedWipe] :=
    .cons ⟨by rw [EqualUpToCase]; decide, rfl, rfl, rfl⟩ .nil
  exact ⟨((classify_by_shape _).2.1 _ _ "rax" "rax" rfl rfl rfl).1.mpr ⟨hxor, rfl⟩,
    (classify_by_shape _).2.2.1 _ _ rfl (.inr (.inr hret)),
    hresembles, (classify_by_shape _).2.2.2.1 _ hresembles,
    hrespells, (classify_by_shape wipe.instruction).2.2.2.2 {} ⟨[wipe]⟩ ⟨[shoutedWipe]⟩ hrespells⟩

end TaintFlow
