import TaintFlow.Proofs.Registers
import TaintFlow.Replay.Run

/-!
# What a replay reads of a snapshot

A snapshot records many registers, and a replay looks few of them up. A transfer asks for
the registers of an address, if there is a base to begin with, or for the stack pointer
(`Transfer.registersRead`); a copy, a constant and a comparison ask for nothing. It sees
what the context resolves: the recorded value, or for a name of the program counter the
address of the instruction. A seed that points into memory goes by the recorded value
alone, so for its register the two snapshots have to record the same.

Traces that resemble each other in this are replayed alike, to the last bit of the result.
The loop is followed directly, because a replay that is refused halfway has to be refused
halfway in the other trace. What it carries is that the seeds which wait are seeds of the
configuration.
-/

namespace TaintFlow

variable {L : Layout} {α : Type}

/-! ## The registers that are read -/

def MemoryOperand.registersRead (operand : MemoryOperand) : List String :=
  match operand.base with
  | some base => base :: operand.index.toList
  | none => []

/-- The registers whose values a transfer asks for. -/
def Transfer.registersRead (L : Layout) : Transfer → List String
  | .load _ operand | .store operand _ | .clearMemory operand _ => operand.registersRead
  | .push _ | .pop _ | .ret => [L.stackPointer]
  | .copy .. | .zero _ | .clear _ | .untracked => []

/-- The registers that seeds follow into memory. -/
def ReplayConfig.pointers (config : ReplayConfig) : List String :=
  config.seeds.filterMap fun seed =>
    match seed.target with
    | .pointedMemory register _ => some register
    | _ => none

theorem RegisterContext.read_congr {context other : RegisterContext} {register : String}
    (h : context register = other register) : context.read register = other.read register := by
  rw [read, read, h]

theorem MemoryOperand.effectiveAddress_congr {operand : MemoryOperand}
    {context other : RegisterContext}
    (h : ∀ register ∈ operand.registersRead, context register = other register) :
    operand.effectiveAddress context = operand.effectiveAddress other := by
  cases hbase : operand.base with
  | none => simp only [effectiveAddress, hbase]
  | some base =>
      simp only [registersRead, hbase, List.mem_cons, forall_eq_or_imp] at h
      have hindex : operand.indexOffset context = operand.indexOffset other := by
        cases hindex : operand.index with
        | none => simp only [indexOffset, hindex]
        | some index =>
            simp only [hindex, Option.toList_some, List.mem_singleton, forall_eq] at h
            simp only [indexOffset, hindex, RegisterContext.read_congr h.2]
      simp only [effectiveAddress, hbase, RegisterContext.read_congr h.1, hindex]

namespace Propagation

theorem withAddress_congr {operand : MemoryOperand} {context other : RegisterContext}
    (h : ∀ register ∈ operand.registersRead, context register = other register)
    (body : UInt64 → Tracking L Unit) :
    withAddress context operand body = withAddress other operand body := by
  rw [withAddress, withAddress, operand.effectiveAddress_congr h]

/-- A transfer is applied alike under contexts that resolve alike what it reads. -/
theorem apply_congr (options : PropagationOptions) {transfer : Transfer}
    {context other : RegisterContext}
    (h : ∀ register ∈ transfer.registersRead L, context register = other register) :
    (apply options context transfer : Tracking L Unit) = apply options other transfer := by
  cases transfer with
  | load dest src => exact withAddress_congr h _
  | store dest src => exact withAddress_congr h _
  | clearMemory dest size => exact withAddress_congr h _
  | push src =>
      have hread := RegisterContext.read_congr (h L.stackPointer (List.mem_singleton.mpr rfl))
      simp only [apply, pushAddress, hread]
  | pop dest =>
      have hread := RegisterContext.read_congr (h L.stackPointer (List.mem_singleton.mpr rfl))
      simp only [apply, hread]
  | ret =>
      have hread := RegisterContext.read_congr (h L.stackPointer (List.mem_singleton.mpr rfl))
      simp only [apply, hread]
  | copy dest src => rfl
  | zero dest => rfl
  | clear dest => rfl
  | untracked => rfl

end Propagation

theorem Session.execute_congr (s : Session L) (instruction : Instruction)
    {context other : RegisterContext}
    (h : ∀ register ∈ (Transfer.classify instruction).registersRead L,
      context register = other register) :
    s.execute instruction context = s.execute instruction other := by
  rw [execute_eq, execute_eq, Propagation.apply_congr s.options h]

theorem Seed.apply_congr {seed : Seed} {snapshot other : Snapshot}
    (h : ∀ register size, seed.target = .pointedMemory register size →
      snapshot.get? register = other.get? register) (s : Session L) :
    seed.apply s snapshot = seed.apply s other := by
  cases htarget : seed.target with
  | register name => simp only [Seed.apply, htarget]
  | memory address size => simp only [Seed.apply, htarget]
  | pointedMemory register size => simp only [Seed.apply, htarget, h register size htarget]

/-! ## Steps that resemble each other -/

/-- The same instruction, with snapshots that resolve alike what the instruction reads and
record alike what seeds point with. -/
structure TraceStep.Resembles (config : ReplayConfig) (step other : TraceStep) : Prop where
  instruction : step.instruction = other.instruction
  resolved : ∀ register ∈ (Transfer.classify step.instruction).registersRead
      config.architecture.layout,
    step.context config.architecture.layout register =
      other.context config.architecture.layout register
  recorded : ∀ register ∈ config.pointers,
    step.registers.get? register = other.registers.get? register

section

variable {config : ReplayConfig} {step other : TraceStep}

theorem TraceStep.Resembles.address (h : step.Resembles config other) :
    step.address = other.address := by
  rw [TraceStep.address, TraceStep.address, h.instruction]

theorem ReplayConfig.mem_pointers {seed : Seed} (hseed : seed ∈ config.seeds)
    {register : String} {size : UInt64} (htarget : seed.target = .pointedMemory register size) :
    register ∈ config.pointers := by
  refine List.mem_filterMap.mpr ⟨seed, hseed, ?_⟩
  simp only [htarget]

namespace Replay

theorem applySeeds_congr (h : step.Resembles config other) {seeds : List Seed}
    (hseeds : ∀ seed ∈ seeds, seed ∈ config.seeds) (session : Session L) :
    applySeeds session step seeds = applySeeds session other seeds := by
  induction seeds generalizing session with
  | nil => rfl
  | cons seed seeds ih =>
      have hseed := hseeds seed List.mem_cons_self
      have happly : seed.apply session step.registers = seed.apply session other.registers :=
        Seed.apply_congr (fun register size htarget =>
          h.recorded register (config.mem_pointers hseed htarget)) session
      simp only [applySeeds, happly, h.address]
      rcases seed.apply session other.registers with ⟨result, after⟩
      cases result with
      | error cause => rfl
      | ok _ => exact ih (fun seed hseed => hseeds seed (List.mem_cons_of_mem _ hseed)) after

theorem executeStep_congr (h : step.Resembles config other)
    (replay : Replay config.architecture.layout) :
    replay.executeStep step = replay.executeStep other := by
  have hexecute := replay.session.execute_congr step.instruction h.resolved
  rw [executeStep, executeStep, hexecute, h.instruction, h.address]

theorem visit_congr (h : step.Resembles config other)
    {replay : Replay config.architecture.layout}
    (hpending : ∀ seed ∈ replay.pending, seed ∈ config.seeds) (active : Bool) :
    replay.visit active step = replay.visit active other := by
  have hdue : ∀ seed ∈ replay.pending.filter fun seed => seed.isDue other.address active,
      seed ∈ config.seeds := fun seed hseed => hpending seed (List.mem_filter.mp hseed).1
  simp only [visit, List.partition_eq_filter_filter, h.address, applySeeds_congr h hdue,
    executeStep_congr h]

/-- A visit leaves over some of the seeds that waited. -/
theorem mem_pending_of_visit {replay after : Replay L} {active : Bool}
    (h : replay.visit active step = .ok after) {seed : Seed} (hseed : seed ∈ after.pending) :
    seed ∈ replay.pending := by
  simp only [visit, List.partition_eq_filter_filter] at h
  cases hseeds : applySeeds replay.session step
      (replay.pending.filter fun seed => seed.isDue step.address active) with
  | error cause =>
      rw [hseeds] at h
      cases h
  | ok session =>
      have hpending : after.pending =
          replay.pending.filter (not ∘ fun seed => seed.isDue step.address active) := by
        rw [hseeds] at h
        cases active with
        | false =>
            cases h
            rfl
        | true =>
            change executeStep _ step = .ok after at h
            rw [executeStep] at h
            split at h
            · cases h
              rfl
            · cases h
      rw [hpending] at hseed
      exact (List.mem_filter.mp hseed).1

theorem run_congr {steps others : List TraceStep}
    (h : List.Forall₂ (TraceStep.Resembles config) steps others)
    {replay : Replay config.architecture.layout}
    (hpending : ∀ seed ∈ replay.pending, seed ∈ config.seeds) :
    replay.run config steps = replay.run config others := by
  induction h generalizing replay with
  | nil => rfl
  | @cons step other steps others hstep _ ih =>
      have hactive : isActive config replay.active step =
          isActive config replay.active other := by
        rw [isActive, isActive, hstep.address]
      simp only [run, hactive, hstep.address, visit_congr hstep hpending]
      by_cases hstop : (isActive config replay.active other &&
          config.stop? == some other.address) = true
      · rw [if_pos hstop, if_pos hstop]
      · rw [if_neg hstop, if_neg hstop]
        cases hvisit : replay.visit (isActive config replay.active other) other with
        | error cause => rfl
        | ok after =>
            exact ih fun seed hseed => hpending seed (mem_pending_of_visit hvisit hseed)

end Replay

end

/-! ## Snapshots that record more or less -/

/-- The register is the program counter, or another name for all of its bytes. -/
def Layout.IsProgramCounter (L : Layout) (register : String) : Prop :=
  L.registers.get? register = L.registers.get? L.programCounter

theorem Architecture.isProgramCounter (architecture : Architecture) :
    ∀ register ∈ ["rip", "pc", "ip"], architecture.layout.IsProgramCounter register := by
  cases architecture with
  | amd64 =>
      have hcounter : ∀ register ∈ ["rip", "pc", "ip"],
          Layout.amd64.slot register = .ok ⟨184, 8⟩ := by
        intro register hregister
        refine Layout.slot_amd64 ?_
        have hall : ∀ register ∈ ["rip", "pc", "ip"],
            Layout.amd64Registers.reverse.lookup register = some ⟨184, 8⟩ := by
          decide +kernel
        exact hall register hregister
      intro register hregister
      exact (Layout.slot_eq_ok (hcounter register hregister)).trans
        (Layout.slot_eq_ok (hcounter "pc" (by decide))).symm

theorem TraceStep.context_of_isProgramCounter {register : String}
    (h : L.IsProgramCounter register) (step : TraceStep) :
    step.context L register = some ((step.registers.get? register).getD step.address) := by
  obtain ⟨slot, hslot, -⟩ := L.exists_programCounter
  have hcounter := Layout.slot_eq_ok hslot
  rw [Layout.IsProgramCounter, hcounter] at h
  rw [context]
  cases step.registers.get? register with
  | some value => rfl
  | none => simp [h, hcounter]

theorem TraceStep.context_congr {step other : TraceStep} {register : String}
    (haddress : step.address = other.address)
    (h : step.registers.get? register = other.registers.get? register) :
    step.context L register = other.context L register := by
  rw [context, context, h, haddress]

/-- The same instruction, with snapshots that differ in registers that no seed points with:
in some that the instruction does not read, and in names of the program counter for which
one of them records the address of the instruction and the other nothing. -/
structure TraceStep.Rerecords (config : ReplayConfig) (step other : TraceStep) : Prop where
  instruction : step.instruction = other.instruction
  changed : ∀ register, step.registers.get? register ≠ other.registers.get? register →
    register ∉ config.pointers ∧
      (register ∉ (Transfer.classify step.instruction).registersRead
          config.architecture.layout ∨
        config.architecture.layout.IsProgramCounter register ∧
          (step.registers.get? register).getD step.address =
            (other.registers.get? register).getD other.address)

theorem TraceStep.Rerecords.resembles {config : ReplayConfig} {step other : TraceStep}
    (h : step.Rerecords config other) : step.Resembles config other := by
  have haddress : step.address = other.address := by rw [address, address, h.instruction]
  refine ⟨h.instruction, ?_, ?_⟩
  · intro register hread
    by_cases hsame : step.registers.get? register = other.registers.get? register
    · exact context_congr haddress hsame
    · rcases (h.changed register hsame).2 with hunread | ⟨hcounter, hvalue⟩
      · exact absurd hread hunread
      · rw [context_of_isProgramCounter hcounter, context_of_isProgramCounter hcounter, hvalue]
  · intro register hpointer
    by_contra hsame
    exact (h.changed register hsame).1 hpointer

/-- A replay sees of the snapshots what its instructions resolve and what its seeds point
with: traces that agree in it have the same replay, whether it ends or breaks off. So it
does not matter whether names of the program counter are recorded, nor what is recorded
of registers that nothing reads. -/
theorem Trace.replay_eq_of_resembles (config : ReplayConfig) (trace other : Trace) :
    (List.Forall₂ (TraceStep.Resembles config) trace.steps other.steps →
        trace.replay config = other.replay config) ∧
      (List.Forall₂ (TraceStep.Rerecords config) trace.steps other.steps →
        trace.replay config = other.replay config) ∧
      ∀ register ∈ ["rip", "pc", "ip"], config.architecture.layout.IsProgramCounter register := by
  have hresembles (h : List.Forall₂ (TraceStep.Resembles config) trace.steps other.steps) :
      trace.replay config = other.replay config :=
    Replay.run_congr h fun _ hseed => hseed
  exact ⟨hresembles, fun h => hresembles (h.imp fun _ _ hstep => hstep.resembles),
    config.architecture.isProgramCounter⟩

/-- A load relative to the program counter. -/
def relativeLoad : Instruction where
  address := 4096
  mnemonic := "mov"
  operands := [⟨.register "rax", 8⟩, ⟨.memory { base := some "rip", displacement := 16 }, 8⟩]

/-- Once nothing is recorded, and once the program counter and a register besides. -/
theorem Trace.replay_eq_of_resembles_relativeLoad :
    List.Forall₂ (TraceStep.Resembles { seeds := [⟨none, .memory 4112 4⟩] })
        [⟨relativeLoad, .empty⟩]
        [⟨relativeLoad, (NameMap.empty.insert "rip" 4096).insert "rbx" 7⟩] ∧
      List.Forall₂ (TraceStep.Rerecords { seeds := [⟨none, .memory 4112 4⟩] })
        [⟨relativeLoad, .empty⟩]
        [⟨relativeLoad, (NameMap.empty.insert "rip" 4096).insert "rbx" 7⟩] ∧
      Trace.replay ⟨[⟨relativeLoad, .empty⟩]⟩ { seeds := [⟨none, .memory 4112 4⟩] } =
        Trace.replay ⟨[⟨relativeLoad, (NameMap.empty.insert "rip" 4096).insert "rbx" 7⟩]⟩
          { seeds := [⟨none, .memory 4112 4⟩] } := by
  have hclass : Transfer.classify relativeLoad =
      .load "rax" { base := some "rip", displacement := 16 } := by decide
  have hstep : TraceStep.Rerecords { seeds := [⟨none, .memory 4112 4⟩] }
      ⟨relativeLoad, .empty⟩
      ⟨relativeLoad, (NameMap.empty.insert "rip" 4096).insert "rbx" 7⟩ := by
    refine ⟨rfl, fun register hne => ⟨List.not_mem_nil, ?_⟩⟩
    simp only [hclass, Transfer.registersRead, MemoryOperand.registersRead, Option.toList_none,
      List.mem_singleton]
    by_cases hrip : register = "rip"
    · subst hrip
      exact .inr ⟨Architecture.amd64.isProgramCounter "rip" (by decide), by decide⟩
    · exact .inl hrip
  have hrerecords := List.Forall₂.cons hstep .nil
  have hresembles := List.Forall₂.cons hstep.resembles .nil
  exact ⟨hresembles, hrerecords,
    (Trace.replay_eq_of_resembles _ ⟨_⟩ ⟨_⟩).1 hresembles⟩

end TaintFlow
