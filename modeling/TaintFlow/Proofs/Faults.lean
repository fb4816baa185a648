import TaintFlow.Proofs.Atomicity
import TaintFlow.Proofs.Footprint
import TaintFlow.Proofs.MemoryQueries
import TaintFlow.Proofs.Outcomes

/-!
# Faults

Two refusals say nothing about what a caller asked for: a flag past the end of a bit set,
and an interval without an address. They stand for a broken assumption of the code about
itself, and `isFault` tells them from the others, also where they are the cause of a
refused seed or of a replay that breaks off.

`Tame` computations end without a fault on registers and memory that requests led to, and
lead to such registers and memory again. The leaves are the requests and the look-ups of
the two parts, which are faultless on their own; a bind of tame computations is tame.
-/

namespace TaintFlow

variable {L : Layout} {α β ε : Type}

/-! ## Outcomes without a fault -/

/-- Whether the refusal reports a broken assumption of the code itself. -/
def Error.isFault : Error → Bool
  | .bitOutOfRange .. | .emptyInterval .. => true
  | _ => false

def SeedError.isFault : SeedError → Bool
  | .missingRegisterValue _ => false
  | .refused cause => cause.isFault

def ReplayError.isFault : ReplayError → Bool
  | .seed _ cause => cause.isFault
  | .propagation _ _ cause => cause.isFault

/-- An outcome that is a value, or a refusal that is not bad. -/
def Avoids (bad : ε → Bool) (x : Except ε α) : Prop := ∀ e, x = .error e → bad e = false

namespace Avoids

variable {bad : ε → Bool}

theorem ok (a : α) : Avoids bad (.ok a) := by
  intro e h
  cases h

theorem error {e : ε} (h : bad e = false) : Avoids bad (.error e : Except ε α) := by
  intro e' he
  cases he
  exact h

theorem of_eq_ok {x : Except ε α} {a : α} (h : x = .ok a) : Avoids bad x := h ▸ .ok a

theorem bind {x : Except ε α} {f : α → Except ε β} (h : Avoids bad x)
    (hf : ∀ a, x = .ok a → Avoids bad (f a)) : Avoids bad (x >>= f) := by
  cases x with
  | error e => exact .error (h e rfl)
  | ok a => exact hf a rfl

theorem map {x : Except ε α} (h : Avoids bad x) (f : α → β) : Avoids bad (x.map f) := by
  cases x with
  | error e => exact .error (h e rfl)
  | ok a => exact .ok (f a)

theorem mapError {ε' : Type} {bad' : ε' → Bool} {x : Except ε α} (h : Avoids bad x)
    {f : ε → ε'} (hf : ∀ e, bad' (f e) = bad e) : Avoids bad' (x.mapError f) := by
  cases x with
  | error e => exact .error ((hf e).trans (h e rfl))
  | ok a => exact .ok a

end Avoids

/-! ## Look-ups -/

theorem Check.verdict_avoids {checks : List Check}
    (h : ∀ check ∈ checks, check.refusal.isFault = false) :
    Avoids Error.isFault (Check.verdict checks) := by
  rw [verdict]
  cases hfind : checks.find? fun check => !check.holds with
  | none => exact .ok ()
  | some failed => exact .error (h failed (List.mem_of_find?_eq_some hfind))

/-- A look-up is no fault where the checks that it makes have none. -/
theorem Yields.avoids {x : Except Error α} {checks : List Check} {a : α}
    (h : Yields x checks a) (hchecks : ∀ check ∈ checks, check.refusal.isFault = false) :
    Avoids Error.isFault x := by
  rw [h]
  exact (Check.verdict_avoids hchecks).map _

theorem Decides.avoids {σ : Type} {change : Mutation σ Unit} {checks : List Check}
    (h : Decides change checks) (hchecks : ∀ check ∈ checks, check.refusal.isFault = false)
    (state : σ) : Avoids Error.isFault (change.run state).1 := by
  rw [h state]
  exact Check.verdict_avoids hchecks

theorem Layout.slot_avoids (L : Layout) (register : String) :
    Avoids Error.isFault (L.slot register) :=
  (L.yields_slot register).avoids (by simp [Check.isKnown, Error.isFault])

theorem RegisterContext.read_avoids (context : RegisterContext) (register : String) :
    Avoids Error.isFault (context.read register) :=
  (context.yields_read register).avoids (by simp [Check.hasValue, Error.isFault])

theorem MemoryOperand.effectiveAddress_avoids (operand : MemoryOperand)
    (context : RegisterContext) : Avoids Error.isFault (operand.effectiveAddress context) := by
  refine (operand.yields_effectiveAddress context).avoids ?_
  rw [guarded, indexChecks]
  cases operand.base with
  | none => simp
  | some base =>
      cases operand.index with
      | none => simp [Check.hasValue, Error.isFault]
      | some index => simp [Check.hasValue, Check.hasScale, Error.isFault]

theorem Interval.ofSize_avoids (address : UInt64) (size : Nat) :
    Avoids Error.isFault (Interval.ofSize address size) := by
  by_cases hfits : address.toNat + size < UInt64.size
  · by_cases hpos : size = 0
    · subst hpos
      exact .ok none
    · obtain ⟨range, hrange, -⟩ := exists_ofSize hpos hfits
      exact .of_eq_ok hrange
  · rw [ofSize_of_not_fits hfits]
    exact .error rfl

/-! ## Registers -/

namespace RegisterTaint

theorem pattern_avoids (t : RegisterTaint L) (register : String) :
    Avoids Error.isFault (t.pattern register) :=
  (L.slot_avoids register).bind fun _ hslot => by
    obtain ⟨bitmap, hbitmap, -⟩ := t.exists_bitmap hslot
    rw [hbitmap]
    exact .ok _

/-- A question that is answered from the flags of a register. -/
theorem read_avoids (t : RegisterTaint L) (register : String) (answer : List Bool → β) :
    Avoids Error.isFault (do
      let slot ← L.slot register
      return answer (← t.read slot)) :=
  (L.slot_avoids register).bind fun _ hslot => by
    rw [t.read_slot hslot]
    exact .ok _

theorem isTainted_avoids (t : RegisterTaint L) (register : String) :
    Avoids Error.isFault (t.isTainted register) := t.read_avoids register (·.any id)

theorem isFullyTainted_avoids (t : RegisterTaint L) (register : String) :
    Avoids Error.isFault (t.isFullyTainted register) := t.read_avoids register (·.all id)

/-- The runs of a register are no empty intervals. -/
theorem intervals_avoids (t : RegisterTaint L) (register : String) (base : UInt64) :
    Avoids Error.isFault (t.intervals register base) := by
  cases hslot : L.slot register with
  | error e =>
      rw [t.intervals_of_unknown hslot]
      exact .error (L.slot_avoids register e hslot)
  | ok slot =>
      by_cases hfits : base.toNat + slot.width < UInt64.size
      · obtain ⟨ranges, hranges, -⟩ := t.intervals_eq_ok hslot hfits
        exact .of_eq_ok hranges
      · rw [t.intervals_of_not_fits hslot hfits]
        exact .error rfl

theorem request_avoids (t : RegisterTaint L) (asked : Request) :
    Avoids Error.isFault ((request asked).run t).1 := by
  cases asked with
  | mark register value =>
      exact (decides_mark register value).avoids (by simp [Check.isKnown, Error.isFault]) t
  | copy dest src =>
      exact (decides_copy dest src).avoids (by simp [Check.isKnown, Error.isFault]) t
  | load register bitmap =>
      exact (decides_loadBitmap register bitmap).avoids (by simp [Check.isKnown, Error.isFault]) t
  | reset => exact .ok ()

end RegisterTaint

/-! ## Memory -/

namespace MemoryTaint

theorem isTainted_avoids (m : MemoryTaint) (address : UInt64) (size : Nat) :
    Avoids Error.isFault (m.isTainted address size) := by
  refine (Interval.ofSize_avoids address size).bind fun range _ => ?_
  cases range with
  | none => exact .ok false
  | some range => exact .ok _

theorem isFullyTainted_avoids (m : MemoryTaint) (address : UInt64) (size : Nat) :
    Avoids Error.isFault (m.isFullyTainted address size) := by
  cases hrange : Interval.ofSize address size with
  | error e =>
      rw [isFullyTainted, hrange]
      exact .error (Interval.ofSize_avoids address size e hrange)
  | ok range =>
      cases range with
      | none =>
          rw [isFullyTainted, hrange]
          exact .ok false
      | some range => exact .of_eq_ok (m.isFullyTainted_eq hrange)

/-- What is painted into a bitmap lies inside it. -/
theorem bitmap_avoids (m : MemoryTaint) (address : UInt64) (size : Nat) :
    Avoids Error.isFault (m.bitmap address size) := by
  by_cases hfits : address.toNat + size < UInt64.size
  · obtain ⟨bitmap, hbitmap⟩ := m.exists_bitmap hfits
    exact .of_eq_ok hbitmap
  · rw [m.bitmap_of_not_fits hfits]
    exact .error rfl

theorem request_avoids (m : MemoryTaint) (asked : Request) :
    Avoids Error.isFault ((request asked).run m).1 := by
  have hupdate : ∀ address size change,
      Avoids Error.isFault ((update address size change).run m).1 := fun address size change =>
    (decides_update address size change).avoids (by simp [Check.ends, Error.isFault]) m
  cases asked with
  | taint address size => exact hupdate address size .add
  | untaint address size => exact hupdate address size .erase
  | clear address size => exact hupdate address size .subtract
  | addAll ranges => exact .ok ()
  | reset => exact .ok ()

end MemoryTaint

/-! ## Tame computations -/

/-- Registers and memory that requests led to. -/
structure TaintState.Reachable (s : TaintState L) : Prop where
  registers : s.registers.Reachable
  memory : s.memory.Reachable

theorem TaintState.reachable_clean : (clean : TaintState L).Reachable := ⟨.clean, .clean⟩

/-- The computation ends without a fault, and leads on by requests. -/
def Tame (computation : Tracking L α) : Prop :=
  ∀ s : TaintState L, s.Reachable →
    Avoids Error.isFault (Mutation.run computation s).1 ∧
      (Mutation.run computation s).2.Reachable

namespace Tame

theorem of_pure (a : α) : Tame (pure a : Tracking L α) := fun _ hs => ⟨.ok a, hs⟩

theorem lift {x : Except Error α} (h : Avoids Error.isFault x) :
    Tame (liftM x : Tracking L α) := fun _ hs => ⟨h, hs⟩

theorem ofRegisters {f : RegisterTaint L → Except Error α}
    (h : ∀ t, Avoids Error.isFault (f t)) : Tame (Tracking.ofRegisters f) :=
  fun s hs => ⟨h s.registers, hs⟩

theorem ofMemory {f : MemoryTaint → Except Error α}
    (h : ∀ m, Avoids Error.isFault (f m)) : Tame (Tracking.ofMemory f : Tracking L α) :=
  fun s hs => ⟨h s.memory, hs⟩

theorem bind {computation : Tracking L α} {next : α → Tracking L β} (h : Tame computation)
    (hnext : ∀ a, Tame (next a)) : Tame (computation >>= next) := by
  intro s hs
  have hfirst := h s hs
  rw [Mutation.run_bind]
  rcases hrun : Mutation.run computation s with ⟨result, after⟩
  rw [hrun] at hfirst
  cases result with
  | error e => exact ⟨.error (hfirst.1 e rfl), hfirst.2⟩
  | ok a => exact hnext a after hfirst.2

theorem onRegisters (asked : RegisterTaint.Request) :
    Tame (L := L) (Tracking.onRegisters (RegisterTaint.request asked)) := fun s hs =>
  ⟨s.registers.request_avoids asked, hs.registers.request asked, hs.memory⟩

theorem onMemory (asked : MemoryTaint.Request) :
    Tame (L := L) (Tracking.onMemory (MemoryTaint.request asked)) := fun s hs =>
  ⟨s.memory.request_avoids asked, hs.registers, hs.memory.request asked⟩

theorem loadRegister (dest : String) (address : UInt64) :
    Tame (L := L) (Propagation.loadRegister dest address) :=
  (lift (L.slot_avoids dest)).bind fun slot =>
    (ofMemory fun m => m.bitmap_avoids address slot.width).bind fun bitmap =>
      onRegisters (.load dest bitmap)

theorem storeRegister (options : PropagationOptions) (address : UInt64) (src : String) :
    Tame (L := L) (Propagation.storeRegister options address src) := by
  refine (ofRegisters fun t => t.intervals_avoids src address).bind fun ranges => ?_
  cases options.overwriteOnStore with
  | false => exact onMemory (.addAll ranges)
  | true =>
      exact (lift (L.slot_avoids src)).bind fun slot =>
        (onMemory (.clear address slot.width)).bind fun _ => onMemory (.addAll ranges)

theorem pushAddress (options : PropagationOptions) (context : RegisterContext)
    (src : String) : Tame (L := L) (Propagation.pushAddress options context src) := by
  refine (lift (context.read_avoids L.stackPointer)).bind fun top => ?_
  cases options.pushSlot with
  | atStackPointer => exact of_pure top
  | belowStackPointer => exact (lift (L.slot_avoids src)).bind fun slot => of_pure _

theorem withAddress {context : RegisterContext} {operand : MemoryOperand}
    {body : UInt64 → Tracking L Unit} (h : ∀ address, Tame (body address)) :
    Tame (Propagation.withAddress context operand body) := by
  refine (lift (operand.effectiveAddress_avoids context)).bind fun address => ?_
  cases address with
  | none => exact of_pure ()
  | some address => exact h address

theorem apply (options : PropagationOptions) (context : RegisterContext)
    (transfer : Transfer) : Tame (L := L) (Propagation.apply options context transfer) := by
  have hread := lift (L := L) (context.read_avoids L.stackPointer)
  cases transfer with
  | load dest src => exact withAddress fun address => loadRegister dest address
  | store dest src => exact withAddress fun address => storeRegister options address src
  | copy dest src => exact onRegisters (.copy dest src)
  | zero dest => exact onRegisters (.mark dest false)
  | clear dest => exact onRegisters (.mark dest false)
  | clearMemory dest size =>
      exact withAddress fun address => onMemory (.untaint address size.toNat)
  | push src =>
      exact (pushAddress options context src).bind fun address =>
        storeRegister options address src
  | pop dest => exact hread.bind fun top => loadRegister dest top
  | ret =>
      exact hread.bind fun top =>
        (ofMemory fun m => m.bitmap_avoids top L.pointerWidth).bind fun bitmap =>
          onRegisters (.load L.programCounter bitmap)
  | untracked => exact of_pure ()

end Tame

/-! ## Sessions -/

theorem Seed.call_avoids (seed : Seed) (snapshot : Snapshot) :
    Avoids SeedError.isFault (seed.call snapshot) := by
  rw [call]
  cases seed.target with
  | register name => exact .ok _
  | memory address size => exact .ok _
  | pointedMemory register size =>
      cases hvalue : snapshot.get? register with
      | none =>
          simp only [hvalue]
          exact .error rfl
      | some address =>
          simp only [hvalue]
          exact .ok _

namespace Session

theorem call_tame {s : Session L} (hs : s.state.Reachable) (call : Call) :
    Avoids Error.isFault (s.call call).1 ∧ (s.call call).2.state.Reachable := by
  cases call with
  | execute instruction context =>
      have h := Tame.apply s.options context (Transfer.classify instruction) s.state hs
      rw [Session.call, execute_eq]
      exact ⟨(h.1.map _).map _, h.2⟩
  | taintRegister register => exact Tame.onRegisters (.mark register true) s.state hs
  | untaintRegister register => exact Tame.onRegisters (.mark register false) s.state hs
  | copyRegister dest src => exact Tame.onRegisters (.copy dest src) s.state hs
  | loadRegister register length bitmap =>
      exact Tame.onRegisters (.load register bitmap) s.state hs
  | taintMemory address size => exact Tame.onMemory (.taint address size) s.state hs
  | untaintMemory address size => exact Tame.onMemory (.untaint address size) s.state hs
  | clearMemory address size => exact Tame.onMemory (.clear address size) s.state hs
  | importRanges ranges => exact Tame.onMemory (.addAll ranges) s.state hs
  | reset => exact ⟨.ok (), TaintState.reachable_clean⟩

theorem perform_tame {s : Session L} (hs : s.state.Reachable) (operation : Operation) :
    Avoids SeedError.isFault (s.perform operation).1 ∧
      (s.perform operation).2.state.Reachable := by
  have hcall : ∀ call, Avoids SeedError.isFault ((s.call call).1.mapError SeedError.refused) ∧
      (s.call call).2.state.Reachable := fun call =>
    ⟨(call_tame hs call).1.mapError fun _ => rfl, (call_tame hs call).2⟩
  cases operation with
  | call call => exact hcall call
  | apply options context transfer =>
      have h := Tame.apply options context transfer s.state hs
      exact ⟨h.1.mapError fun _ => rfl, h.2⟩
  | seed source snapshot =>
      rw [perform, Seed.apply_eq]
      cases hmade : source.call snapshot with
      | error cause => exact ⟨.error (source.call_avoids snapshot cause hmade), hs⟩
      | ok call => exact hcall call
  | resetRegisters => exact ⟨.ok (), .clean, hs.memory⟩
  | resetMemory => exact ⟨.ok (), hs.registers, .clean⟩

/-- Operations on a session change its registers and its memory by requests. -/
theorem Reachable.state {s : Session L} (h : s.Reachable) : s.state.Reachable := by
  induction h with
  | start options => exact TaintState.reachable_clean
  | perform _ operation ih => exact (perform_tame ih operation).2

end Session

/-! ## Replays -/

/-- The operation of an event. -/
def Event.operation (L : Layout) : Event → Session.Operation
  | .seed step source => .seed source step.registers
  | .execute step => .call (.execute step.instruction (step.context L))

/-- An event is an operation that has to succeed. -/
theorem Event.perform_cases (event : Event) (s : Session L) :
    (∃ after, event.perform s = .ok after ∧
        after = (s.perform (event.operation L)).2) ∨
      ∃ cause e, event.perform s = .error e ∧
        (s.perform (event.operation L)).1 = .error cause ∧ e.isFault = cause.isFault := by
  cases event with
  | seed step source =>
      rw [Event.perform, operation, Session.perform]
      rcases source.apply s step.registers with ⟨result, after⟩
      cases result with
      | error cause => exact .inr ⟨cause, _, rfl, rfl, rfl⟩
      | ok _ => exact .inl ⟨after, rfl, rfl⟩
  | execute step =>
      rw [Event.perform, operation, Session.perform, Session.call]
      rcases s.execute step.instruction (step.context L) with ⟨result, after⟩
      cases result with
      | error cause => exact .inr ⟨.refused cause, _, rfl, rfl, rfl⟩
      | ok _ => exact .inl ⟨after, rfl, rfl⟩

/-- Events end without a fault, in a session that operations lead to. -/
theorem Event.foldlM_perform_tame (events : List Event) {s : Session L} (hs : s.Reachable) :
    Avoids ReplayError.isFault (events.foldlM Event.perform s) ∧
      ∀ after, events.foldlM Event.perform s = .ok after → after.Reachable := by
  induction events generalizing s with
  | nil =>
      refine ⟨.ok s, ?_⟩
      intro after h
      cases h
      exact hs
  | cons event events ih =>
      rw [List.foldlM_cons]
      rcases event.perform_cases s with
        ⟨next, hperform, hnext⟩ | ⟨cause, e, hperform, hcause, hfault⟩
      · rw [hperform]
        exact ih (hnext ▸ hs.perform _)
      · rw [hperform]
        refine ⟨.error ?_, ?_⟩
        · rw [hfault]
          exact (Session.perform_tame hs.state _).1 cause hcause
        · intro after h
          cases h

end TaintFlow
