import TaintFlow.Proofs.Refinement

/-!
# How an instruction ends

An instruction is refused for what the layout, the register values and the options tell of
it, and never for what is tainted. `Transfer.checks` writes down the conditions of every
transfer in the order in which they are looked at, each with its refusal. The outcome of
an instruction is their verdict: the refusal of the first that does not hold, or the
transfer.

A computation need not make its checks one by one: the two overflow checks of a store that
overwrites are one condition, the length of the bitmap that a load reads is none, and a
push below the stack pointer looks its register up twice. `Decides` compares a computation
with a list of checks on every state, so that such differences are settled where they arise.
-/

namespace TaintFlow

variable {L : Layout} {α : Type}

/-! ## Checks -/

/-- A condition, and the refusal where it does not hold. -/
structure Check where
  holds : Bool
  refusal : Error

namespace Check

/-- The context has a value for the register. -/
def hasValue (context : RegisterContext) (register : String) : Check :=
  ⟨(context register).isSome, .missingRegisterValue register⟩

/-- The layout has a register of this name. -/
def isKnown (L : Layout) (register : String) : Check :=
  ⟨(L.registers.get? register).isSome, .unknownRegister register⟩

def hasScale (operand : MemoryOperand) : Check :=
  ⟨operand.validScale, .invalidScale operand.scale⟩

/-- The range ends below the last address. -/
def ends (address : UInt64) (size : Nat) : Check :=
  ⟨decide (address.toNat + size < UInt64.size), .addressOverflow address size⟩

/-- The refusal of the first check that does not hold, if there is one. -/
def verdict (checks : List Check) : Except Error Unit :=
  match checks.find? fun check => !check.holds with
  | some failed => .error failed.refusal
  | none => .ok ()

@[simp] theorem verdict_nil : verdict [] = .ok () := rfl

@[simp] theorem verdict_cons (check : Check) (checks : List Check) :
    verdict (check :: checks) =
      if check.holds then verdict checks else .error check.refusal := by
  rw [verdict, List.find?_cons]
  cases check.holds with
  | true => rfl
  | false => rfl

theorem verdict_cons_self (check : Check) (checks : List Check) :
    verdict (check :: check :: checks) = verdict (check :: checks) := by
  rw [verdict_cons, verdict_cons]
  cases check.holds with
  | true => rfl
  | false => rfl

theorem verdict_append (checks more : List Check) :
    verdict (checks ++ more) = verdict checks >>= fun _ => verdict more := by
  induction checks with
  | nil => rfl
  | cons check checks ih =>
      rw [List.cons_append, verdict_cons, verdict_cons, ih]
      cases check.holds with
      | true => rfl
      | false => rfl

end Check

/-! ## The checks of a transfer -/

/-- The value of a register, and zero where the context has none. -/
def RegisterContext.value (context : RegisterContext) (register : String) : UInt64 :=
  (context register).getD 0

/-- The bytes of a register, and no bytes where the layout has no such register. -/
def Layout.bytes (L : Layout) (register : String) : Slot :=
  (L.registers.get? register).getD ⟨0, 0⟩

/-- The address of an operand whose registers have values. -/
def MemoryOperand.location (operand : MemoryOperand) (context : RegisterContext) : UInt64 :=
  (operand.base.bind context).getD 0 + operand.displacement.toUInt64 +
    (operand.index.bind context).getD 0 * operand.scale.toUInt64

/-- What the index of an operand needs. -/
def MemoryOperand.indexChecks (operand : MemoryOperand) (context : RegisterContext) :
    List Check :=
  match operand.index with
  | some index => [.hasScale operand, .hasValue context index]
  | none => []

/-- The checks of an access through an operand, of which none is made without a base. -/
def MemoryOperand.guarded (operand : MemoryOperand) (context : RegisterContext)
    (checks : List Check) : List Check :=
  match operand.base with
  | some base => .hasValue context base :: operand.indexChecks context ++ checks
  | none => []

/-- The address that a push of `src` writes to, where the registers are known. -/
def PushSlot.location (pushSlot : PushSlot) (L : Layout) (context : RegisterContext)
    (src : String) : UInt64 :=
  match pushSlot with
  | .atStackPointer => context.value L.stackPointer
  | .belowStackPointer => context.value L.stackPointer - UInt64.ofNat (L.bytes src).width

/-- The conditions of a transfer, in the order in which they are looked at. -/
def Transfer.checks (L : Layout) (pushSlot : PushSlot) (context : RegisterContext) :
    Transfer → List Check
  | .load register operand | .store operand register =>
      operand.guarded context
        [.isKnown L register, .ends (operand.location context) (L.bytes register).width]
  | .clearMemory operand size =>
      operand.guarded context [.ends (operand.location context) size.toNat]
  | .copy dest src => [.isKnown L dest, .isKnown L src]
  | .zero dest | .clear dest => [.isKnown L dest]
  | .push src =>
      [.hasValue context L.stackPointer, .isKnown L src,
        .ends (pushSlot.location L context src) (L.bytes src).width]
  | .pop dest =>
      [.hasValue context L.stackPointer, .isKnown L dest,
        .ends (context.value L.stackPointer) (L.bytes dest).width]
  | .ret =>
      [.hasValue context L.stackPointer,
        .ends (context.value L.stackPointer) L.pointerWidth]
  | .untracked => []

/-! ## What is looked up -/

/-- A look-up is refused as some checks say, and otherwise it finds the value. -/
def Yields (x : Except Error α) (checks : List Check) (a : α) : Prop :=
  x = (Check.verdict checks).map fun _ => a

namespace Yields

theorem ok (a : α) : Yields (.ok a) [] a := rfl

theorem bind {β : Type} {x : Except Error α} {f : α → Except Error β} {a : α} {b : β}
    {checks more : List Check} (h : Yields x checks a) (hf : Yields (f a) more b) :
    Yields (x >>= f) (checks ++ more) b := by
  rw [Yields, h, Check.verdict_append]
  cases Check.verdict checks with
  | error e => rfl
  | ok _ => exact hf

end Yields

theorem RegisterContext.yields_read (context : RegisterContext) (register : String) :
    Yields (context.read register) [.hasValue context register] (context.value register) := by
  rw [Yields, read, value, Check.verdict_cons, Check.hasValue]
  cases context register with
  | none => rfl
  | some v => rfl

/-- A register is known, and is where its bytes are, or it is not. -/
theorem Layout.slot_cases (L : Layout) (register : String) :
    (L.slot register = .ok (L.bytes register) ∧ (Check.isKnown L register).holds = true) ∨
      (L.slot register = .error (.unknownRegister register) ∧
        (Check.isKnown L register).holds = false) := by
  rw [LayoutDescription.slot, Check.isKnown, bytes]
  cases L.registers.get? register with
  | none => exact .inr ⟨rfl, rfl⟩
  | some slot => exact .inl ⟨rfl, rfl⟩

theorem Layout.yields_slot (L : Layout) (register : String) :
    Yields (L.slot register) [.isKnown L register] (L.bytes register) := by
  rw [Yields, Check.verdict_cons]
  rcases L.slot_cases register with ⟨hslot, hknown⟩ | ⟨hslot, hunknown⟩
  · rw [hslot, hknown]
    rfl
  · rw [hslot, hunknown]
    rfl

theorem MemoryOperand.yields_indexOffset (operand : MemoryOperand)
    (context : RegisterContext) :
    Yields (operand.indexOffset context) (operand.indexChecks context)
      ((operand.index.bind context).getD 0 * operand.scale.toUInt64) := by
  rw [indexOffset, indexChecks]
  cases operand.index with
  | none => exact congrArg Except.ok UInt64.zero_mul.symm
  | some index =>
      rw [Yields, Check.verdict_cons, Check.hasScale]
      cases operand.validScale with
      | true =>
          show Yields (context.read index >>= fun value =>
            .ok (value * operand.scale.toUInt64)) [.hasValue context index] _
          exact (context.yields_read index).bind (.ok _)
      | false => rfl

/-- An operand has an address where it has a base. -/
theorem MemoryOperand.yields_effectiveAddress (operand : MemoryOperand)
    (context : RegisterContext) :
    Yields (operand.effectiveAddress context) (operand.guarded context [])
      (operand.base.map fun _ => operand.location context) := by
  rw [effectiveAddress, guarded, location]
  cases operand.base with
  | none => exact .ok none
  | some base =>
      exact (context.yields_read base).bind
        ((operand.yields_indexOffset context).bind (.ok _))

/-- What a push looks up for its address. -/
def PushSlot.checks (pushSlot : PushSlot) (L : Layout) (context : RegisterContext)
    (src : String) : List Check :=
  match pushSlot with
  | .atStackPointer => [.hasValue context L.stackPointer]
  | .belowStackPointer => [.hasValue context L.stackPointer, .isKnown L src]

theorem yields_pushTarget (L : Layout) (options : PropagationOptions)
    (context : RegisterContext) (src : String) :
    Yields (pushTarget L options context src) (options.pushSlot.checks L context src)
      (options.pushSlot.location L context src) := by
  have hread := context.yields_read L.stackPointer
  rw [pushTarget]
  cases options.pushSlot with
  | atStackPointer => exact hread.bind (.ok _)
  | belowStackPointer => exact hread.bind ((L.yields_slot src).bind (.ok _))

/-! ## Computations decided by checks -/

/-- On every state the change ends as the checks say. -/
def Decides {σ : Type} (change : Mutation σ Unit) (checks : List Check) : Prop :=
  ∀ state, (change.run state).1 = Check.verdict checks

namespace Decides

variable {σ : Type} {checks : List Check}

theorem pure_nil : Decides (pure () : Mutation σ Unit) [] := fun _ => rfl

/-- What is looked up first is refused as some checks say, and the others follow. -/
theorem bind {x : Except Error α} {a : α} {f : α → Mutation σ Unit} {more : List Check}
    (hx : Yields x checks a) (h : x = .ok a → Decides (f a) more) :
    Decides (liftM x >>= f) (checks ++ more) := by
  intro state
  rw [Check.verdict_append]
  rw [Yields] at hx
  cases hchecks : Check.verdict checks with
  | error e =>
      rw [hchecks] at hx
      rw [Mutation.run_bind_of_error hx]
      rfl
  | ok _ =>
      rw [hchecks] at hx
      rw [Mutation.run_bind_of_ok hx]
      exact h hx state

theorem onRegisters {change : Mutation (RegisterTaint L) Unit} (h : Decides change checks) :
    Decides (Tracking.onRegisters change) checks :=
  fun state => h state.registers

theorem onMemory {change : Mutation MemoryTaint Unit} (h : Decides change checks) :
    Decides (Tracking.onMemory change : Tracking L Unit) checks :=
  fun state => h state.memory

end Decides

theorem decides_mark (register : String) (value : Bool) :
    Decides (RegisterTaint.mark (L := L) register value) [.isKnown L register] := by
  intro t
  rw [Check.verdict_cons]
  rcases L.slot_cases register with ⟨hslot, hknown⟩ | ⟨hslot, hunknown⟩
  · obtain ⟨after, hmark, -⟩ := t.mark_eq_ok hslot value
    rw [hmark, hknown]
    rfl
  · rw [RegisterTaint.mark, Mutation.run_bind_of_error hslot, hunknown]
    rfl

theorem decides_copy (dest src : String) :
    Decides (RegisterTaint.copy (L := L) dest src) [.isKnown L dest, .isKnown L src] := by
  intro t
  rw [Check.verdict_cons, Check.verdict_cons]
  rcases L.slot_cases dest with ⟨hdest, hknown⟩ | ⟨hdest, hunknown⟩
  · rcases L.slot_cases src with ⟨hsrc, hknown'⟩ | ⟨hsrc, hunknown⟩
    · obtain ⟨after, hcopy, -⟩ := t.copy_eq_ok hdest hsrc
      rw [hcopy, hknown, hknown']
      rfl
    · rw [t.copy_of_unknown hdest hsrc, hknown, hunknown]
      rfl
  · rw [RegisterTaint.copy, Mutation.run_bind_of_error hdest, hunknown]
    rfl

/-- A bitmap of any length is loaded or refused; one that is long enough has a flag for each
byte that is read. -/
theorem decides_loadBitmap (register : String) {length : Nat} (bitmap : BitSet length) :
    Decides (RegisterTaint.load (L := L) register bitmap)
      [.isKnown L register, ⟨decide (¬ length < (L.bytes register).width),
        .bitmapTooShort register (L.bytes register).width length⟩] := by
  intro t
  rw [Check.verdict_cons, Check.verdict_cons]
  rcases L.slot_cases register with ⟨hslot, hknown⟩ | ⟨hslot, hunknown⟩
  · rw [hknown]
    by_cases hlength : length < (L.bytes register).width
    · rw [t.load_of_short hslot bitmap hlength]
      simp [hlength]
    · obtain ⟨after, hload, -⟩ := t.load_eq_ok hslot bitmap hlength
      rw [hload]
      simp [hlength]
  · rw [RegisterTaint.load, Mutation.run_bind_of_error hslot, hunknown]
    rfl

/-- The bitmap that is read has a flag for every byte of the register, so a load is never
refused for being short. -/
theorem decides_load {register : String} {slot : Slot} (hslot : L.slot register = .ok slot)
    (address : UInt64) :
    Decides (σ := TaintState L)
      (do
        let bitmap ← Tracking.ofMemory (·.bitmap address slot.width)
        Tracking.onRegisters (RegisterTaint.load register bitmap))
      [.ends address slot.width] := by
  intro state
  rw [Mutation.run_bind, Tracking.run_ofMemory, Check.verdict_cons, Check.ends]
  by_cases hfits : address.toNat + slot.width < UInt64.size
  · obtain ⟨bitmap, hbitmap⟩ := state.memory.exists_bitmap hfits
    obtain ⟨after, hload, -⟩ := state.registers.load_eq_ok hslot bitmap (Nat.lt_irrefl _)
    rw [hbitmap]
    simp only [Tracking.run_onRegisters, hload, hfits, decide_true, if_true, Check.verdict_nil]
  · rw [state.memory.bitmap_of_not_fits hfits]
    simp [hfits]

theorem decides_loadRegister (dest : String) (address : UInt64) :
    Decides (σ := TaintState L) (Propagation.loadRegister dest address)
      [.isKnown L dest, .ends address (L.bytes dest).width] :=
  .bind (L.yields_slot dest) fun hslot => decides_load hslot address

/-- The range is checked where the runs of the register are found, and what is cut out
before they are stored is the same range. -/
theorem decides_storeRegister (options : PropagationOptions) (address : UInt64)
    (src : String) :
    Decides (σ := TaintState L) (Propagation.storeRegister options address src)
      [.isKnown L src, .ends address (L.bytes src).width] := by
  intro state
  rw [Check.verdict_cons, Check.verdict_cons, Check.ends]
  rcases L.slot_cases src with ⟨hslot, hknown⟩ | ⟨hslot, hunknown⟩
  · rw [hknown]
    by_cases hfits : address.toNat + (L.bytes src).width < UInt64.size
    · have hpos := (Layout.slot_fits hslot).1
      obtain ⟨range, hrange, -⟩ := Interval.exists_ofSize (by omega) hfits
      obtain ⟨ranges, hranges, -⟩ := state.registers.intervals_eq_ok hslot hfits
      rw [run_storeRegister hslot hrange hranges]
      simp [hfits]
    · rw [Propagation.storeRegister, Mutation.run_bind, Tracking.run_ofRegisters,
        state.registers.intervals_of_not_fits hslot hfits]
      simp [hfits]
  · rw [hunknown, Propagation.storeRegister, Mutation.run_bind, Tracking.run_ofRegisters,
      state.registers.intervals_of_unknown hslot]
    rfl

theorem decides_update (address : UInt64) (size : Nat)
    (change : IntervalSet → Interval → IntervalSet) :
    Decides (MemoryTaint.update address size change) [.ends address size] := by
  intro m
  rw [Check.verdict_cons, Check.ends, MemoryTaint.update]
  by_cases hfits : address.toNat + size < UInt64.size
  · simp only [hfits, decide_true, if_true]
    by_cases hpos : size = 0
    · subst hpos
      rfl
    · obtain ⟨range, hrange, -⟩ := Interval.exists_ofSize hpos hfits
      rw [Mutation.run_bind_of_ok hrange]
      rfl
  · rw [Mutation.run_bind_of_error (Interval.ofSize_of_not_fits hfits)]
    simp [hfits]

/-! ## Transfers -/

theorem decides_withAddress {context : RegisterContext} {operand : MemoryOperand}
    {body : UInt64 → Tracking L Unit} {checks : List Check}
    (h : Decides (body (operand.location context)) checks) :
    Decides (Propagation.withAddress context operand body)
      (operand.guarded context checks) := by
  have haddress := operand.yields_effectiveAddress context
  rw [Propagation.withAddress, MemoryOperand.guarded]
  rw [MemoryOperand.guarded] at haddress
  cases hbase : operand.base with
  | none =>
      rw [hbase] at haddress
      exact .bind haddress fun _ => .pure_nil
  | some base =>
      simp only [hbase, List.append_nil] at haddress
      exact .bind haddress fun _ => h

/-- Below the stack pointer the width of the register is needed for the address, and the
register is looked up once more for what is stored. -/
theorem decides_push (options : PropagationOptions) (context : RegisterContext)
    (src : String) :
    Decides (σ := TaintState L) (Propagation.apply options context (.push src))
      [.hasValue context L.stackPointer, .isKnown L src,
        .ends (options.pushSlot.location L context src) (L.bytes src).width] := by
  have h : Decides (σ := TaintState L) (Propagation.apply options context (.push src))
      (options.pushSlot.checks L context src ++ [.isKnown L src,
        .ends (options.pushSlot.location L context src) (L.bytes src).width]) := by
    rw [Propagation.apply, pushAddress_eq]
    exact .bind (yields_pushTarget L options context src) fun _ =>
      decides_storeRegister options _ src
  cases hpush : options.pushSlot with
  | atStackPointer =>
      rw [hpush] at h
      exact h
  | belowStackPointer =>
      rw [hpush] at h
      intro state
      rw [h state, PushSlot.checks, List.cons_append, List.singleton_append,
        Check.verdict_cons, Check.verdict_cons_self, ← Check.verdict_cons]

theorem decides_apply (options : PropagationOptions) (context : RegisterContext)
    (transfer : Transfer) :
    Decides (σ := TaintState L) (Propagation.apply options context transfer)
      (transfer.checks L options.pushSlot context) := by
  cases transfer with
  | load dest src => exact decides_withAddress (decides_loadRegister dest _)
  | store dest src => exact decides_withAddress (decides_storeRegister options _ src)
  | copy dest src => exact (decides_copy dest src).onRegisters
  | zero dest => exact (decides_mark dest false).onRegisters
  | clear dest => exact (decides_mark dest false).onRegisters
  | clearMemory dest size => exact decides_withAddress (decides_update _ size.toNat .erase).onMemory
  | push src => exact decides_push options context src
  | pop dest => exact .bind (context.yields_read _) fun _ => decides_loadRegister dest _
  | ret =>
      obtain ⟨slot, hslot, hwidth⟩ := L.exists_programCounter
      have hload := decides_load hslot (context.value L.stackPointer)
      rw [hwidth] at hload
      exact .bind (context.yields_read _) fun _ => hload
  | untracked => exact .pure_nil

/-- An instruction on a session of any layout, under any options and on any taint, ends as
the checks of its transfer say: with the refusal of the first that does not hold, or
else with the transfer. -/
theorem Session.fst_execute_eq_verdict (L : Layout) (pushSlot : PushSlot)
    (overwriteOnStore : Bool) (state : TaintState L) (instruction : Instruction)
    (context : RegisterContext) :
    ((⟨⟨pushSlot, overwriteOnStore⟩, state⟩ : Session L).execute instruction context).1 =
      (Check.verdict ((Transfer.classify instruction).checks L pushSlot context)).map
        fun _ => Transfer.classify instruction := by
  have h := decides_apply (L := L) ⟨pushSlot, overwriteOnStore⟩ context
    (Transfer.classify instruction) state
  rw [execute_eq, ← h]
  rfl

end TaintFlow
