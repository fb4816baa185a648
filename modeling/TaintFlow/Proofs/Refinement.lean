import TaintFlow.Proofs.Coverage

/-!
# Sessions refine the byte machine

A session is read as a byte state by `view`: the flags as they are tested, the
ranges as they are stored. `Realises` is the square for one computation. On a
state whose memory is sound, either the resolved move is refused, and then the
computation is refused for the same reason and leaves the state as it was; or it
is not, and then the computation succeeds and the view moves as the move says.

The squares compose along the monad: a check that both sides make first can be
peeled off (`Realises.bind`). What is left at the leaves are the four ways to
touch the state, one lemma each: a load, a store, a write of registers, and a
change of memory by one range. From there the proof follows the transfers, the
calls, and at last a whole run, where it is one induction over the calls.
-/

namespace TaintFlow

open ByteState

variable {L : Layout} {α : Type}

namespace TaintState

def view (s : TaintState L) : ByteState := ⟨s.registers.flags.test, s.memory.ranges.stored⟩

def Sound (s : TaintState L) : Prop := s.memory.ranges.Sound

end TaintState

/-- A computation does on sound states what a resolved move says, and where the move
is refused it is refused with it and changes nothing. -/
def Realises (computation : Tracking L Unit) (resolved : Except Error Move) : Prop :=
  ∀ s : TaintState L, s.Sound →
    match resolved with
    | .ok move => ∃ after, Mutation.run computation s = (.ok (), after) ∧ after.Sound ∧
        after.view = move.act s.view
    | .error e => Mutation.run computation s = (.error e, s)

/-- A check of something other than taint comes first on both sides. -/
theorem Realises.bind {x : Except Error α} {f : α → Tracking L Unit}
    {g : α → Except Error Move} (h : ∀ a, x = .ok a → Realises (f a) (g a)) :
    Realises (liftM x >>= f) (x >>= g) := by
  intro s hs
  rw [Mutation.run_bind, Mutation.run_liftExcept]
  cases x with
  | error e => rfl
  | ok a => exact h a rfl s hs

theorem realises_skip : Realises (pure () : Tracking L Unit) (.ok .skip) :=
  fun s hs => ⟨s, rfl, hs, rfl⟩

/-! ## The ways to touch the state -/

theorem realises_onRegisters {change : Mutation (RegisterTaint L) Unit} {move : Move}
    (h : ∀ t ranges, ∃ after : RegisterTaint L, change.run t = (.ok (), after) ∧
      move.act ⟨t.flags.test, ranges⟩ = ⟨after.flags.test, ranges⟩) :
    Realises (Tracking.onRegisters change) (.ok move) := by
  intro s hs
  obtain ⟨after, hrun, hact⟩ := h s.registers s.memory.ranges.stored
  refine ⟨{ s with registers := after }, ?_, hs, hact.symm⟩
  rw [Tracking.run_onRegisters, hrun]

/-- A change that is refused, and has changed nothing up to then. -/
theorem realises_onRegisters_error {change : Mutation (RegisterTaint L) Unit} {e : Error}
    (h : ∀ t, change.run t = (.error e, t)) :
    Realises (Tracking.onRegisters change) (.error e) := by
  intro s _
  show Mutation.run (Tracking.onRegisters change) s = (.error e, s)
  rw [Tracking.run_onRegisters, h]

theorem realises_mark (register : String) (value : Bool) :
    Realises (L := L) (Tracking.onRegisters (RegisterTaint.mark register value))
      (Move.ofMark L register value) := by
  rw [Move.ofMark]
  cases hslot : L.slot register with
  | error e => exact realises_onRegisters_error (Mutation.run_bind_of_error hslot _)
  | ok slot =>
      refine realises_onRegisters ?_
      intro t ranges
      obtain ⟨after, hmark, hbytes⟩ := t.mark_eq_ok hslot value
      refine ⟨after, hmark, congrArg (ByteState.mk · ranges) ?_⟩
      rw [hbytes]
      exact setBytes_pattern List.length_replicate fun i hi => by simp [hi]

theorem realises_copy (dest src : String) :
    Realises (L := L) (Tracking.onRegisters (RegisterTaint.copy dest src))
      (do
        let dest ← L.slot dest
        let src ← L.slot src
        return .copy dest src) := by
  cases hdest : L.slot dest with
  | error e => exact realises_onRegisters_error (Mutation.run_bind_of_error hdest _)
  | ok d =>
      cases hsrc : L.slot src with
      | error e => exact realises_onRegisters_error fun t => t.copy_of_unknown hdest hsrc
      | ok s =>
          refine realises_onRegisters ?_
          intro t ranges
          obtain ⟨after, hcopy, hbytes⟩ := t.copy_eq_ok hdest hsrc
          exact ⟨after, hcopy, by rw [hbytes]; rfl⟩

theorem realises_loadBitmap (register : String) {length : Nat} (bitmap : BitSet length) :
    Realises (L := L) (Tracking.onRegisters (RegisterTaint.load register bitmap))
      (do
        let slot ← L.slot register
        if length < slot.width then
          throw (.bitmapTooShort register slot.width length)
        return .write slot.offset (bitmap.toList.take slot.width)) := by
  cases hslot : L.slot register with
  | error e => exact realises_onRegisters_error (Mutation.run_bind_of_error hslot _)
  | ok slot =>
      by_cases hlength : length < slot.width
      · simp only [bind, Except.bind, if_pos hlength]
        exact realises_onRegisters_error fun t => t.load_of_short hslot bitmap hlength
      · simp only [bind, Except.bind, if_neg hlength]
        refine realises_onRegisters ?_
        intro t ranges
        obtain ⟨after, hload, hbytes⟩ := t.load_eq_ok hslot bitmap hlength
        refine ⟨after, hload, congrArg (ByteState.mk · ranges) ?_⟩
        rw [hbytes]
        refine setBytes_pattern (by simp; omega) fun i hi => ?_
        rw [List.getD_eq_getElem?_getD, List.getElem?_take_of_lt hi,
          ← List.getD_eq_getElem?_getD, bitmap.getD_toList (by omega)]

/-- A change of memory by one range, which an empty range leaves undone. -/
theorem realises_update {change : IntervalSet → Interval → IntervalSet}
    (move : Option Interval → Move) (hnone : ∀ t, (move none).act t = t)
    (hsome : ∀ (s : IntervalSet) (range : Interval) (bytes : Nat → Bool), s.Sound →
      (change s range).Sound ∧
        (move (some range)).act ⟨bytes, s.stored⟩ = ⟨bytes, (change s range).stored⟩)
    (address : UInt64) (size : Nat) :
    Realises (L := L) (Tracking.onMemory (MemoryTaint.update address size change))
      (do
        let range ← Interval.ofSize address size
        return move range) := by
  intro s hs
  rw [Tracking.run_onMemory]
  cases hrange : Interval.ofSize address size with
  | error e =>
      rw [MemoryTaint.update, Mutation.run_bind_of_error hrange]
      rfl
  | ok range =>
      rw [MemoryTaint.update, Mutation.run_bind_of_ok hrange]
      cases range with
      | none => exact ⟨s, rfl, hs, (hnone s.view).symm⟩
      | some range =>
          have h := hsome s.memory.ranges range s.registers.flags.test hs
          exact ⟨_, rfl, h.1, h.2.symm⟩

theorem realises_taint (address : UInt64) (size : Nat) :
    Realises (L := L) (Tracking.onMemory (MemoryTaint.taint address size))
      (do
        let range ← Interval.ofSize address size
        return .add range.toList) := by
  refine realises_update (fun range => .add range.toList) ?_
    (fun s range bytes hs => ⟨hs.add range, ?_⟩) address size
  · intro t
    rw [Move.act]
    exact congrArg (ByteState.mk t.bytes) (add_zero t.ranges)
  · rw [Move.act, hs.stored_add, ← Multiset.singleton_add, add_comm]
    rfl

theorem realises_untaint (address : UInt64) (size : Nat) :
    Realises (L := L) (Tracking.onMemory (MemoryTaint.untaint address size))
      (do
        let range ← Interval.ofSize address size
        return .forget range) := by
  refine realises_update .forget (fun t => rfl)
    (fun s range bytes hs => ⟨hs.erase range, ?_⟩) address size
  rw [Move.act, hs.stored_erase]
  rfl

theorem realises_clear (address : UInt64) (size : Nat) :
    Realises (L := L) (Tracking.onMemory (MemoryTaint.clear address size))
      (do
        let range ← Interval.ofSize address size
        return .cut range) := by
  refine realises_update .cut (fun t => rfl)
    (fun s range bytes hs => ⟨hs.subtract range, ?_⟩) address size
  rw [Move.act, hs.stored_subtract]
  rfl

theorem realises_addAll (ranges : List Interval) :
    Realises (L := L) (Tracking.onMemory (modify (·.addAll ranges)))
      (.ok (.add ranges)) := by
  intro s hs
  refine ⟨{ s with memory := s.memory.addAll ranges }, rfl, IntervalSet.Sound.addAll hs ranges,
    ?_⟩
  show (⟨_, (s.memory.ranges.addAll ranges).stored⟩ : ByteState) = _
  rw [IntervalSet.Sound.stored_addAll hs]
  rfl

/-- A register of known slot takes the taint of memory. -/
theorem realises_load {register : String} {slot : Slot} (hslot : L.slot register = .ok slot)
    (address : UInt64) :
    Realises (L := L)
      (do
        let bitmap ← Tracking.ofMemory (·.bitmap address slot.width)
        Tracking.onRegisters (RegisterTaint.load register bitmap))
      (do
        let _ ← Interval.ofSize address slot.width
        return .load slot address) := by
  intro s hs
  rw [Mutation.run_bind, Tracking.run_ofMemory]
  by_cases hfits : address.toNat + slot.width < UInt64.size
  · have hpos := (Layout.slot_fits hslot).1
    obtain ⟨range, hrange, -⟩ := Interval.exists_ofSize (by omega) hfits
    obtain ⟨bitmap, hbitmap, htest⟩ := MemoryTaint.exists_bitmap_covered hs hfits
    obtain ⟨after, hload, hbytes⟩ := s.registers.load_eq_ok hslot bitmap (Nat.lt_irrefl _)
    rw [hbitmap, hrange]
    refine ⟨{ s with registers := after }, ?_, hs, ?_⟩
    · show Mutation.run (Tracking.onRegisters _) s = _
      rw [Tracking.run_onRegisters, hload]
    · show (⟨after.flags.test, _⟩ : ByteState) = _
      rw [hbytes]
      exact congrArg (ByteState.mk · _) (setBytes_congr htest)
  · rw [MemoryTaint.bitmap_of_not_fits _ hfits, Interval.ofSize_of_not_fits hfits]
    rfl

/-- A store that is not refused: the range is cut out first where the options ask for
it, and then the runs are added. -/
theorem run_storeRegister {options : PropagationOptions} {address : UInt64} {src : String}
    {slot : Slot} {range : Interval} {ranges : List Interval} {s : TaintState L}
    (hslot : L.slot src = .ok slot)
    (hrange : Interval.ofSize address slot.width = .ok (some range))
    (hranges : s.registers.intervals src address = .ok ranges) :
    Mutation.run (Propagation.storeRegister options address src) s =
      (.ok (), { s with memory := ⟨(if options.overwriteOnStore then
        s.memory.ranges.subtract range else s.memory.ranges).addAll ranges⟩ }) := by
  rw [Propagation.storeRegister, Mutation.run_bind, Tracking.run_ofRegisters, hranges]
  cases options.overwriteOnStore with
  | false => rfl
  | true =>
      have hclear : (MemoryTaint.clear address slot.width).run s.memory =
          (.ok (), ⟨s.memory.ranges.subtract range⟩) :=
        Mutation.run_bind_of_ok hrange _ s.memory
      show Mutation.run (liftM (L.slot src) >>= fun slot =>
        Tracking.onMemory (MemoryTaint.clear address slot.width) >>= fun _ =>
          Tracking.onMemory (modify (·.addAll ranges))) s = _
      rw [Mutation.run_bind_of_ok hslot, Mutation.run_bind, Tracking.run_onMemory, hclear]
      rfl

theorem realises_store (options : PropagationOptions) (address : UInt64) (src : String) :
    Realises (L := L) (Propagation.storeRegister options address src)
      (Move.ofStore L options address src) := by
  intro s hs
  rw [Move.ofStore]
  cases hslot : L.slot src with
  | error e =>
      show Mutation.run (Propagation.storeRegister options address src) s = (.error e, s)
      rw [Propagation.storeRegister, Mutation.run_bind, Tracking.run_ofRegisters,
        s.registers.intervals_of_unknown hslot]
  | ok slot =>
      by_cases hfits : address.toNat + slot.width < UInt64.size
      · have hpos := (Layout.slot_fits hslot).1
        obtain ⟨range, hrange, -⟩ := Interval.exists_ofSize (by omega) hfits
        obtain ⟨ranges, hranges, hruns⟩ := s.registers.intervals_eq_ok hslot hfits
        have hsound := hs.subtract range
        have hcut := hs.stored_subtract range
        simp only [bind, Except.bind, hrange]
        refine ⟨_, run_storeRegister hslot hrange hranges, ?_, ?_⟩
        · show IntervalSet.Sound (IntervalSet.addAll _ ranges)
          cases options.overwriteOnStore with
          | false => exact IntervalSet.Sound.addAll hs ranges
          | true => exact hsound.addAll ranges
        · show (⟨_, (IntervalSet.addAll _ ranges).stored⟩ : ByteState) = _
          rw [Move.act, show s.view.bytes = s.registers.flags.test from rfl, ← hruns]
          refine congrArg (ByteState.mk _) ?_
          cases options.overwriteOnStore with
          | false => exact IntervalSet.Sound.stored_addAll hs ranges
          | true =>
              exact (hsound.stored_addAll ranges).trans
                (congrArg (· + (ranges : Multiset Interval)) hcut)
      · simp only [bind, Except.bind, Interval.ofSize_of_not_fits hfits]
        rw [Propagation.storeRegister, Mutation.run_bind, Tracking.run_ofRegisters,
          s.registers.intervals_of_not_fits hslot hfits]

/-! ## Transfers -/

theorem realises_loadRegister (dest : String) (address : UInt64) :
    Realises (L := L) (Propagation.loadRegister dest address) (Move.ofLoad L dest address) :=
  Realises.bind fun _ hslot => realises_load hslot address

theorem pushAddress_eq (options : PropagationOptions) (context : RegisterContext)
    (src : String) : (Propagation.pushAddress options context src : Tracking L UInt64) =
      liftM (pushTarget L options context src) := by
  rw [Propagation.pushAddress, pushTarget]
  cases context.read L.stackPointer with
  | error e => rfl
  | ok top =>
      cases options.pushSlot with
      | atStackPointer => rfl
      | belowStackPointer =>
          cases L.slot src with
          | error e => rfl
          | ok slot => rfl

theorem realises_withAddress {context : RegisterContext} {operand : MemoryOperand}
    {body : UInt64 → Tracking L Unit} {move : UInt64 → Except Error Move}
    (h : ∀ address, Realises (body address) (move address)) :
    Realises (Propagation.withAddress context operand body)
      (Move.atAddress context operand move) := by
  refine Realises.bind ?_
  intro address _
  cases address with
  | none => exact realises_skip
  | some address => exact h address

/-- A return loads the program counter, which has the width of a pointer. -/
theorem realises_return (top : UInt64) :
    Realises (L := L)
      (do
        let bitmap ← Tracking.ofMemory (·.bitmap top L.pointerWidth)
        Tracking.onRegisters (RegisterTaint.load L.programCounter bitmap))
      (Move.ofLoad L L.programCounter top) := by
  obtain ⟨slot, hslot, hwidth⟩ := L.exists_programCounter
  rw [Move.ofLoad, hslot, ← hwidth]
  exact realises_load hslot top

theorem realises_apply (options : PropagationOptions) (context : RegisterContext)
    (transfer : Transfer) :
    Realises (L := L) (Propagation.apply options context transfer)
      (transfer.resolve L options context) := by
  cases transfer with
  | load dest src => exact realises_withAddress (realises_loadRegister dest)
  | store dest src => exact realises_withAddress (realises_store options · src)
  | copy dest src => exact realises_copy dest src
  | zero dest => exact realises_mark dest false
  | clear dest => exact realises_mark dest false
  | clearMemory dest size =>
      exact realises_withAddress fun address => realises_untaint address size.toNat
  | push src =>
      show Realises (Propagation.pushAddress options context src >>= fun address =>
        Propagation.storeRegister options address src) _
      rw [pushAddress_eq]
      exact Realises.bind fun address _ => realises_store options address src
  | pop dest => exact Realises.bind fun top _ => realises_loadRegister dest top
  | ret => exact Realises.bind fun top _ => realises_return top
  | untracked => exact realises_skip

/-! ## Sessions -/

/-- The second of two outcomes is what a view shows of the first, and the first keeps
an invariant. -/
def Shows {σ τ ε : Type} (inv : σ → Prop) (view : σ → τ) (outcome : Except ε σ)
    (shown : Except ε τ) : Prop :=
  match outcome with
  | .ok after => inv after ∧ shown = .ok (view after)
  | .error e => shown = .error e

theorem Shows.mapError {σ τ ε ε' : Type} {inv : σ → Prop} {view : σ → τ}
    {outcome : Except ε σ} {shown : Except ε τ} (h : Shows inv view outcome shown)
    (f : ε → ε') : Shows inv view (outcome.mapError f) (shown.mapError f) := by
  cases outcome with
  | error e => exact congrArg (Except.mapError f) h
  | ok after => exact ⟨h.1, congrArg (Except.mapError f) h.2⟩

theorem Shows.map_eq {σ τ ε : Type} {inv : σ → Prop} {view : σ → τ} {outcome : Except ε σ}
    {shown : Except ε τ} (h : Shows inv view outcome shown) : outcome.map view = shown := by
  cases outcome with
  | error e => exact h.symm
  | ok after => exact h.2.symm

/-- Two loops of which every round of the second shows one of the first. -/
theorem shows_foldlM {σ τ β ε : Type} {inv : σ → Prop} {view : σ → τ}
    {f : σ → β → Except ε σ} {g : τ → β → Except ε τ}
    (hround : ∀ s b, inv s → Shows inv view (f s b) (g (view s) b))
    (bs : List β) {s : σ} (hs : inv s) :
    Shows inv view (bs.foldlM f s) (bs.foldlM g (view s)) := by
  induction bs generalizing s with
  | nil => exact ⟨hs, rfl⟩
  | cons b bs ih =>
      have h := hround s b hs
      rw [List.foldlM_cons, List.foldlM_cons]
      cases hf : f s b with
      | error e =>
          rw [hf] at h
          rw [show g (view s) b = .error e from h]
          rfl
      | ok after =>
          rw [hf] at h
          rw [show g (view s) b = .ok (view after) from h.2]
          exact ih h.1

theorem map_foldlM {σ τ β ε : Type} {inv : σ → Prop} {view : σ → τ}
    {f : σ → β → Except ε σ} {g : τ → β → Except ε τ}
    (hround : ∀ s b, inv s → Shows inv view (f s b) (g (view s) b))
    (bs : List β) {s : σ} (hs : inv s) :
    (bs.foldlM f s).map view = bs.foldlM g (view s) := (shows_foldlM hround bs hs).map_eq

namespace Session

def view (s : Session L) : ByteState := s.state.view

def Sound (s : Session L) : Prop := s.state.Sound

theorem sound_start (L : Layout) (options : PropagationOptions) : (start L options).Sound :=
  IntervalSet.sound_empty

theorem view_start (L : Layout) (options : PropagationOptions) :
    (start L options).view = .clean := by
  show (⟨(BitSet.empty : BitSet _).test, IntervalSet.empty.stored⟩ : ByteState) = _
  rw [show (BitSet.empty : BitSet (L.contextSize + spareFlags)).test = fun _ => false from
    funext BitSet.test_empty]
  rfl

/-- An outcome of a session does what a move says, or is the refusal of the move and
changes nothing. -/
def Follows (s : Session L) (outcome : Except Error Unit × Session L) :
    Except Error Move → Prop
  | .ok move => ∃ after, outcome = (.ok (), after) ∧ after.Sound ∧
      after.options = s.options ∧ after.view = move.act s.view
  | .error e => outcome = (.error e, s)

/-- What a computation realises on taint, a session that runs it does. -/
theorem follows_run {s : Session L} (hs : s.Sound) {computation : Tracking L Unit}
    {resolved : Except Error Move} (h : Realises computation resolved) :
    s.Follows (s.run computation) resolved := by
  have hstate := h s.state hs
  cases resolved with
  | error e =>
      have hrun : Mutation.run computation s.state = (.error e, s.state) := hstate
      show s.run computation = (.error e, s)
      rw [run, hrun]
  | ok move =>
      obtain ⟨after, hrun, hsound, hview⟩ := hstate
      refine ⟨{ s with state := after }, ?_, hsound, rfl, hview⟩
      rw [run, hrun]

theorem follows_call {s : Session L} (hs : s.Sound) (call : Call) :
    s.Follows (s.call call) (call.resolve L s.options) := by
  cases call with
  | execute instruction context =>
      have h := follows_run hs
        (realises_apply s.options context (Transfer.classify instruction))
      have hcall : s.call (.execute instruction context) =
          s.run (Propagation.apply s.options context (Transfer.classify instruction)) := by
        rw [Session.call, execute_eq]
        rcases s.run _ with ⟨result, after⟩
        cases result with
        | error e => rfl
        | ok _ => rfl
      rw [hcall]
      exact h
  | taintRegister register =>
      have h := follows_run hs (realises_mark register true)
      exact h
  | untaintRegister register =>
      have h := follows_run hs (realises_mark register false)
      exact h
  | copyRegister dest src =>
      have h := follows_run hs (realises_copy dest src)
      exact h
  | loadRegister register length bitmap =>
      have h := follows_run hs (realises_loadBitmap register bitmap)
      exact h
  | taintMemory address size =>
      have h := follows_run hs (realises_taint address size)
      exact h
  | untaintMemory address size =>
      have h := follows_run hs (realises_untaint address size)
      exact h
  | clearMemory address size =>
      have h := follows_run hs (realises_clear address size)
      exact h
  | importRanges ranges =>
      have h := follows_run hs (realises_addAll ranges)
      exact h
  | reset => exact ⟨s.reset, rfl, IntervalSet.sound_empty, rfl, view_start L s.options⟩

/-- One call on both sides: the refusal is the same, and otherwise the views agree. -/
theorem step_spec {options : PropagationOptions} {s : Session L}
    (hs : s.Sound ∧ s.options = options) (call : Call) :
    Shows (fun after : Session L => after.Sound ∧ after.options = options) view (s.step call)
      (s.view.call L options call) := by
  have h := follows_call hs.1 call
  rw [hs.2] at h
  rw [step, ByteState.call]
  cases hmove : call.resolve L options with
  | error e =>
      rw [hmove] at h
      rw [show s.call call = (.error e, s) from h]
      rfl
  | ok move =>
      rw [hmove] at h
      obtain ⟨after, hcall, hsound, hoptions, hview⟩ := h
      rw [hcall]
      exact ⟨⟨hsound, hoptions.trans hs.2⟩, congrArg Except.ok hview.symm⟩

/-- A session under any layout and options, run by any calls from its start, shows at
every point the state of the byte machine that is run by the same calls: a run that
succeeds ends in the view that the machine computes, and a run that is refused is
refused by the machine for the same reason. -/
theorem view_refines_byteState (L : Layout) (options : PropagationOptions)
    (calls : List Call) :
    (calls.foldlM step (start L options)).map view =
      calls.foldlM (ByteState.call L options) ByteState.clean := by
  rw [← view_start L options]
  exact map_foldlM (fun _ call hs => step_spec hs call) calls ⟨sound_start L options, rfl⟩

end Session

end TaintFlow
