import TaintFlow.Proofs.Independence

/-!
# What is saved is restored

A register is stored or pushed, the registers change in whatever way, and the same address
is loaded or popped into a register, which may be another one and of another width. What
the second register then shows is said byte by byte: where the first one wrote, what it
wrote, together with what was there before if stores unite, and past its width what was
there before.

Both halves pass through the covered addresses alone. A store settles for each address
whether it is covered, and a load reads that off, so neither the cuts of a store that
overwrites nor the runs that it adds matter in between. All that is asked of the
operations between the two is that they keep these addresses (`RegisterOnly`), and
operations on registers do, since their moves leave the ranges alone (`Move.OnRegisters`).
-/

namespace TaintFlow

open ByteState

variable {L : Layout}

/-! ## Operations on registers -/

/-- The moves that leave memory alone. -/
inductive Move.OnRegisters : Move → Prop where
  | load (dest : Slot) (address : UInt64) : OnRegisters (.load dest address)
  | copy (dest src : Slot) : OnRegisters (.copy dest src)
  | write (offset : Nat) (pattern : List Bool) : OnRegisters (.write offset pattern)
  | skip : OnRegisters .skip

theorem Move.OnRegisters.ranges_act {move : Move} (h : move.OnRegisters) (t : ByteState) :
    (move.act t).ranges = t.ranges := by
  cases h <;> rfl

def Transfer.onRegisters : Transfer → Bool
  | .store .. | .clearMemory .. | .push .. => false
  | _ => true

section

variable {options : PropagationOptions} {context : RegisterContext} {move : Move}

theorem Move.onRegisters_ofLoad {dest : String} {address : UInt64}
    (h : Move.ofLoad L dest address = .ok move) : move.OnRegisters := by
  obtain ⟨slot, -, rfl⟩ := exists_of_ofLoad h
  exact .load slot address

theorem Move.onRegisters_ofMark {register : String} {value : Bool}
    (h : Move.ofMark L register value = .ok move) : move.OnRegisters := by
  obtain ⟨slot, -, rfl⟩ := exists_of_ofMark h
  exact .write slot.offset _

theorem Transfer.onRegisters_resolve {transfer : Transfer} (hon : transfer.onRegisters = true)
    (h : transfer.resolve L options context = .ok move) : move.OnRegisters := by
  cases transfer with
  | load dest src =>
      rcases Move.atAddress_cases h with rfl | ⟨address, h⟩
      · exact .skip
      · exact Move.onRegisters_ofLoad h
  | copy dest src =>
      obtain ⟨d, s, -, -, rfl⟩ := Move.exists_of_copy h
      exact .copy d s
  | zero dest => exact Move.onRegisters_ofMark h
  | clear dest => exact Move.onRegisters_ofMark h
  | pop dest =>
      obtain ⟨top, -, h⟩ := exists_of_bind_eq_ok h
      exact Move.onRegisters_ofLoad h
  | ret =>
      obtain ⟨top, -, h⟩ := exists_of_bind_eq_ok h
      exact Move.onRegisters_ofLoad h
  | untracked =>
      cases h
      exact .skip
  | store dest src => cases hon
  | clearMemory dest size => cases hon
  | push src => cases hon

def Call.onRegisters : Call → Bool
  | .execute instruction _ => (Transfer.classify instruction).onRegisters
  | .taintRegister .. | .untaintRegister .. | .copyRegister .. | .loadRegister .. => true
  | _ => false

theorem Call.onRegisters_resolve {call : Call} (hon : call.onRegisters = true)
    (h : call.resolve L options = .ok move) : move.OnRegisters := by
  cases call with
  | execute instruction context => exact Transfer.onRegisters_resolve hon h
  | taintRegister register => exact Move.onRegisters_ofMark h
  | untaintRegister register => exact Move.onRegisters_ofMark h
  | copyRegister dest src =>
      obtain ⟨d, s, -, -, rfl⟩ := Move.exists_of_copy h
      exact .copy d s
  | loadRegister register length bitmap =>
      obtain ⟨slot, -, h⟩ := exists_of_bind_eq_ok h
      simp only [bind, Except.bind] at h
      split at h
      · cases h
      · cases h
        exact .write slot.offset _
  | taintMemory address size => cases hon
  | untaintMemory address size => cases hon
  | clearMemory address size => cases hon
  | importRanges ranges => cases hon
  | reset => cases hon

end

namespace Session

/-- Whether an operation is one on registers alone. -/
def Operation.onRegisters : Operation → Bool
  | .call asked => asked.onRegisters
  | .apply _ _ transfer => transfer.onRegisters
  | .seed source _ =>
      match source.target with
      | .register _ => true
      | _ => false
  | .resetRegisters => true
  | .resetMemory => false

theorem options_perform (s : Session L) (operation : Operation) :
    (s.perform operation).2.options = s.options := by
  have hcall : ∀ call, (s.call call).2.options = s.options := by
    intro call
    cases call <;> rfl
  cases operation with
  | call call => exact hcall call
  | seed source snapshot =>
      rw [perform, Seed.apply_eq]
      cases source.call snapshot with
      | error cause => rfl
      | ok call => exact hcall call
  | apply options context transfer => rfl
  | resetRegisters => rfl
  | resetMemory => rfl

theorem Follows.ranges_eq {s : Session L} {outcome : Except Error Unit × Session L}
    {resolved : Except Error Move} (h : s.Follows outcome resolved)
    (hmove : ∀ move, resolved = .ok move → move.OnRegisters) :
    outcome.2.view.ranges = s.view.ranges := by
  cases resolved with
  | error e => rw [show outcome = (.error e, s) from h]
  | ok move =>
      obtain ⟨after, houtcome, -, -, hview⟩ := h
      rw [houtcome, hview, (hmove move rfl).ranges_act]

theorem ranges_perform {s : Session L} (hs : s.Sound) {operation : Operation}
    (hon : operation.onRegisters = true) :
    (s.perform operation).2.view.ranges = s.view.ranges := by
  have hcall : ∀ call : Call, call.onRegisters = true →
      (s.call call).2.view.ranges = s.view.ranges := fun call hon =>
    (follows_call hs call).ranges_eq fun _ => Call.onRegisters_resolve hon
  cases operation with
  | call call => exact hcall call hon
  | apply options context transfer =>
      exact (follows_run hs (realises_apply options context transfer)).ranges_eq fun _ =>
        Transfer.onRegisters_resolve hon
  | seed source snapshot =>
      rw [Operation.onRegisters] at hon
      split at hon
      · next name htarget =>
          rw [perform, Seed.apply_eq, Seed.call, htarget]
          exact hcall (.taintRegister name) rfl
      · cases hon
  | resetRegisters => rfl
  | resetMemory => cases hon

/-- Operations lead from the one session to the other, and none of them changes which
addresses are tainted. -/
inductive RegisterOnly (s : Session L) : Session L → Prop where
  | refl : RegisterOnly s s
  | perform {t : Session L} (h : RegisterOnly s t) (operation : Operation)
      (hkeeps : ∀ x, Covered (t.perform operation).2.view.ranges x ↔
        Covered t.view.ranges x) :
      RegisterOnly s (t.perform operation).2

theorem RegisterOnly.reachable {s t : Session L} (h : s.RegisterOnly t) (hs : s.Reachable) :
    t.Reachable := by
  induction h with
  | refl => exact hs
  | perform _ operation _ ih => exact ih.perform operation

theorem RegisterOnly.covered_iff {s t : Session L} (h : s.RegisterOnly t) (x : Nat) :
    Covered t.view.ranges x ↔ Covered s.view.ranges x := by
  induction h with
  | refl => exact Iff.rfl
  | perform _ _ hkeeps ih => exact (hkeeps x).trans ih

/-- The session after some operations, refused ones included. -/
def performAll (s : Session L) (operations : List Operation) : Session L :=
  operations.foldl (fun t operation => (t.perform operation).2) s

theorem registerOnly_performAll {s : Session L} (hs : s.Reachable)
    (operations : List Operation)
    (hon : ∀ operation ∈ operations, operation.onRegisters = true) :
    s.RegisterOnly (s.performAll operations) := by
  -- the relation grows by the operation that is done last
  induction operations using List.reverseRecOn with
  | nil => exact .refl
  | append_singleton operations operation ih =>
      have hfirst := ih fun o ho => hon o (List.mem_append_left _ ho)
      rw [performAll, List.foldl_append, List.foldl_cons, List.foldl_nil]
      refine .perform hfirst operation fun x => ?_
      rw [ranges_perform (hfirst.reachable hs).sound
        (hon operation (List.mem_append_right _ (List.mem_singleton_self _)))]

end Session

/-! ## Saving -/

/-- The transfer stores the register at the address, through an operand or as a push. -/
inductive Transfer.Saves (L : Layout) (options : PropagationOptions) (context : RegisterContext)
    (src : String) (address : UInt64) : Transfer → Prop where
  | store {dest : MemoryOperand} (h : dest.effectiveAddress context = .ok (some address)) :
      Saves L options context src address (.store dest src)
  | push (h : pushTarget L options context src = .ok address) :
      Saves L options context src address (.push src)

theorem Transfer.Saves.resolve {options : PropagationOptions} {context : RegisterContext}
    {src : String} {address : UInt64} {transfer : Transfer}
    (h : transfer.Saves L options context src address) :
    transfer.resolve L options context = Move.ofStore L options address src := by
  cases h with
  | store h =>
      rw [Transfer.resolve, Move.atAddress, h]
      rfl
  | push h =>
      rw [Transfer.resolve, h]
      rfl

namespace Session

/-- The addresses from the given one on show the register, as far as it reaches. -/
structure Saved (s stored : Session L) (src : Slot) (address : UInt64) : Prop where
  inside : ∀ i < src.width, (Covered stored.view.ranges (address.toNat + i) ↔
    s.view.bytes (src.offset + i) = true ∨
      s.options.overwriteOnStore = false ∧ Covered s.view.ranges (address.toNat + i))
  outside : ∀ x, ¬ (address.toNat ≤ x ∧ x < address.toNat + src.width) →
    (Covered stored.view.ranges x ↔ Covered s.view.ranges x)

theorem Reachable.execute {s after : Session L} (hs : s.Reachable) {instruction : Instruction}
    {context : RegisterContext} {result : Except Error Transfer}
    (h : s.execute instruction context = (result, after)) : after.Reachable := by
  have hreachable : (s.execute instruction context).2.Reachable :=
    .perform hs (.call (.execute instruction context))
  rwa [h] at hreachable

theorem exists_saved {s : Session L} (hs : s.Reachable) {src : String} {slot : Slot}
    (hslot : L.slot src = .ok slot) {address : UInt64}
    (hfits : address.toNat + slot.width < UInt64.size) {save : Instruction}
    {context : RegisterContext}
    (hsave : (Transfer.classify save).Saves L s.options context src address) :
    ∃ stored, s.execute save context = (.ok (Transfer.classify save), stored) ∧
      stored.Reachable ∧ s.Saved stored slot address := by
  obtain ⟨range, hstart, hstop, hmove⟩ := Move.exists_ofStore s.options hslot hfits
  rw [← hsave.resolve] at hmove
  obtain ⟨stored, hexecute, -, -, hview⟩ := execute_of_resolve hs.sound hmove
  have hcovered := Move.covered_store s.view hfits hstart hstop s.options.overwriteOnStore
  rw [← hview] at hcovered
  refine ⟨stored, hexecute, hs.execute hexecute, fun i hi => ?_, fun x hx => ?_⟩
  · rw [hcovered, if_pos (by omega), Nat.add_sub_cancel_left]
  · rw [hcovered, if_neg hx]

end Session

/-! ## Restoring -/

/-- The transfer loads the register from the address, through an operand or as a pop. -/
inductive Transfer.Restores (L : Layout) (context : RegisterContext) (dest : String)
    (address : UInt64) : Transfer → Prop where
  | load {src : MemoryOperand} (h : src.effectiveAddress context = .ok (some address)) :
      Restores L context dest address (.load dest src)
  | pop (h : context.read L.stackPointer = .ok address) :
      Restores L context dest address (.pop dest)

theorem Transfer.Restores.resolve {options : PropagationOptions} {context : RegisterContext}
    {dest : String} {address : UInt64} {transfer : Transfer}
    (h : transfer.Restores L context dest address) :
    transfer.resolve L options context = Move.ofLoad L dest address := by
  cases h with
  | load h =>
      rw [Transfer.resolve, Move.atAddress, h]
      rfl
  | pop h =>
      rw [Transfer.resolve, h]
      rfl

theorem Move.ofLoad_eq_ok {dest : String} {slot : Slot} (hslot : L.slot dest = .ok slot)
    {address : UInt64} (hfits : address.toNat + slot.width < UInt64.size) :
    Move.ofLoad L dest address = .ok (.load slot address) := by
  have hpos := (Layout.slot_fits hslot).1
  obtain ⟨range, hrange, -⟩ := Interval.exists_ofSize (by omega) hfits
  rw [Move.ofLoad, hslot]
  simp only [bind, Except.bind, hrange]
  rfl

namespace Session

theorem exists_restored {s : Session L} (hs : s.Sound) {dest : String} {slot : Slot}
    (hslot : L.slot dest = .ok slot) {address : UInt64}
    (hfits : address.toNat + slot.width < UInt64.size) {restore : Instruction}
    {context : RegisterContext}
    (hrestore : (Transfer.classify restore).Restores L context dest address) :
    ∃ loaded, s.execute restore context = (.ok (Transfer.classify restore), loaded) ∧
      loaded.view.ranges = s.view.ranges ∧
      ∀ i < slot.width, (loaded.view.bytes (slot.offset + i) = true ↔
        Covered s.view.ranges (address.toNat + i)) := by
  have hmove : (Transfer.classify restore).resolve L s.options context =
      .ok (.load slot address) := hrestore.resolve.trans (Move.ofLoad_eq_ok hslot hfits)
  obtain ⟨loaded, hexecute, -, -, hview⟩ := execute_of_resolve hs hmove
  refine ⟨loaded, hexecute, by rw [hview]; rfl, fun i hi => ?_⟩
  simp [hview, Move.act, setBytes, hi]

/-! ## Round trips -/

/-- What a register shows that is loaded from where another one was stored. -/
structure RoundTrip (s loaded : Session L) (src dest : String) (source target : Slot)
    (address : UInt64) : Prop where
  saved : ∀ i < target.width, i < source.width →
    (loaded.view.bytes (target.offset + i) = true ↔
      s.view.bytes (source.offset + i) = true ∨
        s.options.overwriteOnStore = false ∧ Covered s.view.ranges (address.toNat + i))
  /-- Past the register that was stored, memory is as it was. -/
  beyond : ∀ i < target.width, source.width ≤ i →
    (loaded.view.bytes (target.offset + i) = true ↔
      Covered s.view.ranges (address.toNat + i))
  outside : ∀ x, ¬ (address.toNat ≤ x ∧ x < address.toNat + source.width) →
    (Covered loaded.view.ranges x ↔ Covered s.view.ranges x)
  restored : s.options.overwriteOnStore = true → target.width = source.width →
    loaded.state.registers.pattern dest = s.state.registers.pattern src

/-- A register that is stored, and a register that is loaded from the same address after
operations that change the taint of registers only, such as all operations on registers:
both succeed, and the bytes of the second register are those of the first one, united with
what was there before unless stores overwrite, and followed by what was there before. -/
theorem Reachable.execute_roundTrip {s : Session L} (hs : s.Reachable) {src dest : String}
    {source target : Slot} (hsource : L.slot src = .ok source)
    (htarget : L.slot dest = .ok target) {address : UInt64}
    (hsourceFits : address.toNat + source.width < UInt64.size)
    (htargetFits : address.toNat + target.width < UInt64.size) {save restore : Instruction}
    {context later : RegisterContext}
    (hsave : (Transfer.classify save).Saves L s.options context src address)
    (hrestore : (Transfer.classify restore).Restores L later dest address) :
    ∃ stored, s.execute save context = (.ok (Transfer.classify save), stored) ∧
      (∀ operations : List Operation,
        (∀ operation ∈ operations, operation.onRegisters = true) →
          stored.RegisterOnly (stored.performAll operations)) ∧
      ∀ between, stored.RegisterOnly between →
        ∃ loaded, between.execute restore later = (.ok (Transfer.classify restore), loaded) ∧
          s.RoundTrip loaded src dest source target address := by
  obtain ⟨stored, hexecute, hreachable, hsaved⟩ := exists_saved hs hsource hsourceFits hsave
  refine ⟨stored, hexecute, registerOnly_performAll hreachable, fun between hbetween => ?_⟩
  obtain ⟨loaded, hloaded, hranges, hbytes⟩ :=
    exists_restored (hbetween.reachable hreachable).sound htarget htargetFits hrestore
  have hsame : ∀ i < target.width, i < source.width →
      (loaded.view.bytes (target.offset + i) = true ↔ s.view.bytes (source.offset + i) = true ∨
        s.options.overwriteOnStore = false ∧ Covered s.view.ranges (address.toNat + i)) := by
    intro i hi hlt
    rw [hbytes i hi, hbetween.covered_iff, hsaved.inside i hlt]
  refine ⟨loaded, hloaded, hsame, fun i hi hle => ?_, fun x hx => ?_, fun hoption hwidth => ?_⟩
  · rw [hbytes i hi, hbetween.covered_iff, hsaved.outside _ (by omega)]
  · rw [hranges, hbetween.covered_iff, hsaved.outside x hx]
  · rw [loaded.state.registers.pattern_eq_ok htarget, s.state.registers.pattern_eq_ok hsource]
    refine congrArg Except.ok (List.ext_getElem (by simp [hwidth]) fun i hi _ => ?_)
    have hlt : i < target.width := by simpa using hi
    have h := hsame i hlt (by omega)
    simp only [hoption, Bool.true_eq_false, false_and, or_false] at h
    rw [RegisterTaint.getElem_patternAt, RegisterTaint.getElem_patternAt]
    exact Bool.eq_iff_iff.mpr h

/-- Two bytes of `r12` are tainted, and eight addresses on both sides of the one that a
push at the stack pointer 8200 writes to. -/
def halfTainted : Session Layout.amd64 :=
  (((start Layout.amd64 { pushSlot := .belowStackPointer, overwriteOnStore := true }).perform
    (.call (.taintRegister "r12w"))).2.perform (.call (.taintMemory 8188 8))).2

def pushLong : Instruction where
  address := 4096
  mnemonic := "push"
  operands := [⟨.register "r12", 8⟩]

def popLong : Instruction where
  address := 4100
  mnemonic := "pop"
  operands := [⟨.register "rbx", 8⟩]

/-- All registers are cleared and `rbx` is tainted while `r12` is on the stack. -/
theorem Reachable.execute_roundTrip_halfTainted :
    halfTainted.Reachable ∧ ∃ stored loaded,
      halfTainted.execute pushLong (fun _ => some 8200) = (.ok (.push "r12"), stored) ∧
      (stored.performAll [.resetRegisters, .call (.taintRegister "rbx")]).execute popLong
          (fun _ => some 8192) = (.ok (.pop "rbx"), loaded) ∧
      halfTainted.RoundTrip loaded "r12" "rbx" ⟨112, 8⟩ ⟨40, 8⟩ 8192 ∧
      loaded.state.registers.pattern "rbx" = halfTainted.state.registers.pattern "r12" := by
  have hreachable : halfTainted.Reachable := .perform (.perform (.start _) _) _
  have hsource : Layout.amd64.slot "r12" = .ok ⟨112, 8⟩ := Layout.slot_amd64 (by decide +kernel)
  have htarget : Layout.amd64.slot "rbx" = .ok ⟨40, 8⟩ := Layout.slot_amd64 (by decide +kernel)
  have hpush : Transfer.classify pushLong = .push "r12" := by decide
  have hpop : Transfer.classify popLong = .pop "rbx" := by decide
  have hoptions : halfTainted.options =
      { pushSlot := .belowStackPointer, overwriteOnStore := true } :=
    (options_perform _ _).trans (options_perform _ _)
  have hsave : (Transfer.classify pushLong).Saves Layout.amd64 halfTainted.options
      (fun _ => some 8200) "r12" 8192 := by
    rw [hpush, hoptions]
    refine .push ?_
    rw [pushTarget, hsource]
    rfl
  have hrestore : (Transfer.classify popLong).Restores Layout.amd64 (fun _ => some 8192)
      "rbx" 8192 := by
    rw [hpop]
    exact .pop rfl
  obtain ⟨stored, hstored, honly, hloads⟩ := Reachable.execute_roundTrip hreachable hsource
    htarget (by decide) (by decide) hsave hrestore
  obtain ⟨loaded, hloaded, htrip⟩ := hloads _
    (honly [.resetRegisters, .call (.taintRegister "rbx")]
      (by simp [Operation.onRegisters, Call.onRegisters]))
  rw [hpush] at hstored
  rw [hpop] at hloaded
  exact ⟨hreachable, stored, loaded, hstored, hloaded, htrip,
    htrip.restored (by rw [hoptions]) rfl⟩

end Session

end TaintFlow
