import TaintFlow.Proofs.SeedSets

/-!
# A store that overwrites only removes taint

One trace is replayed twice. In the first replay a store cuts the range that it writes
out of memory before it adds the taint of the register, in the second it only adds. The
option is not looked at by any check, so the moves of both replays are the same, apart
from what their stores cut out (`Event.resolve_withOverwrite`). That is why the replays
are refused together and for the same reason.

What the first replay taints, the second one taints too (`Below`). No induction of its
own is needed for this: to be below a state is to add nothing to a union with it, and
moves act on unions as they act on the parts. All that is left is that a store which
cuts nothing out covers no less.

The clearing of memory is out, as it is for unions. It takes a range away where one is
stored with exactly its bounds, and the cuts of the first replay can destroy such a
range that the second replay still finds.
-/

namespace TaintFlow

open ByteState

namespace ByteState

/-- Every byte and every address that is tainted in the first state is tainted in the
second. -/
structure Below (t u : ByteState) : Prop where
  bytes : ∀ x, t.bytes x = true → u.bytes x = true
  covered : ∀ x, Covered t.ranges x → Covered u.ranges x

theorem Below.refl (t : ByteState) : Below t t := ⟨fun _ h => h, fun _ h => h⟩

theorem Below.trans {t u v : ByteState} (htu : Below t u) (huv : Below u v) : Below t v :=
  ⟨fun x h => huv.bytes x (htu.bytes x h), fun x h => huv.covered x (htu.covered x h)⟩

/-- Below a state is what adds nothing to it. -/
theorem below_iff_isUnion {t u : ByteState} : Below t u ↔ IsUnion u t u := by
  constructor
  · intro h
    refine ⟨fun x => ?_, fun x => ?_⟩
    · rw [Bool.eq_iff_iff, Bool.or_eq_true]
      exact ⟨.inr, fun hx => hx.elim (h.bytes x) id⟩
    · exact ⟨.inr, fun hx => hx.elim (h.covered x) id⟩
  · intro h
    refine ⟨fun x hx => ?_, fun x hx => ?_⟩
    · rw [h.bytes x, hx, Bool.true_or]
    · exact (h.covered x).mpr (.inl hx)

end ByteState

/-! ## Moves -/

/-- The move with nothing cut out before a store. -/
def Move.keeping : Move → Move
  | .store src address _ => .store src address none
  | move => move

theorem Move.Propagates.below_act {move : Move} (h : move.Propagates) {t u : ByteState}
    (hle : Below t u) : Below (move.act t) (move.act u) :=
  below_iff_isUnion.mpr (h.isUnion (below_iff_isUnion.mp hle))

/-- What is not cut out stays covered. -/
theorem Move.below_act_keeping (move : Move) (t : ByteState) :
    Below (move.act t) (move.keeping.act t) := by
  cases move with
  | store src address cleared =>
      refine ⟨fun _ h => h, ?_⟩
      intro x h
      simp only [Move.keeping, Move.act, covered_add, covered_cutOut] at h ⊢
      exact h.imp (fun hrange => ⟨hrange.1, by simp⟩) id
  | _ => exact .refl _

theorem Move.Marks.below_act {move : Move} (h : move.Marks) {t u : ByteState}
    (hle : Below t u) : Below (move.act t) (move.act u) := by
  refine ⟨fun x hx => ?_, fun x hx => ?_⟩
  · rw [h.bytes_act] at hx ⊢
    exact hx.imp (hle.bytes x) id
  · obtain ⟨a, ha, hxa⟩ := hx
    rcases (h.mem_ranges_act t a).mp ha with ha | ha
    · obtain ⟨b, hb, hxb⟩ := hle.covered x ⟨a, ha, hxa⟩
      exact ⟨b, (h.mem_ranges_act u b).mpr (.inl hb), hxb⟩
    · exact ⟨a, (h.mem_ranges_act u a).mpr (.inr ha), hxa⟩

/-! ## What the option decides -/

def PropagationOptions.withOverwrite (options : PropagationOptions) (overwrite : Bool) :
    PropagationOptions :=
  { options with overwriteOnStore := overwrite }

section

variable {L : Layout} (options : PropagationOptions) (context : RegisterContext)

/-- A check in front of a move does not look at the option. -/
theorem bind_keeping {α : Type} {x : Except Error α} {f g : α → Except Error Move}
    (h : ∀ a, f a = (g a).map Move.keeping) : x >>= f = (x >>= g).map Move.keeping := by
  cases x with
  | error e => rfl
  | ok a => exact h a

theorem Move.ofLoad_keeping (dest : String) (address : UInt64) :
    Move.ofLoad L dest address = (Move.ofLoad L dest address).map Move.keeping :=
  bind_keeping fun _ => bind_keeping fun _ => rfl

theorem Move.ofStore_withOverwrite (address : UInt64) (src : String) :
    Move.ofStore L (options.withOverwrite false) address src =
      (Move.ofStore L (options.withOverwrite true) address src).map Move.keeping :=
  bind_keeping fun _ => bind_keeping fun _ => rfl

theorem Move.ofMark_keeping (register : String) (value : Bool) :
    Move.ofMark L register value = (Move.ofMark L register value).map Move.keeping :=
  bind_keeping fun _ => rfl

theorem Move.atAddress_keeping {operand : MemoryOperand} {f g : UInt64 → Except Error Move}
    (h : ∀ address, f address = (g address).map Move.keeping) :
    Move.atAddress context operand f = (Move.atAddress context operand g).map Move.keeping := by
  refine bind_keeping fun address => ?_
  cases address with
  | none => rfl
  | some address => exact h address

theorem Transfer.resolve_withOverwrite (transfer : Transfer) :
    transfer.resolve L (options.withOverwrite false) context =
      (transfer.resolve L (options.withOverwrite true) context).map Move.keeping := by
  cases transfer with
  | load dest src => exact Move.atAddress_keeping context (Move.ofLoad_keeping dest)
  | store dest src =>
      exact Move.atAddress_keeping context fun address =>
        Move.ofStore_withOverwrite options address src
  | copy dest src => exact bind_keeping fun _ => bind_keeping fun _ => rfl
  | zero dest => exact Move.ofMark_keeping dest false
  | clear dest => exact Move.ofMark_keeping dest false
  | clearMemory dest size =>
      exact Move.atAddress_keeping context fun _ => bind_keeping fun _ => rfl
  | push src => exact bind_keeping fun address => Move.ofStore_withOverwrite options address src
  | pop dest => exact bind_keeping fun top => Move.ofLoad_keeping dest top
  | ret => exact bind_keeping fun top => Move.ofLoad_keeping L.programCounter top
  | untracked => rfl

theorem Call.resolve_withOverwrite (call : Call) :
    call.resolve L (options.withOverwrite false) =
      (call.resolve L (options.withOverwrite true)).map Move.keeping := by
  cases call with
  | execute instruction context => exact Transfer.resolve_withOverwrite options context _
  | taintRegister register => exact Move.ofMark_keeping register true
  | untaintRegister register => exact Move.ofMark_keeping register false
  | copyRegister dest src => exact bind_keeping fun _ => bind_keeping fun _ => rfl
  | loadRegister register length bitmap =>
      refine bind_keeping fun slot => ?_
      split <;> rfl
  | taintMemory address size => exact bind_keeping fun _ => rfl
  | untaintMemory address size => exact bind_keeping fun _ => rfl
  | clearMemory address size => exact bind_keeping fun _ => rfl
  | importRanges ranges => rfl
  | reset => rfl

theorem Event.resolve_withOverwrite (event : Event) :
    event.resolve L (options.withOverwrite false) =
      (event.resolve L (options.withOverwrite true)).map Move.keeping := by
  rw [resolve, resolve]
  cases event.call L with
  | error e => rfl
  | ok made =>
      show Except.mapError _ (made.resolve L (options.withOverwrite false)) =
        Except.map _ (Except.mapError _ (made.resolve L (options.withOverwrite true)))
      rw [made.resolve_withOverwrite]
      cases made.resolve L (options.withOverwrite true) <;> rfl

end

/-! ## Two replays -/

theorem Matched.map_const {ε σ τ : Type} {R : σ → σ → Prop} {x y : Except ε σ}
    (h : Matched Eq R x y) (b : τ) : x.map (fun _ => b) = y.map fun _ => b := by
  cases h with
  | ok _ => rfl
  | error h => rw [h]

variable (trace : Trace) (config : ReplayConfig)

def ReplayConfig.withOverwrite (overwrite : Bool) : ReplayConfig :=
  { config with options := config.options.withOverwrite overwrite }

/-- An instruction on the schedule is one that is tracked. -/
theorem Trace.mem_tracked_of_mem_schedule {step : TraceStep}
    (h : .execute step ∈ trace.schedule config) : step ∈ trace.tracked config := by
  obtain ⟨visit, hvisit, hevent⟩ := List.mem_flatMap.mp h
  rw [eventsAt, List.mem_append] at hevent
  rcases hevent with hseed | hexecute
  · obtain ⟨source, -, heq⟩ := List.mem_map.mp hseed
    cases heq
  · split at hexecute
    · next hle =>
        cases List.mem_singleton.mp hexecute
        exact trace.mem_tracked config hvisit hle
    · cases hexecute

/-- The two replays break off for the same reason, or end in states with whatever relation
between them the moves of the schedule keep. -/
theorem Trace.matched_withOverwrite {R : ByteState → ByteState → Prop}
    (hclean : R .clean .clean)
    (hmove : ∀ event ∈ trace.schedule config, ∀ move,
      event.resolve config.architecture.layout (config.options.withOverwrite true) = .ok move →
        ∀ t u, R t u → R (move.act t) (move.keeping.act u)) :
    Matched Eq R (trace.replayBytes (config.withOverwrite true))
      (trace.replayBytes (config.withOverwrite false)) := by
  -- which events there are does not depend on the options
  have hschedule : ∀ overwrite,
      trace.schedule (config.withOverwrite overwrite) = trace.schedule config := fun _ => rfl
  rw [replayBytes, replayBytes, hschedule, hschedule]
  refine Matched.foldlM ?_ hclean
  intro event hevent t u h
  show Matched Eq R ((event.resolve _ (config.options.withOverwrite true)).map _)
    ((event.resolve _ (config.options.withOverwrite false)).map _)
  rw [event.resolve_withOverwrite config.options]
  cases hresolve : event.resolve config.architecture.layout
      (config.options.withOverwrite true) with
  | error e => exact .error rfl
  | ok move => exact .ok (hmove event hevent move hresolve t u h)

theorem Trace.below_withOverwrite (hclear : trace.ClearsNoMemory config) {event : Event}
    (hevent : event ∈ trace.schedule config) {L : Layout} {options : PropagationOptions}
    {move : Move} (hmove : event.resolve L options = .ok move) {t u : ByteState}
    (h : Below t u) : Below (move.act t) (move.keeping.act u) := by
  refine Below.trans ?_ (move.below_act_keeping u)
  cases event with
  | seed step source => exact (Event.marks_resolve hmove).below_act h
  | execute step =>
      rcases Transfer.resolve_cases (Event.transfer_resolve hmove) with
        hpropagates | ⟨⟨dest, size, hclass⟩, -⟩
      · exact hpropagates.below_act h
      · exact absurd hclass
          (hclear step (trace.mem_tracked_of_mem_schedule config hevent) dest size)

/-- Replays that differ in nothing but whether stores overwrite have the same counts, or
break off for the same reason. If no instruction that is executed clears memory, what is
tainted at the end of the replay that overwrites is tainted at the end of the other. -/
theorem Trace.replay_withOverwrite_below :
    (trace.replay (config.withOverwrite true)).map (·.stats) =
        (trace.replay (config.withOverwrite false)).map (·.stats) ∧
      (trace.ClearsNoMemory config → ∀ overwritten united,
        trace.replay (config.withOverwrite true) = .ok overwritten →
        trace.replay (config.withOverwrite false) = .ok united →
          Below overwritten.session.view united.session.view) := by
  refine ⟨?_, fun hclear overwritten united hoverwritten hunited => ?_⟩
  · have hmatched := trace.matched_withOverwrite config (R := fun _ _ => True) trivial
      fun _ _ _ _ _ _ _ => trivial
    rw [stats_replay, stats_replay]
    exact hmatched.map_const (trace.finalStats config)
  · obtain ⟨hoverwritten, -⟩ := trace.replayBytes_of_replay _ hoverwritten
    obtain ⟨hunited, -⟩ := trace.replayBytes_of_replay _ hunited
    have hmatched := trace.matched_withOverwrite config (.refl .clean)
      fun event hevent move hmove t u h => trace.below_withOverwrite config hclear hevent hmove h
    rw [hoverwritten, hunited] at hmatched
    cases hmatched with
    | ok h => exact h

/-- The eight bytes that are stored were tainted, of the register only two are. -/
theorem Trace.replay_withOverwrite_below_spill :
    Trace.ClearsNoMemory ⟨[spill]⟩
        { seeds := [⟨none, .register "ax"⟩, ⟨none, .memory 8192 8⟩] } ∧
      ∃ overwritten united,
        Trace.replay ⟨[spill]⟩ (ReplayConfig.withOverwrite
          { seeds := [⟨none, .register "ax"⟩, ⟨none, .memory 8192 8⟩] } true) =
            .ok overwritten ∧
        Trace.replay ⟨[spill]⟩ (ReplayConfig.withOverwrite
          { seeds := [⟨none, .register "ax"⟩, ⟨none, .memory 8192 8⟩] } false) = .ok united ∧
        Below overwritten.session.view united.session.view := by
  have hclear : Trace.ClearsNoMemory ⟨[spill]⟩
      { seeds := [⟨none, .register "ax"⟩, ⟨none, .memory 8192 8⟩] } := by
    intro step hstep dest size h
    obtain rfl : step = spill := List.mem_singleton.mp hstep
    have hstore : Transfer.classify spill.instruction =
        .store { base := some "rbx" } "rax" := by decide
    rw [hstore] at h
    cases h
  have hsucceeds : ∀ overwrite, ∃ replay, Trace.replay ⟨[spill]⟩ (ReplayConfig.withOverwrite
      { seeds := [⟨none, .register "ax"⟩, ⟨none, .memory 8192 8⟩] } overwrite) =
        .ok replay := fun overwrite =>
    Trace.exists_replay_spill (PropagationOptions.withOverwrite {} overwrite) rfl
  obtain ⟨overwritten, hoverwritten⟩ := hsucceeds true
  obtain ⟨united, hunited⟩ := hsucceeds false
  exact ⟨hclear, overwritten, united, hoverwritten, hunited,
    (Trace.replay_withOverwrite_below ⟨[spill]⟩ _).2 hclear overwritten united hoverwritten
      hunited⟩

end TaintFlow
