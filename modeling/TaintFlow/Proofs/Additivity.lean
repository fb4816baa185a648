import TaintFlow.Proofs.Distribution
import TaintFlow.Proofs.ReplayBytes

/-!
# A replay is additive in its seeds

Three replays of one trace are compared: with some seeds, with others, and with
both. All three run on bytes, where an event is resolved without a look at taint.
This is why the replays succeed or fail together, as far as they meet the same
events.

`Additive` is what the three runs have in common after every visit: either the run
with all seeds has broken off, and so has one of the others, or none has, and its
state is the union of the other two. It composes along the runs. A seed acts on
one side of the union, an instruction on both.
-/

namespace TaintFlow

open ByteState

variable {L : Layout}

/-! ## The moves of events -/

theorem eq_ok_of_mapError {α ε ε' : Type} {x : Except ε α} {f : ε → ε'} {a : α}
    (h : x.mapError f = .ok a) : x = .ok a := by
  cases x with
  | error e => cases h
  | ok b =>
      cases h
      rfl

theorem Seed.call_cases {seed : Seed} {snapshot : Snapshot} {c : Call}
    (h : seed.call snapshot = .ok c) :
    (∃ name, c = .taintRegister name) ∨ ∃ address size, c = .taintMemory address size := by
  rw [call] at h
  split at h
  · cases h
    exact .inl ⟨_, rfl⟩
  · cases h
    exact .inr ⟨_, _, rfl⟩
  · split at h
    · cases h
    · cases h
      exact .inr ⟨_, _, rfl⟩

namespace Event

theorem exists_of_resolve {options : PropagationOptions} {event : Event} {move : Move}
    (h : event.resolve L options = .ok move) :
    ∃ made, event.call L = .ok made ∧ made.resolve L options = .ok move := by
  obtain ⟨made, hcall, h⟩ := exists_of_bind_eq_ok h
  exact ⟨made, hcall, eq_ok_of_mapError h⟩

theorem marks_resolve {options : PropagationOptions} {step : TraceStep} {source : Seed}
    {move : Move} (h : (seed step source).resolve L options = .ok move) : move.Marks := by
  obtain ⟨made, hcall, h⟩ := exists_of_resolve h
  rcases Seed.call_cases (eq_ok_of_mapError hcall) with ⟨name, rfl⟩ | ⟨address, size, rfl⟩
  · exact Move.marks_ofMark h
  · obtain ⟨range, -, h⟩ := exists_of_bind_eq_ok h
    cases h
    exact .memory range.toList

theorem transfer_resolve {options : PropagationOptions} {step : TraceStep} {move : Move}
    (h : (execute step).resolve L options = .ok move) :
    (Transfer.classify step.instruction).resolve L options (step.context L) = .ok move := by
  obtain ⟨made, hcall, h⟩ := exists_of_resolve h
  cases hcall
  exact h

end Event

/-! ## Three runs side by side -/

/-- The first run breaks off if one of the others does, and otherwise ends in the
union of their states. -/
def Additive (r r₁ r₂ : Except ReplayError ByteState) : Prop :=
  match r₁, r₂ with
  | .ok t₁, .ok t₂ => ∃ t, r = .ok t ∧ IsUnion t t₁ t₂
  | _, _ => ∃ e, r = .error e

namespace Additive

theorem of_isUnion {t t₁ t₂ : ByteState} (h : IsUnion t t₁ t₂) :
    Additive (.ok t) (.ok t₁) (.ok t₂) := ⟨t, rfl, h⟩

theorem error_of_left {r r₂ : Except ReplayError ByteState} {e₁ : ReplayError}
    (h : Additive r (.error e₁) r₂) : ∃ e, r = .error e := by
  cases r₂ with
  | error e₂ => exact h
  | ok t₂ => exact h

theorem symm {r r₁ r₂ : Except ReplayError ByteState} (h : Additive r r₁ r₂) :
    Additive r r₂ r₁ := by
  cases r₁ with
  | error e₁ =>
      obtain ⟨e, hr⟩ := error_of_left h
      cases r₂ <;> exact ⟨e, hr⟩
  | ok t₁ => cases r₂ with
    | error e₂ => exact h
    | ok t₂ =>
        obtain ⟨t, hr, hu⟩ := h
        exact ⟨t, hr, hu.symm⟩

theorem exists_ok_iff {r r₁ r₂ : Except ReplayError ByteState} (h : Additive r r₁ r₂) :
    (∃ t, r = .ok t) ↔ (∃ t, r₁ = .ok t) ∧ ∃ t, r₂ = .ok t := by
  cases r₁ with
  | error e₁ =>
      obtain ⟨e, rfl⟩ := error_of_left h
      simp
  | ok t₁ => cases r₂ with
    | error e₂ =>
        obtain ⟨e, rfl⟩ := h
        simp
    | ok t₂ =>
        obtain ⟨t, rfl, -⟩ := h
        simp

/-- What goes on from a union keeps it. -/
theorem bind {r r₁ r₂ : Except ReplayError ByteState} (h : Additive r r₁ r₂)
    {f f₁ f₂ : ByteState → Except ReplayError ByteState}
    (hf : ∀ t t₁ t₂, IsUnion t t₁ t₂ → Additive (f t) (f₁ t₁) (f₂ t₂)) :
    Additive (r >>= f) (r₁ >>= f₁) (r₂ >>= f₂) := by
  cases r₁ with
  | error e₁ =>
      obtain ⟨e, rfl⟩ := error_of_left h
      exact ⟨e, rfl⟩
  | ok t₁ => cases r₂ with
    | error e₂ =>
        obtain ⟨e, rfl⟩ := h
        show Additive (.error e) (f₁ t₁) (.error e₂)
        cases f₁ t₁ <;> exact ⟨e, rfl⟩
    | ok t₂ =>
        obtain ⟨t, rfl, hu⟩ := h
        exact hf t t₁ t₂ hu

/-- A seed of the first run alone. -/
theorem seed (options : PropagationOptions) (step : TraceStep) (source : Seed)
    {t t₁ t₂ : ByteState} (hu : IsUnion t t₁ t₂) :
    Additive ((Event.seed step source).act L options t)
      ((Event.seed step source).act L options t₁) (.ok t₂) := by
  rw [Event.act, Event.act]
  cases hmove : (Event.seed step source).resolve L options with
  | error e => exact ⟨e, rfl⟩
  | ok move => exact of_isUnion ((Event.marks_resolve hmove).isUnion hu)

theorem seeds (options : PropagationOptions) (step : TraceStep) (sources : List Seed)
    {t t₁ t₂ : ByteState} (hu : IsUnion t t₁ t₂) :
    Additive ((sources.map (.seed step)).foldlM (Event.act L options) t)
      ((sources.map (.seed step)).foldlM (Event.act L options) t₁) (.ok t₂) := by
  induction sources generalizing t t₁ t₂ with
  | nil => exact of_isUnion hu
  | cons source sources ih =>
      rw [List.map_cons, List.foldlM_cons, List.foldlM_cons]
      have hseed := seed (L := L) options step source hu
      have hrest : Additive _ _ (Except.ok t₂ >>= .ok) := hseed.bind fun _ _ _ hu => ih hu
      exact hrest

theorem execute (options : PropagationOptions) {step : TraceStep}
    (hclear : ∀ dest size, Transfer.classify step.instruction ≠ .clearMemory dest size)
    {t t₁ t₂ : ByteState} (hu : IsUnion t t₁ t₂) :
    Additive ((Event.execute step).act L options t) ((Event.execute step).act L options t₁)
      ((Event.execute step).act L options t₂) := by
  rw [Event.act, Event.act, Event.act]
  cases hmove : (Event.execute step).resolve L options with
  | error e => exact ⟨e, rfl⟩
  | ok move =>
      rcases Transfer.resolve_cases (Event.transfer_resolve hmove) with
        hpropagates | ⟨⟨dest, size, hclass⟩, -⟩
      · exact of_isUnion (hpropagates.isUnion hu)
      · exact absurd hclass (hclear dest size)

/-- The seeds of one step, of the first run and then of the second. -/
theorem append_seeds (options : PropagationOptions) (step : TraceStep)
    (first second : List Seed) {t t₁ t₂ : ByteState} (hu : IsUnion t t₁ t₂) :
    Additive (((first ++ second).map (.seed step)).foldlM (Event.act L options) t)
      ((first.map (.seed step)).foldlM (Event.act L options) t₁)
      ((second.map (.seed step)).foldlM (Event.act L options) t₂) := by
  rw [List.map_append, List.foldlM_append]
  have hfirst := seeds (L := L) options step first hu
  have hboth : Additive _ ((first.map (.seed step)).foldlM (Event.act L options) t₁ >>= pure)
      (Except.ok t₂ >>= (second.map (.seed step)).foldlM (Event.act L options)) :=
    hfirst.bind fun _ _ _ hu => (seeds options step second hu.symm).symm
  rwa [bind_pure] at hboth

end Additive

/-! ## Whole replays -/

variable (trace : Trace) (config : ReplayConfig)

/-- No instruction that is executed clears memory. -/
def Trace.ClearsNoMemory : Prop :=
  ∀ step ∈ trace.tracked config, ∀ dest size,
    Transfer.classify step.instruction ≠ .clearMemory dest size

theorem Trace.eventsAt_seeds (seeds : List Seed) (visit : TraceStep × Nat) :
    trace.eventsAt { config with seeds } visit =
      (seeds.filter (trace.fires config visit.2)).map (.seed visit.1) ++
        if trace.trackingStart config ≤ visit.2 then [.execute visit.1] else [] := rfl

theorem Trace.additive_eventsAt (options : PropagationOptions) {visit : TraceStep × Nat}
    (hclear : trace.trackingStart config ≤ visit.2 → ∀ dest size,
      Transfer.classify visit.1.instruction ≠ .clearMemory dest size)
    (first second : List Seed) {t t₁ t₂ : ByteState} (hu : IsUnion t t₁ t₂) :
    Additive
      ((trace.eventsAt { config with seeds := first ++ second } visit).foldlM
        (Event.act L options) t)
      ((trace.eventsAt { config with seeds := first } visit).foldlM (Event.act L options) t₁)
      ((trace.eventsAt { config with seeds := second } visit).foldlM
        (Event.act L options) t₂) := by
  rw [eventsAt_seeds, eventsAt_seeds, eventsAt_seeds, List.filter_append,
    List.foldlM_append, List.foldlM_append, List.foldlM_append]
  refine (Additive.append_seeds options visit.1 _ _ hu).bind ?_
  intro t t₁ t₂ hu
  split
  · next hle =>
      rw [List.foldlM_cons, List.foldlM_cons, List.foldlM_cons]
      exact (Additive.execute options (hclear hle) hu).bind fun _ _ _ hu =>
        Additive.of_isUnion hu
  · exact Additive.of_isUnion hu

/-- The three runs over the visits that are left. -/
theorem Trace.additive_visits {options : PropagationOptions}
    {visits : List (TraceStep × Nat)}
    (hclear : ∀ visit ∈ visits, trace.trackingStart config ≤ visit.2 → ∀ dest size,
      Transfer.classify visit.1.instruction ≠ .clearMemory dest size)
    (first second : List Seed) {t t₁ t₂ : ByteState} (hu : IsUnion t t₁ t₂) :
    Additive
      ((visits.flatMap (trace.eventsAt { config with seeds := first ++ second })).foldlM
        (Event.act L options) t)
      ((visits.flatMap (trace.eventsAt { config with seeds := first })).foldlM
        (Event.act L options) t₁)
      ((visits.flatMap (trace.eventsAt { config with seeds := second })).foldlM
        (Event.act L options) t₂) := by
  induction visits generalizing t t₁ t₂ with
  | nil => exact Additive.of_isUnion hu
  | cons visit visits ih =>
      rw [List.flatMap_cons, List.flatMap_cons, List.flatMap_cons, List.foldlM_append,
        List.foldlM_append, List.foldlM_append]
      have hhere := trace.additive_eventsAt config (L := L) options
        (hclear visit List.mem_cons_self) first second hu
      exact hhere.bind fun _ _ _ hu =>
        ih (fun visit hvisit => hclear visit (List.mem_cons_of_mem _ hvisit)) hu

theorem Trace.mem_tracked {visit : TraceStep × Nat}
    (hvisit : visit ∈ (trace.steps.take (trace.trackingStop config)).zipIdx)
    (hle : trace.trackingStart config ≤ visit.2) : visit.1 ∈ trace.tracked config := by
  obtain ⟨hlt, hget⟩ := List.mem_zipIdx' hvisit
  rw [tracked, List.mem_drop_iff_getElem]
  refine ⟨visit.2 - trace.trackingStart config, by omega, ?_⟩
  rw [hget]
  congr 1
  omega

theorem Trace.additive_replayBytes (hclear : trace.ClearsNoMemory config)
    (first second : List Seed) :
    Additive (trace.replayBytes { config with seeds := first ++ second })
      (trace.replayBytes { config with seeds := first })
      (trace.replayBytes { config with seeds := second }) :=
  trace.additive_visits config
    (fun _ hvisit hle => hclear _ (trace.mem_tracked config hvisit hle))
    first second isUnion_clean

/-- Instructions alone find nothing to propagate. -/
theorem Event.foldlM_act_clean {options : PropagationOptions} {events : List Event}
    (hevents : ∀ event ∈ events, ∃ step, event = .execute step) {t : ByteState}
    (h : events.foldlM (Event.act L options) .clean = .ok t) : t = .clean := by
  induction events with
  | nil =>
      cases h
      rfl
  | cons event events ih =>
      obtain ⟨step, rfl⟩ := hevents event List.mem_cons_self
      rw [List.foldlM_cons] at h
      obtain ⟨after, hact, h⟩ := exists_of_bind_eq_ok h
      rw [Event.act] at hact
      cases hmove : (Event.execute step).resolve L options with
      | error e =>
          rw [hmove] at hact
          cases hact
      | ok move =>
          rw [hmove] at hact
          have hclean : move.act .clean = .clean :=
            Transfer.act_clean (Event.transfer_resolve hmove)
          obtain rfl : move.act .clean = after := Except.ok.inj hact
          rw [hclean] at h
          exact ih (fun event hevent => hevents event (List.mem_cons_of_mem _ hevent)) h

theorem Trace.replayBytes_of_no_seeds {t : ByteState}
    (h : trace.replayBytes { config with seeds := [] } = .ok t) : t = .clean := by
  refine Event.foldlM_act_clean ?_ h
  intro event hevent
  obtain ⟨visit, -, hevent⟩ := List.mem_flatMap.mp hevent
  rw [eventsAt_seeds] at hevent
  split at hevent
  · exact ⟨visit.1, List.mem_singleton.mp hevent⟩
  · cases hevent

/-- The replay with two lists of seeds succeeds exactly if those with each of them do;
then the counts of all three are the same, and what is tainted at the end is what one
of the two lists has tainted. A replay without seeds taints nothing. -/
theorem Trace.replay_append_seeds :
    (trace.ClearsNoMemory config → ∀ first second : List Seed,
      ((∃ both, trace.replay { config with seeds := first ++ second } = .ok both) ↔
        (∃ one, trace.replay { config with seeds := first } = .ok one) ∧
          ∃ two, trace.replay { config with seeds := second } = .ok two) ∧
      ∀ both one two,
        trace.replay { config with seeds := first ++ second } = .ok both →
        trace.replay { config with seeds := first } = .ok one →
        trace.replay { config with seeds := second } = .ok two →
        both.stats = one.stats ∧ both.stats = two.stats ∧
          IsUnion both.session.view one.session.view two.session.view) ∧
    ∀ unseeded, trace.replay { config with seeds := [] } = .ok unseeded →
      (∀ x, unseeded.session.view.bytes x = false) ∧
        ∀ x, ¬ Covered unseeded.session.view.ranges x := by
  refine ⟨fun hclear first second => ⟨?_, fun both one two hboth hone htwo => ?_⟩,
    fun unseeded hunseeded => ?_⟩
  · rw [exists_replay_iff, exists_replay_iff, exists_replay_iff]
    exact (trace.additive_replayBytes config hclear first second).exists_ok_iff
  · obtain ⟨hboth, hstats⟩ := trace.replayBytes_of_replay _ hboth
    obtain ⟨hone, hstats₁⟩ := trace.replayBytes_of_replay _ hone
    obtain ⟨htwo, hstats₂⟩ := trace.replayBytes_of_replay _ htwo
    have hadditive := trace.additive_replayBytes config hclear first second
    rw [hboth, hone, htwo] at hadditive
    obtain ⟨t, ht, hu⟩ := hadditive
    cases ht
    exact ⟨hstats.trans hstats₁.symm, hstats.trans hstats₂.symm, hu⟩
  · have hbytes := (trace.replayBytes_of_replay _ hunseeded).1
    rw [trace.replayBytes_of_no_seeds config hbytes]
    exact ⟨fun _ => rfl, not_covered_zero⟩

/-- A step of `mov [rbx], rax`. -/
def spill : TraceStep where
  instruction :=
    { address := 4096
      mnemonic := "mov"
      operands := [⟨.memory { base := some "rbx" }, 8⟩, ⟨.register "rax", 8⟩] }
  registers := ⟨[("rbx", 8192)], List.pairwise_singleton _ _⟩

theorem Event.exists_resolve_register {L : Layout} (options : PropagationOptions)
    (step : TraceStep) {name : String} {slot : Slot} (hslot : L.slot name = .ok slot) :
    ∃ move, (seed step ⟨none, .register name⟩).resolve L options = .ok move := by
  refine ⟨.write slot.offset (List.replicate slot.width true), ?_⟩
  show Except.mapError _ (Move.ofMark L name true) = _
  rw [Move.ofMark, hslot]
  rfl

theorem Event.exists_resolve_memory {L : Layout} (options : PropagationOptions)
    (step : TraceStep) {address size : UInt64} {range : Option Interval}
    (hrange : Interval.ofSize address size.toNat = .ok range) :
    ∃ move, (seed step ⟨none, .memory address size⟩).resolve L options = .ok move := by
  refine ⟨.add range.toList, ?_⟩
  show Except.mapError _ (Interval.ofSize address size.toNat >>= fun range =>
    .ok (Move.add range.toList)) = _
  rw [hrange]
  rfl

theorem Event.exists_resolve_spill {L : Layout} (options : PropagationOptions)
    (hslot : L.slot "rax" = .ok ⟨16, 8⟩) :
    ∃ move, (execute spill).resolve L options = .ok move := by
  refine ⟨.store ⟨16, 8⟩ 8192
    (if options.overwriteOnStore then some ⟨8192, 8200, by decide⟩ else none), ?_⟩
  show Except.mapError _ (Move.ofStore L options 8192 "rax") = _
  rw [Move.ofStore, hslot]
  rfl

/-- A replay of the store succeeds with a register seeded and a range of memory. -/
theorem Trace.exists_replay_spill (options : PropagationOptions) {address size : UInt64}
    {range : Option Interval} (hrange : Interval.ofSize address size.toNat = .ok range) :
    ∃ replay, Trace.replay ⟨[spill]⟩
      { seeds := [⟨none, .register "ax"⟩, ⟨none, .memory address size⟩], options } =
        .ok replay := by
  have hax : Layout.amd64.slot "ax" = .ok ⟨16, 2⟩ := Layout.slot_amd64 (by decide +kernel)
  have hrax : Layout.amd64.slot "rax" = .ok ⟨16, 8⟩ := Layout.slot_amd64 (by decide +kernel)
  refine Trace.exists_replay_of_resolve _ _ fun event hevent => ?_
  have hschedule : Trace.schedule ⟨[spill]⟩
      { seeds := [⟨none, .register "ax"⟩, ⟨none, .memory address size⟩], options } =
        [.seed spill ⟨none, .register "ax"⟩, .seed spill ⟨none, .memory address size⟩,
          .execute spill] := rfl
  rw [hschedule, List.mem_cons, List.mem_cons, List.mem_singleton] at hevent
  rcases hevent with rfl | rfl | rfl
  · exact Event.exists_resolve_register _ spill hax
  · exact Event.exists_resolve_memory _ spill hrange
  · exact Event.exists_resolve_spill _ hrax

/-- Two tainted bytes are stored in front of four that are tainted in memory. -/
theorem Trace.replay_append_seeds_spill :
    ∃ both one two,
      Trace.replay ⟨[spill]⟩ { seeds := [⟨none, .register "ax"⟩, ⟨none, .memory 8200 4⟩] } =
        .ok both ∧
      Trace.replay ⟨[spill]⟩ { seeds := [⟨none, .register "ax"⟩] } = .ok one ∧
      Trace.replay ⟨[spill]⟩ { seeds := [⟨none, .memory 8200 4⟩] } = .ok two ∧
      IsUnion both.session.view one.session.view two.session.view := by
  have hclear : Trace.ClearsNoMemory ⟨[spill]⟩ {} := by
    intro step hstep dest size h
    obtain rfl : step = spill := List.mem_singleton.mp hstep
    have hstore : Transfer.classify spill.instruction =
        .store { base := some "rbx" } "rax" := by decide
    rw [hstore] at h
    cases h
  have hunion := (Trace.replay_append_seeds ⟨[spill]⟩ {}).1 hclear
    [⟨none, .register "ax"⟩] [⟨none, .memory 8200 4⟩]
  have hrange : Interval.ofSize 8200 (4 : UInt64).toNat =
      .ok (some ⟨8200, 8204, by decide⟩) := rfl
  obtain ⟨both, hboth⟩ := Trace.exists_replay_spill {} hrange
  obtain ⟨⟨one, hone⟩, two, htwo⟩ := hunion.1.mp ⟨both, hboth⟩
  exact ⟨both, one, two, hboth, hone, htwo, (hunion.2 both one two hboth hone htwo).2.2⟩

end TaintFlow
