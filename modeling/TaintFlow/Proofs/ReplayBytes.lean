import TaintFlow.Proofs.Refinement
import TaintFlow.Proofs.Schedule

/-!
# Replays on bytes

A replay is its schedule, and every event of a schedule is one call on the session.
So a replay is a run of the byte machine: `view_replay` says that the taint at its
end, its counts and its refusal are those of `Trace.replayBytes`, which folds the
events over a byte state. An event is resolved to a move by the layout, the options
and the recorded registers, before any taint is looked at.
-/

namespace TaintFlow

variable {L : Layout}

/-! ## Events -/

/-- The call that a seed makes. -/
def Seed.call (seed : Seed) (snapshot : Snapshot) : Except SeedError Call :=
  match seed.target with
  | .register name => .ok (.taintRegister name)
  | .memory address size => .ok (.taintMemory address size.toNat)
  | .pointedMemory register size =>
      match snapshot.get? register with
      | none => .error (.missingRegisterValue register)
      | some address => .ok (.taintMemory address size.toNat)

theorem Seed.apply_eq (seed : Seed) (s : Session L) (snapshot : Snapshot) :
    seed.apply s snapshot =
      match seed.call snapshot with
      | .ok call => ((s.call call).1.mapError .refused, (s.call call).2)
      | .error cause => (.error cause, s) := by
  rw [Seed.apply, Seed.call]
  cases seed.target with
  | register name => rfl
  | memory address size => rfl
  | pointedMemory register size =>
      cases hvalue : snapshot.get? register with
      | none => simp only [hvalue]
      | some address =>
          simp only [hvalue]
          rfl

namespace Event

/-- The call that an event makes. -/
def call (L : Layout) : Event → Except ReplayError Call
  | .seed step source => (source.call step.registers).mapError (.seed step.address)
  | .execute step => .ok (.execute step.instruction (step.context L))

/-- What a replay reports when the call of an event is refused. -/
def blame (cause : Error) : Event → ReplayError
  | .seed step _ => .seed step.address (.refused cause)
  | .execute step => .propagation step.instruction.mnemonic step.address cause

/-- The move of an event, or why the replay breaks off. -/
def resolve (L : Layout) (options : PropagationOptions) (event : Event) :
    Except ReplayError Move := do
  let call ← event.call L
  (call.resolve L options).mapError (event.blame ·)

/-- An event on the bytes. -/
def act (L : Layout) (options : PropagationOptions) (t : ByteState) (event : Event) :
    Except ReplayError ByteState :=
  (event.resolve L options).map (·.act t)

/-- Performing an event is making its call. -/
theorem perform_eq (event : Event) (s : Session L) :
    event.perform s =
      event.call L >>= fun call => (s.step call).mapError (event.blame ·) := by
  cases event with
  | seed step source =>
      rw [perform, Seed.apply_eq, call]
      cases source.call step.registers with
      | error cause => rfl
      | ok made =>
          dsimp only
          show _ = Except.mapError _ (s.step made)
          rw [Session.step]
          rcases s.call made with ⟨result, after⟩
          cases result with
          | error cause => rfl
          | ok _ => rfl
  | execute step =>
      show _ = Except.mapError _ (s.step (.execute step.instruction (step.context L)))
      rw [perform, Session.step, Session.call]
      rcases s.execute step.instruction (step.context L) with ⟨result, after⟩
      cases result with
      | error cause => rfl
      | ok _ => rfl

/-- An event does to the view of a session what its move does. -/
theorem perform_spec {options : PropagationOptions} {s : Session L}
    (hs : s.Sound ∧ s.options = options) (event : Event) :
    Shows (fun after : Session L => after.Sound ∧ after.options = options) Session.view
      (event.perform s) (event.act L options s.view) := by
  rw [perform_eq, act, resolve]
  cases event.call L with
  | error e => rfl
  | ok made =>
      have h := (Session.step_spec hs made).mapError (event.blame ·)
      have hact : (s.view.call L options made).mapError (event.blame ·) =
          ((made.resolve L options).mapError (event.blame ·)).map (·.act s.view) := by
        rw [ByteState.call]
        cases made.resolve L options <;> rfl
      rw [hact] at h
      exact h

/-- What a replay performs, the byte machine performs on its view. -/
theorem shows_foldlM_perform (options : PropagationOptions) (events : List Event) :
    Shows (fun after : Session L => after.Sound ∧ after.options = options) Session.view
      (events.foldlM perform (Session.start L options))
      (events.foldlM (act L options) .clean) := by
  rw [← Session.view_start L options]
  exact shows_foldlM (fun _ event hs => perform_spec hs event) events
    ⟨Session.sound_start L options, rfl⟩

/-- All events are performed, or the run breaks off with the refusal of one of them. -/
theorem foldlM_act_cases (options : PropagationOptions) (events : List Event) (t : ByteState) :
    (∃ after, events.foldlM (act L options) t = .ok after) ∨
      ∃ e, events.foldlM (act L options) t = .error e ∧
        ∃ event ∈ events, event.resolve L options = .error e := by
  induction events generalizing t with
  | nil => exact .inl ⟨t, rfl⟩
  | cons event events ih =>
      rw [List.foldlM_cons, act]
      cases hresolve : event.resolve L options with
      | error e => exact .inr ⟨e, rfl, event, List.mem_cons_self, hresolve⟩
      | ok move =>
          rcases ih (move.act t) with hok | ⟨e, herror, other, hother, hrefused⟩
          · exact .inl hok
          · exact .inr ⟨e, herror, other, List.mem_cons_of_mem _ hother, hrefused⟩

end Event

/-! ## Whole replays -/

variable (trace : Trace) (config : ReplayConfig)

/-- A replay on bytes. -/
def Trace.replayBytes : Except ReplayError ByteState :=
  (trace.schedule config).foldlM
    (Event.act config.architecture.layout config.options) .clean

/-- A replay on bytes ends in the view of the replay's session. -/
theorem Trace.view_replay :
    (trace.replay config).map (fun replay => (replay.session.view, replay.stats)) =
      (trace.replayBytes config).map fun t => (t, trace.finalStats config) := by
  have hview := (Event.shows_foldlM_perform (L := config.architecture.layout)
    config.options (trace.schedule config)).map_eq
  have hshow : (trace.replay config).map (fun replay => (replay.session.view, replay.stats)) =
      ((trace.replay config).map fun replay => (replay.session, replay.stats)).map
        fun outcome => (outcome.1.view, outcome.2) := by
    cases trace.replay config <;> rfl
  rw [hshow, trace.replay_eq_foldlM config, replayBytes, ← hview]
  cases (trace.schedule config).foldlM Event.perform
    (Session.start config.architecture.layout config.options) <;> rfl

theorem Trace.stats_replay :
    (trace.replay config).map (·.stats) =
      (trace.replayBytes config).map fun _ => trace.finalStats config := by
  have hstats := congrArg (Except.map Prod.snd) (trace.view_replay config)
  cases hreplay : trace.replay config <;> cases hbytes : trace.replayBytes config <;>
    rw [hreplay, hbytes] at hstats <;> exact hstats

theorem Trace.replayBytes_of_replay {replay : Replay config.architecture.layout}
    (h : trace.replay config = .ok replay) :
    trace.replayBytes config = .ok replay.session.view ∧
      replay.stats = trace.finalStats config := by
  have hview := trace.view_replay config
  rw [h] at hview
  cases hbytes : trace.replayBytes config with
  | error e =>
      rw [hbytes] at hview
      cases hview
  | ok t =>
      rw [hbytes] at hview
      obtain ⟨hsession, hstats⟩ := Prod.mk.inj (Except.ok.inj hview)
      exact ⟨congrArg Except.ok hsession.symm, hstats⟩

theorem Trace.exists_replay_iff :
    (∃ replay, trace.replay config = .ok replay) ↔ ∃ t, trace.replayBytes config = .ok t := by
  constructor
  · rintro ⟨replay, h⟩
    exact ⟨_, (trace.replayBytes_of_replay config h).1⟩
  · rintro ⟨t, h⟩
    have hview := trace.view_replay config
    rw [h] at hview
    cases hreplay : trace.replay config with
    | error e =>
        rw [hreplay] at hview
        cases hview
    | ok replay => exact ⟨replay, rfl⟩

/-- A replay succeeds where every event of its schedule is resolved. -/
theorem Trace.exists_replay_of_resolve
    (h : ∀ event ∈ trace.schedule config, ∃ move,
      event.resolve config.architecture.layout config.options = .ok move) :
    ∃ replay, trace.replay config = .ok replay := by
  rw [exists_replay_iff]
  rcases Event.foldlM_act_cases (L := config.architecture.layout) config.options
    (trace.schedule config) .clean with hok | ⟨e, -, event, hevent, hrefused⟩
  · exact hok
  · obtain ⟨move, hmove⟩ := h event hevent
    rw [hrefused] at hmove
    cases hmove

end TaintFlow
