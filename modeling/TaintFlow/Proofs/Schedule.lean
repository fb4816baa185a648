import TaintFlow.Replay.Run

/-!
# What a replay does, by the indices of its steps

A replay is a loop with a switch, a list of seeds that wait, and an early end.
`Trace.schedule` says the same without any of these. Two indices are read off the
addresses of the trace: where tracking begins, and where it stops. Every step
before the stop is visited; a seed that waits for an address is applied at the
first visit to it, a seed that waits for nothing where tracking begins, and the
instruction is executed from there on. The loop performs these events in this order
and nothing else.

The proof is an induction over the steps that remain. `Trace.reached` is what the
loop carries: whether tracking is on, which seeds still wait and what has been
counted are functions of the number of visited steps.
-/

namespace TaintFlow

/-! ## The schedule -/

/-- The addresses of the steps, in order. -/
def Trace.addresses (trace : Trace) : List UInt64 := trace.steps.map TraceStep.address

/-- The index of the first step at the start address, or the number of steps if no
step has it; zero when there is no start address. -/
def Trace.trackingStart (trace : Trace) (config : ReplayConfig) : Nat :=
  match config.start? with
  | some start => trace.addresses.findIdx (· == start)
  | none => 0

/-- The index of the first step at the stop address among those from the start on, or
the number of steps if none of them has it. -/
def Trace.trackingStop (trace : Trace) (config : ReplayConfig) : Nat :=
  match config.stop? with
  | some stop => trace.trackingStart config +
      (trace.addresses.drop (trace.trackingStart config)).findIdx (· == stop)
  | none => trace.steps.length

/-- A seed is applied at the first step with the address that it waits for, or at the
one where tracking begins. -/
def Trace.fires (trace : Trace) (config : ReplayConfig) (k : Nat) (seed : Seed) : Bool :=
  match seed.at? with
  | some trigger =>
      trace.addresses[k]? == some trigger && !(trace.addresses.take k).contains trigger
  | none => k == trace.trackingStart config

inductive Event where
  | seed (step : TraceStep) (source : Seed)
  | execute (step : TraceStep)

def Event.perform {L : Layout} (session : Session L) : Event → Except ReplayError (Session L)
  | .seed step source =>
      match source.apply session step.registers with
      | (.ok (), session) => .ok session
      | (.error cause, _) => .error (.seed step.address cause)
  | .execute step =>
      match session.execute step.instruction (step.context L) with
      | (.ok _, session) => .ok session
      | (.error cause, _) =>
          .error (.propagation step.instruction.mnemonic step.address cause)

/-- The events at one visited step: the seeds in their order, then the instruction. -/
def Trace.eventsAt (trace : Trace) (config : ReplayConfig) (visit : TraceStep × Nat) :
    List Event :=
  (config.seeds.filter (trace.fires config visit.2)).map (.seed visit.1) ++
    if trace.trackingStart config ≤ visit.2 then [.execute visit.1] else []

def Trace.schedule (trace : Trace) (config : ReplayConfig) : List Event :=
  (trace.steps.take (trace.trackingStop config)).zipIdx.flatMap (trace.eventsAt config)

/-- The steps whose instructions are executed. -/
def Trace.tracked (trace : Trace) (config : ReplayConfig) : List TraceStep :=
  (trace.steps.take (trace.trackingStop config)).drop (trace.trackingStart config)

/-- What a replay that performed its whole schedule has counted. -/
def Trace.finalStats (trace : Trace) (config : ReplayConfig) : ReplayStats where
  replayed := trace.trackingStop config - trace.trackingStart config
  propagated := (trace.tracked config).countP fun step =>
    (Transfer.classify step.instruction).isTracked
  stoppedAt := if trace.trackingStop config < trace.steps.length then config.stop? else none

/-! ## The two indices

A prefix of the trace has been visited, and the next step is looked at. -/

theorem Trace.length_addresses (trace : Trace) :
    trace.addresses.length = trace.steps.length := by
  rw [addresses, List.length_map]

theorem Trace.trackingStart_of_some (trace : Trace) {config : ReplayConfig} {start : UInt64}
    (h : config.start? = some start) :
    trace.trackingStart config = trace.addresses.findIdx (· == start) := by
  rw [trackingStart, h]

theorem Trace.trackingStart_of_none (trace : Trace) {config : ReplayConfig}
    (h : config.start? = none) : trace.trackingStart config = 0 := by
  rw [trackingStart, h]

theorem Trace.trackingStop_of_some (trace : Trace) {config : ReplayConfig} {stop : UInt64}
    (h : config.stop? = some stop) :
    trace.trackingStop config = trace.trackingStart config +
      (trace.addresses.drop (trace.trackingStart config)).findIdx (· == stop) := by
  rw [trackingStop, h]

theorem Trace.trackingStop_of_none (trace : Trace) {config : ReplayConfig}
    (h : config.stop? = none) : trace.trackingStop config = trace.steps.length := by
  rw [trackingStop, h]

theorem Trace.trackingStart_le (trace : Trace) (config : ReplayConfig) :
    trace.trackingStart config ≤ trace.steps.length := by
  cases hstart : config.start? with
  | some start =>
      rw [trace.trackingStart_of_some hstart, ← trace.length_addresses]
      exact List.findIdx_le_length
  | none =>
      rw [trace.trackingStart_of_none hstart]
      exact Nat.zero_le _

theorem Trace.trackingStop_le (trace : Trace) (config : ReplayConfig) :
    trace.trackingStop config ≤ trace.steps.length := by
  cases hstop : config.stop? with
  | some stop =>
      have hle := trace.trackingStart_le config
      have hfind : (trace.addresses.drop (trace.trackingStart config)).findIdx (· == stop) ≤
          (trace.addresses.drop (trace.trackingStart config)).length := List.findIdx_le_length
      rw [List.length_drop, trace.length_addresses] at hfind
      rw [trace.trackingStop_of_some hstop]
      omega
  | none => exact Nat.le_of_eq (trace.trackingStop_of_none hstop)

theorem Trace.trackingStart_le_trackingStop (trace : Trace) (config : ReplayConfig) :
    trace.trackingStart config ≤ trace.trackingStop config := by
  cases hstop : config.stop? with
  | some stop =>
      rw [trace.trackingStop_of_some hstop]
      exact Nat.le_add_right _ _
  | none =>
      rw [trace.trackingStop_of_none hstop]
      exact trace.trackingStart_le config

/-- A place that the search has not passed is where it ends exactly if it satisfies
the test. -/
theorem findIdx_eq_iff {α : Type} {p : α → Bool} {xs : List α} {k : Nat}
    (hk : k < xs.length) (hle : k ≤ xs.findIdx p) :
    xs.findIdx p = k ↔ p xs[k] = true := by
  rw [List.findIdx_eq hk]
  constructor
  · intro h
    exact h.1
  · intro hp
    refine ⟨hp, ?_⟩
    intro j hj
    exact List.not_of_lt_findIdx (by omega)

theorem Trace.getElem_addresses (trace : Trace) {k : Nat} (hk : k < trace.steps.length)
    (hk' : k < trace.addresses.length) : trace.addresses[k] = trace.steps[k].address := by
  simp only [addresses, List.getElem_map]

theorem Replay.isActive_eq (trace : Trace) (config : ReplayConfig) {k : Nat}
    (hk : k < trace.steps.length) :
    isActive config (decide (trace.trackingStart config < k)) trace.steps[k] =
      decide (trace.trackingStart config ≤ k) := by
  have hk' : k < trace.addresses.length := trace.length_addresses ▸ hk
  rw [Bool.eq_iff_iff, isActive, Bool.or_eq_true, decide_eq_true_iff, decide_eq_true_iff]
  cases hstart : config.start? with
  | some start =>
      show _ ∨ (start == trace.steps[k].address) = true ↔ _
      rw [trace.trackingStart_of_some hstart, ← trace.getElem_addresses hk hk', Bool.beq_comm]
      constructor
      · rintro (hlt | heq)
        · omega
        · refine Nat.le_of_not_lt ?_
          intro hgt
          have := (findIdx_eq_iff (p := (· == start)) hk' (by omega)).mpr heq
          omega
      · intro hle
        rcases Nat.lt_or_eq_of_le hle with hlt | heq
        · exact .inl hlt
        · exact .inr ((findIdx_eq_iff (p := (· == start)) hk' (by omega)).mp heq)
  | none =>
      rw [trace.trackingStart_of_none hstart]
      exact ⟨fun _ => Nat.zero_le k, fun _ => .inr rfl⟩

theorem Replay.stops_iff (trace : Trace) (config : ReplayConfig) {k : Nat}
    (hk : k < trace.steps.length) (hle : k ≤ trace.trackingStop config) :
    (decide (trace.trackingStart config ≤ k) &&
        config.stop? == some trace.steps[k].address) = true ↔
      trace.trackingStop config = k := by
  have hk' : k < trace.addresses.length := trace.length_addresses ▸ hk
  rw [Bool.and_eq_true, decide_eq_true_iff, beq_iff_eq]
  cases hstop : config.stop? with
  | some stop =>
      rw [trace.trackingStop_of_some hstop] at hle ⊢
      rw [Option.some.injEq]
      by_cases hstart : trace.trackingStart config ≤ k
      · have hdrop : k - trace.trackingStart config <
            (trace.addresses.drop (trace.trackingStart config)).length := by
          rw [List.length_drop]
          omega
        have hplace := findIdx_eq_iff (p := (· == stop)) hdrop (by omega)
        rw [List.getElem_drop, beq_iff_eq] at hplace
        simp only [Nat.add_sub_cancel' hstart] at hplace
        rw [← trace.getElem_addresses hk hk', eq_comm (a := stop), ← hplace]
        omega
      · omega
  | none =>
      rw [trace.trackingStop_of_none hstop]
      constructor
      · rintro ⟨-, h⟩
        cases h
      · omega

/-! ## Where the loop stands

`waits` says of a seed that it has not been applied before the step with index `k`,
and `reached` is the replay in front of that step. -/

def Trace.waits (trace : Trace) (config : ReplayConfig) (k : Nat) (seed : Seed) : Bool :=
  match seed.at? with
  | some trigger => !(trace.addresses.take k).contains trigger
  | none => k ≤ trace.trackingStart config

def Trace.reached {L : Layout} (trace : Trace) (config : ReplayConfig) (k : Nat)
    (session : Session L) : Replay L where
  session
  active := trace.trackingStart config < k
  pending := config.seeds.filter (trace.waits config k)
  stats :=
    { replayed := k - trace.trackingStart config
      propagated := ((trace.steps.take k).drop (trace.trackingStart config)).countP fun step =>
        (Transfer.classify step.instruction).isTracked }

theorem Trace.reached_zero {L : Layout} (trace : Trace) (config : ReplayConfig) :
    trace.reached config 0 (Session.start L config.options) = Replay.start L config := by
  have hall : ∀ seed ∈ config.seeds, trace.waits config 0 seed = true := by
    intro seed _
    rw [waits]
    split <;> simp
  simp [reached, Replay.start, List.filter_eq_self.mpr hall]

/-- A waiting seed that is due at a step is one that fires there. -/
theorem Trace.waits_and_isDue (trace : Trace) (config : ReplayConfig) {k : Nat}
    (hk : k < trace.steps.length) (seed : Seed) :
    (trace.waits config k seed && seed.isDue trace.steps[k].address
        (trace.trackingStart config ≤ k)) = trace.fires config k seed := by
  have hk' : k < trace.addresses.length := trace.length_addresses ▸ hk
  rw [waits, Seed.isDue, fires]
  cases seed.at? with
  | some trigger =>
      show (!_ && _) = (trace.addresses[k]? == some trigger && !_)
      rw [List.getElem?_eq_getElem hk', trace.getElem_addresses hk hk', Bool.and_comm,
        Bool.beq_comm, Option.some_beq_some]
  | none =>
      rw [Bool.eq_iff_iff]
      simp
      omega

/-- A waiting seed that is not due at a step waits at the next one. -/
theorem Trace.waits_and_not_isDue (trace : Trace) (config : ReplayConfig) {k : Nat}
    (hk : k < trace.steps.length) (seed : Seed) :
    (trace.waits config k seed && !seed.isDue trace.steps[k].address
        (trace.trackingStart config ≤ k)) = trace.waits config (k + 1) seed := by
  have hk' : k < trace.addresses.length := trace.length_addresses ▸ hk
  rw [waits, Seed.isDue, waits]
  cases seed.at? with
  | some trigger =>
      show (!_ && !_) = !_
      rw [List.take_succ_eq_append_getElem hk', trace.getElem_addresses hk hk',
        List.contains_append, Bool.not_or, List.contains_cons, List.contains_nil,
        Bool.or_false]
  | none =>
      rw [Bool.eq_iff_iff]
      simp
      omega

/-- No seed fires at two steps. -/
theorem Trace.fires_unique (trace : Trace) (config : ReplayConfig) {seed : Seed} {k k' : Nat}
    (hk : trace.fires config k seed = true) (hk' : trace.fires config k' seed = true) :
    k = k' := by
  rw [fires] at hk hk'
  split at hk
  · next trigger htrigger =>
      rw [htrigger] at hk'
      simp only [Bool.and_eq_true, beq_iff_eq, Bool.not_eq_true', List.contains_eq_mem,
        decide_eq_false_iff_not] at hk hk'
      have hnot : ∀ {a b : Nat}, a < b → trace.addresses[a]? = some trigger →
          trigger ∈ trace.addresses.take b := by
        intro a b hab ha
        obtain ⟨hlt, hget⟩ := List.getElem?_eq_some_iff.mp ha
        rw [List.mem_take_iff_getElem]
        exact ⟨a, by omega, hget⟩
      rcases Nat.lt_trichotomy k k' with hlt | heq | hgt
      · exact absurd (hnot hlt hk.1) hk'.2
      · exact heq
      · exact absurd (hnot hgt hk'.1) hk.2
  · next hnone =>
      rw [hnone] at hk'
      rw [beq_iff_eq] at hk hk'
      rw [hk, hk']

theorem Trace.countP_fires_le_one (trace : Trace) (config : ReplayConfig) (seed : Seed)
    (n : Nat) : (List.range n).countP (trace.fires config · seed) ≤ 1 := by
  rw [List.countP_eq_length_filter]
  have hnodup : ((List.range n).filter (trace.fires config · seed)).Nodup :=
    List.nodup_range.filter _
  have hsame : ∀ k ∈ (List.range n).filter (trace.fires config · seed),
      trace.fires config k seed = true := by
    intro k hk
    exact (List.mem_filter.mp hk).2
  cases hfires : (List.range n).filter (trace.fires config · seed) with
  | nil => exact Nat.zero_le 1
  | cons first rest => cases rest with
    | nil => exact Nat.le_refl 1
    | cons second rest =>
        rw [hfires] at hnodup hsame
        have heq : first = second := trace.fires_unique config (hsame first (by simp))
          (hsame second (by simp))
        simp [heq] at hnodup

/-! ## One step -/

theorem Replay.applySeeds_eq {L : Layout} (step : TraceStep) (seeds : List Seed)
    (session : Session L) :
    applySeeds session step seeds = (seeds.map (.seed step)).foldlM Event.perform session := by
  induction seeds generalizing session with
  | nil => rfl
  | cons seed seeds ih =>
      rw [applySeeds, List.map_cons, List.foldlM_cons, Event.perform]
      rcases seed.apply session step.registers with ⟨result, after⟩
      cases result with
      | ok _ => exact ih after
      | error cause => rfl

theorem Replay.executeStep_eq {L : Layout} (replay : Replay L) (step : TraceStep) :
    replay.executeStep step =
      (Event.perform replay.session (.execute step)).map fun session =>
        { replay with
          session
          stats := { replay.stats with
            replayed := replay.stats.replayed + 1
            propagated := replay.stats.propagated +
              if (Transfer.classify step.instruction).isTracked then 1 else 0 } } := by
  rw [executeStep, Event.perform, Session.execute_eq]
  rcases replay.session.run _ with ⟨result, after⟩
  cases result with
  | ok _ => rfl
  | error cause => rfl

theorem drop_take_succ {α : Type} {steps : List α} {k : Nat} (hk : k < steps.length)
    (start : Nat) :
    (steps.take (k + 1)).drop start =
      (steps.take k).drop start ++ if start ≤ k then [steps[k]] else [] := by
  rw [List.take_succ_eq_append_getElem hk, List.drop_append, List.length_take_of_le (Nat.le_of_lt hk)]
  split
  · next hle => rw [Nat.sub_eq_zero_of_le hle, List.drop_zero]
  · next hgt =>
      have hpos : [steps[k]].length ≤ start - k := by
        rw [List.length_singleton]
        omega
      rw [List.drop_eq_nil_of_le hpos]

theorem Trace.visit_reached {L : Layout} (trace : Trace) (config : ReplayConfig) {k : Nat}
    (hk : k < trace.steps.length) (session : Session L) :
    (trace.reached config k session).visit (trace.trackingStart config ≤ k) trace.steps[k] =
      ((trace.eventsAt config (trace.steps[k], k)).foldlM Event.perform session).map
        (trace.reached config (k + 1)) := by
  have hdue : (trace.reached config k session).pending.filter (fun seed =>
      seed.isDue trace.steps[k].address (trace.trackingStart config ≤ k)) =
        config.seeds.filter (trace.fires config k) := by
    rw [reached, List.filter_filter]
    congr 1
    funext seed
    rw [Bool.and_comm, trace.waits_and_isDue config hk]
  have hpending : (trace.reached config k session).pending.filter (not ∘ fun seed =>
      seed.isDue trace.steps[k].address (trace.trackingStart config ≤ k)) =
        config.seeds.filter (trace.waits config (k + 1)) := by
    rw [reached, List.filter_filter]
    congr 1
    funext seed
    rw [Bool.and_comm, ← trace.waits_and_not_isDue config hk]
    rfl
  rw [Replay.visit, List.partition_eq_filter_filter]
  simp only [hdue, hpending, Replay.applySeeds_eq]
  rw [eventsAt, List.foldlM_append]
  show Except.bind (List.foldlM Event.perform session _) _ =
    Except.map _ (Except.bind (List.foldlM Event.perform session _) _)
  cases (List.foldlM Event.perform session
    ((config.seeds.filter (trace.fires config k)).map (.seed trace.steps[k]))) with
  | error cause => rfl
  | ok seeded =>
      show (if decide (trace.trackingStart config ≤ k) = true then _ else _) =
        Except.map _ (List.foldlM _ seeded (if _ then _ else _))
      have hcount := drop_take_succ hk (trace.trackingStart config)
      by_cases hle : trace.trackingStart config ≤ k
      · have hreplayed : k + 1 - trace.trackingStart config =
          k - trace.trackingStart config + 1 := by omega
        rw [if_pos hle] at hcount
        rw [if_pos (decide_eq_true hle), if_pos hle, Replay.executeStep_eq, List.foldlM_cons]
        show Except.map _ (Event.perform seeded (.execute trace.steps[k])) =
          Except.map _ (Except.bind (Event.perform seeded (.execute trace.steps[k])) _)
        cases Event.perform seeded (.execute trace.steps[k]) with
        | error cause => rfl
        | ok after =>
            have hactive : trace.trackingStart config < k + 1 := by omega
            show Except.ok _ = Except.ok _
            simp [reached, hcount, hreplayed, List.countP_append, hle, hactive]
      · have hreplayed : k + 1 - trace.trackingStart config =
          k - trace.trackingStart config := by omega
        rw [if_neg hle, List.append_nil] at hcount
        rw [if_neg (by simpa using hle), if_neg hle]
        have hactive : ¬ trace.trackingStart config < k + 1 := by omega
        show Except.ok _ = Except.ok _
        simp [reached, hcount, hreplayed, hle, hactive]

/-! ## The whole loop

`visitsFrom` lists the visits that are left in front of the step with index `k`. -/

def Trace.visitsFrom (trace : Trace) (config : ReplayConfig) (k : Nat) :
    List (TraceStep × Nat) :=
  (trace.steps.take (trace.trackingStop config)).zipIdx.drop k

theorem Trace.visitsFrom_trackingStop (trace : Trace) (config : ReplayConfig) :
    trace.visitsFrom config (trace.trackingStop config) = [] := by
  rw [visitsFrom, List.drop_eq_nil_iff, List.length_zipIdx]
  exact List.length_take_le _ _

theorem Trace.visitsFrom_of_lt (trace : Trace) (config : ReplayConfig) {k : Nat}
    (hk : k < trace.steps.length) (hlt : k < trace.trackingStop config) :
    trace.visitsFrom config k = (trace.steps[k], k) :: trace.visitsFrom config (k + 1) := by
  have hlength : k < (trace.steps.take (trace.trackingStop config)).zipIdx.length := by
    rw [List.length_zipIdx, List.length_take]
    omega
  rw [visitsFrom, List.drop_eq_getElem_cons hlength, List.getElem_zipIdx, List.getElem_take,
    Nat.zero_add]
  rfl

/-- The counts in front of the stop are the final ones, once it is known whether the stop
address was met. -/
theorem Trace.reached_stats {L : Layout} (trace : Trace) (config : ReplayConfig)
    (session : Session L) :
    { (trace.reached config (trace.trackingStop config) session).stats with
      stoppedAt := if trace.trackingStop config < trace.steps.length then config.stop?
        else none } = trace.finalStats config := rfl

/-- The loop from the step with index `k` on performs the events of the visits from `k`
on. -/
theorem Trace.run_reached {L : Layout} (trace : Trace) (config : ReplayConfig)
    {rest : List TraceStep} {k : Nat} (hrest : trace.steps.drop k = rest)
    (hk : k ≤ trace.trackingStop config) (session : Session L) :
    ((trace.reached config k session).run config rest).map
        (fun replay => (replay.session, replay.stats)) =
      (((trace.visitsFrom config k).flatMap (trace.eventsAt config)).foldlM
        Event.perform session).map fun session => (session, trace.finalStats config) := by
  have hstop := trace.trackingStop_le config
  induction rest generalizing k session with
  | nil =>
      have hlength : trace.steps.length ≤ k := List.drop_eq_nil_iff.mp hrest
      obtain rfl : k = trace.trackingStop config := by omega
      rw [Replay.run, trace.visitsFrom_trackingStop, ← trace.reached_stats config session,
        if_neg (by omega)]
      rfl
  | cons step rest ih =>
      have hlt : k < trace.steps.length := by
        refine Nat.lt_of_not_le ?_
        intro hge
        rw [List.drop_eq_nil_of_le hge] at hrest
        cases hrest
      rw [List.drop_eq_getElem_cons hlt] at hrest
      obtain ⟨rfl, htail⟩ := List.cons.inj hrest
      have hactive : Replay.isActive config (trace.reached config k session).active
          trace.steps[k] = decide (trace.trackingStart config ≤ k) :=
        Replay.isActive_eq trace config hlt
      have hstops := Replay.stops_iff trace config hlt hk
      simp only [Replay.run, hactive]
      by_cases hend : trace.trackingStop config = k
      · have hstop? := hstops.mpr hend
        rw [if_pos hstop?]
        rw [Bool.and_eq_true, beq_iff_eq] at hstop?
        subst hend
        rw [trace.visitsFrom_trackingStop, ← trace.reached_stats config session, if_pos hlt,
          hstop?.2]
        rfl
      · have hlt' : k < trace.trackingStop config := by omega
        rw [if_neg (fun h => hend (hstops.mp h)), trace.visitsFrom_of_lt config hlt hlt',
          List.flatMap_cons, List.foldlM_append, trace.visit_reached config hlt]
        cases (trace.eventsAt config (trace.steps[k], k)).foldlM Event.perform session with
        | error cause => rfl
        | ok after => exact ih htail hlt' after

/-- The final session and the counts of a replay are those of its schedule. -/
theorem Trace.replay_eq_foldlM (trace : Trace) (config : ReplayConfig) :
    (trace.replay config).map (fun replay => (replay.session, replay.stats)) =
      ((trace.schedule config).foldlM Event.perform
        (Session.start config.architecture.layout config.options)).map
          fun session => (session, trace.finalStats config) := by
  have h := trace.run_reached config (List.drop_zero (l := trace.steps)) (Nat.zero_le _)
    (Session.start config.architecture.layout config.options)
  rw [trace.reached_zero] at h
  exact h

/-- A replay breaks off with its schedule, or ends in the session that the schedule leads to
and with the final counts. -/
theorem Trace.replay_cases (trace : Trace) (config : ReplayConfig) :
    (∃ e, (trace.schedule config).foldlM Event.perform
          (Session.start config.architecture.layout config.options) = .error e ∧
        trace.replay config = .error e) ∨
      ∃ replay, (trace.schedule config).foldlM Event.perform
          (Session.start config.architecture.layout config.options) = .ok replay.session ∧
        trace.replay config = .ok replay ∧ replay.stats = trace.finalStats config := by
  have h := trace.replay_eq_foldlM config
  cases hfold : (trace.schedule config).foldlM Event.perform
      (Session.start config.architecture.layout config.options) with
  | error e =>
      rw [hfold] at h
      cases hreplay : trace.replay config with
      | error f =>
          rw [hreplay] at h
          cases h
          exact .inl ⟨e, rfl, rfl⟩
      | ok replay =>
          rw [hreplay] at h
          cases h
  | ok session =>
      rw [hfold] at h
      cases hreplay : trace.replay config with
      | error f =>
          rw [hreplay] at h
          cases h
      | ok replay =>
          rw [hreplay] at h
          obtain ⟨hsession, hstats⟩ := Prod.mk.inj (Except.ok.inj h)
          exact .inr ⟨replay, congrArg Except.ok hsession.symm, rfl, hstats⟩

/-- A replay is its schedule: the start is not behind the stop, the stop not behind the end
of the trace, and every seed is applied at one step or at none. -/
theorem Trace.replay_eq_schedule (trace : Trace) (config : ReplayConfig) :
    (trace.replay config).map (fun replay => (replay.session, replay.stats)) =
        ((trace.schedule config).foldlM Event.perform
          (Session.start config.architecture.layout config.options)).map
            (fun session => (session, trace.finalStats config)) ∧
      trace.trackingStart config ≤ trace.trackingStop config ∧
      trace.trackingStop config ≤ trace.steps.length ∧
      ∀ seed, (List.range trace.steps.length).countP (trace.fires config · seed) ≤ 1 := by
  refine ⟨trace.replay_eq_foldlM config, trace.trackingStart_le_trackingStop config,
    trace.trackingStop_le config, ?_⟩
  intro seed
  exact trace.countP_fires_le_one config seed trace.steps.length

end TaintFlow
