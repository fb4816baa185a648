import TaintFlow.Proofs.Additivity
import TaintFlow.Proofs.Reports

/-!
# The set of seeds decides the report

Two replays of one trace are compared whose seeds are the same up to their order and
repetitions. Their collections differ: in the order of what is stored, in how often,
and in the shape of the tree.

What the two runs share has to be chosen with care. That they cover the same
addresses is too little, because clearing memory takes a range away where it is
stored with exactly its bounds. That they store the same multiset is too much,
because a seed that is repeated is stored twice. `Alike` is what every move keeps:
the same bytes, and the same ranges, however often each is stored.

The seeds of one step come in two orders, so they are not followed one by one. What
they make of a state is described by membership (`Seeded`), and a description by
membership does not see order and repetitions. Where a seed is refused, which one is
found first does depend on the order, but the step at which it happens does not, and
the outermost reason names the step and nothing else.
-/

namespace TaintFlow

open ByteState

/-! ## Outcomes side by side -/

/-- Two outcomes that are both refusals, for reasons that `E` relates, or both not, with
results that `R` relates. -/
inductive Matched {ε σ : Type} (E : ε → ε → Prop) (R : σ → σ → Prop) :
    Except ε σ → Except ε σ → Prop where
  | ok {a b : σ} (h : R a b) : Matched E R (.ok a) (.ok b)
  | error {e f : ε} (h : E e f) : Matched E R (.error e) (.error f)

theorem Matched.bind {ε σ τ : Type} {E : ε → ε → Prop} {R : σ → σ → Prop} {S : τ → τ → Prop}
    {x y : Except ε σ} (h : Matched E R x y) {f g : σ → Except ε τ}
    (hfg : ∀ a b, R a b → Matched E S (f a) (g b)) : Matched E S (x >>= f) (y >>= g) := by
  cases h with
  | ok h => exact hfg _ _ h
  | error h => exact .error h

/-- Two loops over one list whose rounds match. -/
theorem Matched.foldlM {ε σ β : Type} {E : ε → ε → Prop} {R : σ → σ → Prop}
    {f g : σ → β → Except ε σ} {bs : List β}
    (hround : ∀ b ∈ bs, ∀ s t, R s t → Matched E R (f s b) (g t b)) {s t : σ} (h : R s t) :
    Matched E R (bs.foldlM f s) (bs.foldlM g t) := by
  induction bs generalizing s t with
  | nil => exact .ok h
  | cons b bs ih =>
      rw [List.foldlM_cons, List.foldlM_cons]
      exact (hround b List.mem_cons_self s t h).bind fun _ _ h =>
        ih (fun b hb => hround b (List.mem_cons_of_mem _ hb)) h

/-! ## Alike states -/

namespace ByteState

/-- The same bytes are tainted, and the same ranges are stored, however often. -/
structure Alike (t u : ByteState) : Prop where
  bytes : t.bytes = u.bytes
  ranges : ∀ a, a ∈ t.ranges ↔ a ∈ u.ranges

theorem Alike.refl (t : ByteState) : Alike t t := ⟨rfl, fun _ => Iff.rfl⟩

theorem covered_congr {ranges more : Multiset Interval} (h : ∀ a, a ∈ ranges ↔ a ∈ more)
    (x : Nat) : Covered ranges x ↔ Covered more x := by
  simp only [Covered, h]

theorem mem_cutOut_congr {ranges more : Multiset Interval} (h : ∀ a, a ∈ ranges ↔ a ∈ more)
    (range : Option Interval) (a : Interval) : a ∈ cutOut ranges range ↔ a ∈ cutOut more range := by
  cases range with
  | none => exact h a
  | some query => simp only [cutOut, Multiset.mem_bind, h]

theorem mem_without_congr {ranges more : Multiset Interval} (h : ∀ a, a ∈ ranges ↔ a ∈ more)
    (range : Option Interval) (a : Interval) :
    a ∈ without ranges range ↔ a ∈ without more range := by
  cases range with
  | none => exact h a
  | some range => simp only [without, Multiset.mem_filter, h]

/-- Alike states stay alike under every move. -/
theorem Alike.act {t u : ByteState} (h : Alike t u) (move : Move) :
    Alike (move.act t) (move.act u) := by
  obtain ⟨hbytes, hranges⟩ := h
  cases move with
  | load dest address =>
      refine ⟨?_, hranges⟩
      simp only [Move.act, hbytes, covered_congr hranges]
  | store src address cleared =>
      refine ⟨hbytes, ?_⟩
      intro a
      simp only [Move.act, hbytes, Multiset.mem_add, mem_cutOut_congr hranges]
  | copy dest src =>
      refine ⟨?_, hranges⟩
      simp only [Move.act, hbytes]
  | write offset pattern =>
      refine ⟨?_, hranges⟩
      simp only [Move.act, hbytes]
  | add ranges =>
      refine ⟨hbytes, ?_⟩
      intro a
      simp only [Move.act, Multiset.mem_add, hranges]
  | forget range => exact ⟨hbytes, mem_without_congr hranges range⟩
  | cut range => exact ⟨hbytes, mem_cutOut_congr hranges range⟩
  | reset => exact .refl _
  | skip => exact ⟨hbytes, hranges⟩

end ByteState

/-! ## The seeds of one step

A seed adds to every state what it makes of the clean one. -/

theorem Move.Marks.bytes_act {move : Move} (h : move.Marks) (t : ByteState) (x : Nat) :
    (move.act t).bytes x = true ↔ t.bytes x = true ∨ (move.act .clean).bytes x = true := by
  cases h with
  | register offset width =>
      simp only [Move.act, setBytes, List.length_replicate]
      split
      · next hx =>
          rw [getD_replicate (by omega)]
          simp
      · simp [ByteState.clean]
  | memory ranges => simp [Move.act, ByteState.clean]

theorem Move.Marks.mem_ranges_act {move : Move} (h : move.Marks) (t : ByteState)
    (a : Interval) :
    a ∈ (move.act t).ranges ↔ a ∈ t.ranges ∨ a ∈ (move.act .clean).ranges := by
  cases h with
  | register offset width => simp [Move.act, ByteState.clean]
  | memory ranges => simp [Move.act, ByteState.clean]

variable {L : Layout} {options : PropagationOptions}

/-- The seeds are not refused, and lead from the first state to the second. -/
structure Seeded (L : Layout) (options : PropagationOptions) (step : TraceStep)
    (sources : List Seed) (t after : ByteState) : Prop where
  resolved : ∀ source ∈ sources, ∃ move, (Event.seed step source).resolve L options = .ok move
  bytes : ∀ x, after.bytes x = true ↔ t.bytes x = true ∨
    ∃ source ∈ sources, ∃ move, (Event.seed step source).resolve L options = .ok move ∧
      (move.act .clean).bytes x = true
  ranges : ∀ a, a ∈ after.ranges ↔ a ∈ t.ranges ∨
    ∃ source ∈ sources, ∃ move, (Event.seed step source).resolve L options = .ok move ∧
      a ∈ (move.act .clean).ranges

theorem Seeded.nil (step : TraceStep) (t : ByteState) : Seeded L options step [] t t := by
  constructor <;> simp

theorem Seeded.cons {step : TraceStep} {source : Seed} {sources : List Seed}
    {t after : ByteState} {move : Move}
    (hmove : (Event.seed step source).resolve L options = .ok move)
    (h : Seeded L options step sources (move.act t) after) :
    Seeded L options step (source :: sources) t after := by
  have hmarks := Event.marks_resolve hmove
  refine ⟨?_, fun x => ?_, fun a => ?_⟩
  · intro other hother
    rcases List.mem_cons.mp hother with rfl | hother
    · exact ⟨move, hmove⟩
    · exact h.resolved other hother
  · rw [h.bytes, hmarks.bytes_act]
    simp [hmove, or_assoc]
  · rw [h.ranges, hmarks.mem_ranges_act]
    simp [hmove, or_assoc]

/-- Which seeds there are is all that counts. -/
theorem Seeded.alike {step : TraceStep} {first second : List Seed}
    (hsame : ∀ seed, seed ∈ first ↔ seed ∈ second) {t u t' u' : ByteState} (h : Alike t u)
    (ht : Seeded L options step first t t') (hu : Seeded L options step second u u') :
    Alike t' u' := by
  refine ⟨?_, ?_⟩
  · funext x
    rw [Bool.eq_iff_iff, ht.bytes, hu.bytes, h.bytes]
    simp only [hsame]
  · intro a
    rw [ht.ranges, hu.ranges, h.ranges]
    simp only [hsame]

namespace Event

/-- A refused seed is reported by the address of its step. -/
theorem exists_of_resolve_error {step : TraceStep} {source : Seed} {e : ReplayError}
    (h : (seed step source).resolve L options = .error e) :
    ∃ cause, e = .seed step.address cause := by
  rw [resolve, call] at h
  cases hcall : source.call step.registers with
  | error cause =>
      rw [hcall] at h
      cases h
      exact ⟨cause, rfl⟩
  | ok made =>
      rw [hcall] at h
      change (made.resolve L options).mapError _ = .error e at h
      cases hmove : made.resolve L options with
      | error cause =>
          rw [hmove] at h
          cases h
          exact ⟨.refused cause, rfl⟩
      | ok move =>
          rw [hmove] at h
          cases h

/-- The seeds of a step are all performed, or one of them is refused. -/
theorem foldlM_seeds (L : Layout) (options : PropagationOptions) (step : TraceStep)
    (sources : List Seed) (t : ByteState) :
    (∃ after, (sources.map (.seed step)).foldlM (act L options) t = .ok after ∧
      Seeded L options step sources t after) ∨
    ∃ cause, (sources.map (.seed step)).foldlM (act L options) t =
        .error (.seed step.address cause) ∧
      ∃ source ∈ sources, ∃ e, (seed step source).resolve L options = .error e := by
  induction sources generalizing t with
  | nil => exact .inl ⟨t, rfl, .nil step t⟩
  | cons source sources ih =>
      rw [List.map_cons, List.foldlM_cons, act]
      cases hmove : (seed step source).resolve L options with
      | error e =>
          obtain ⟨cause, rfl⟩ := exists_of_resolve_error hmove
          exact .inr ⟨cause, rfl, source, List.mem_cons_self, _, hmove⟩
      | ok move =>
          rcases ih (move.act t) with ⟨after, hfold, hseeded⟩ | ⟨cause, hfold, other, hother, he⟩
          · exact .inl ⟨after, hfold, hseeded.cons hmove⟩
          · exact .inr ⟨cause, hfold, other, List.mem_cons_of_mem _ hother, he⟩

end Event

/-! ## Two replays -/

/-- The outermost reasons are the same. -/
def ReplayError.SameContext (e f : ReplayError) : Prop := e.chain.head? = f.chain.head?

namespace Event

theorem matched_seeds (step : TraceStep) {first second : List Seed}
    (hsame : ∀ seed, seed ∈ first ↔ seed ∈ second) {t u : ByteState} (h : Alike t u) :
    Matched ReplayError.SameContext Alike
      ((first.map (.seed step)).foldlM (act L options) t)
      ((second.map (.seed step)).foldlM (act L options) u) := by
  rcases foldlM_seeds L options step first t with
    ⟨t', ht, hfirst⟩ | ⟨cause, ht, source, hsource, e, he⟩
  · rcases foldlM_seeds L options step second u with
      ⟨u', hu, hsecond⟩ | ⟨cause, hu, source, hsource, e, he⟩
    · rw [ht, hu]
      exact .ok (hfirst.alike hsame h hsecond)
    · obtain ⟨move, hmove⟩ := hfirst.resolved source ((hsame source).mpr hsource)
      rw [hmove] at he
      cases he
  · rcases foldlM_seeds L options step second u with
      ⟨u', hu, hsecond⟩ | ⟨cause', hu, -⟩
    · obtain ⟨move, hmove⟩ := hsecond.resolved source ((hsame source).mp hsource)
      rw [hmove] at he
      cases he
    · rw [ht, hu]
      exact .error rfl

theorem matched_act (event : Event) {t u : ByteState} (h : Alike t u) :
    Matched ReplayError.SameContext Alike (event.act L options t) (event.act L options u) := by
  rw [act, act]
  cases event.resolve L options with
  | error e => exact .error rfl
  | ok move => exact .ok (h.act move)

end Event

variable (trace : Trace) (config : ReplayConfig)

theorem Trace.matched_eventsAt (visit : TraceStep × Nat) {first second : List Seed}
    (hsame : ∀ seed, seed ∈ first ↔ seed ∈ second) {t u : ByteState} (h : Alike t u) :
    Matched ReplayError.SameContext Alike
      ((trace.eventsAt { config with seeds := first } visit).foldlM (Event.act L options) t)
      ((trace.eventsAt { config with seeds := second } visit).foldlM
        (Event.act L options) u) := by
  have hfires : ∀ seed, seed ∈ first.filter (trace.fires config visit.2) ↔
      seed ∈ second.filter (trace.fires config visit.2) := by
    intro seed
    rw [List.mem_filter, List.mem_filter, hsame]
  rw [eventsAt_seeds, eventsAt_seeds, List.foldlM_append, List.foldlM_append]
  refine (Event.matched_seeds visit.1 hfires h).bind ?_
  intro t u h
  split
  · rw [List.foldlM_cons, List.foldlM_cons]
    exact (Event.matched_act _ h).bind fun _ _ h => .ok h
  · exact .ok h

theorem Trace.matched_visits (visits : List (TraceStep × Nat)) {first second : List Seed}
    (hsame : ∀ seed, seed ∈ first ↔ seed ∈ second) {t u : ByteState} (h : Alike t u) :
    Matched ReplayError.SameContext Alike
      ((visits.flatMap (trace.eventsAt { config with seeds := first })).foldlM
        (Event.act L options) t)
      ((visits.flatMap (trace.eventsAt { config with seeds := second })).foldlM
        (Event.act L options) u) := by
  induction visits generalizing t u with
  | nil => exact .ok h
  | cons visit visits ih =>
      rw [List.flatMap_cons, List.flatMap_cons, List.foldlM_append, List.foldlM_append]
      exact (trace.matched_eventsAt config visit hsame h).bind fun _ _ h => ih h

theorem Trace.matched_replayBytes {first second : List Seed}
    (hsame : ∀ seed, seed ∈ first ↔ seed ∈ second) :
    Matched ReplayError.SameContext Alike (trace.replayBytes { config with seeds := first })
      (trace.replayBytes { config with seeds := second }) :=
  trace.matched_visits config _ hsame (.refl .clean)

/-- Replays whose seeds are the same, in any order and with any repetitions, make the same
report, or both break off with the same outermost reason. -/
theorem Trace.report_of_same_seeds {first second : List Seed}
    (hsame : ∀ seed, seed ∈ first ↔ seed ∈ second) :
    (trace.report { config with seeds := first }).mapError (·.chain.head?) =
      (trace.report { config with seeds := second }).mapError (·.chain.head?) := by
  have hmatched := trace.matched_replayBytes config hsame
  rcases trace.report_cases { config with seeds := first } with
    ⟨e, hbytes, hreport⟩ | ⟨s, hs, hbytes, hreport⟩
  · rcases trace.report_cases { config with seeds := second } with
      ⟨e', hbytes', hreport'⟩ | ⟨s', hs', hbytes', hreport'⟩
    · rw [hbytes, hbytes'] at hmatched
      cases hmatched with
      | error hcontext =>
          rw [hreport, hreport']
          exact congrArg Except.error hcontext
    · rw [hbytes, hbytes'] at hmatched
      cases hmatched
  · rcases trace.report_cases { config with seeds := second } with
      ⟨e', hbytes', hreport'⟩ | ⟨s', hs', hbytes', hreport'⟩
    · rw [hbytes, hbytes'] at hmatched
      cases hmatched
    · rw [hbytes, hbytes'] at hmatched
      cases hmatched with
      | ok halike =>
          have hsession := Report.ofSession_eq hs hs' halike.bytes (covered_congr halike.ranges)
          rw [hreport, hreport', hsession]
          rfl

/-- A step of `mov [rbx], 0` on four bytes. -/
def wipe : TraceStep where
  instruction :=
    { address := 4100
      mnemonic := "mov"
      operands := [⟨.memory { base := some "rbx" }, 4⟩, ⟨.immediate 0, 4⟩] }
  registers := spill.registers

/-- The range that is cleared was seeded once, or twice and in front of the register. -/
theorem Trace.report_of_same_seeds_wipe :
    (∀ seed : Seed, seed ∈ [⟨none, .register "ax"⟩, ⟨none, .memory 8192 4⟩] ↔
      seed ∈ [⟨none, .memory 8192 4⟩, ⟨none, .memory 8192 4⟩, ⟨none, .register "ax"⟩]) ∧
    (Trace.report ⟨[wipe, spill]⟩ {
        seeds := [⟨none, .register "ax"⟩, ⟨none, .memory 8192 4⟩]
        options := { overwriteOnStore := true } }).mapError (·.chain.head?) =
      (Trace.report ⟨[wipe, spill]⟩ {
        seeds := [⟨none, .memory 8192 4⟩, ⟨none, .memory 8192 4⟩, ⟨none, .register "ax"⟩]
        options := { overwriteOnStore := true } }).mapError (·.chain.head?) := by
  have hsame : ∀ seed : Seed, seed ∈ [⟨none, .register "ax"⟩, ⟨none, .memory 8192 4⟩] ↔
      seed ∈ [⟨none, .memory 8192 4⟩, ⟨none, .memory 8192 4⟩, ⟨none, .register "ax"⟩] := by
    intro seed
    simp [or_comm]
  exact ⟨hsame, Trace.report_of_same_seeds ⟨[wipe, spill]⟩
    { options := { overwriteOnStore := true } } hsame⟩

end TaintFlow
