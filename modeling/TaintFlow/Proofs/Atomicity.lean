import TaintFlow.Proofs.Distribution
import TaintFlow.Proofs.ReplayBytes

/-!
# Refusals change nothing

A computation on taint that fails keeps what it had changed so far, so only the order
of its own steps makes a refusal harmless. Every operation on a session resolves to a
move before it touches the taint, which gives one case distinction for all of them
(`perform_cases`): the operation is refused and the session is the one it began with,
or it succeeds and the session is sound again. The distinction is made on sound
sessions, and those that operations lead to are sound.

The delicate computation is a store that overwrites, since it cuts out the range that
it writes before it adds the taint of the register. Once it is past its checks it does
both: afterwards an address of the range is tainted exactly where the register is.
-/

namespace TaintFlow

open ByteState

variable {L : Layout}

/-! ## Stores -/

/-- The runs of a register cover an address just if it lies in the range of the register
and its byte is tainted. -/
theorem ByteState.covered_runsAt_iff {bytes : Nat → Bool} {src : Slot} {address : UInt64}
    (hfits : address.toNat + src.width < UInt64.size) (x : Nat) :
    Covered (runsAt bytes src address) x ↔
      (address.toNat ≤ x ∧ x < address.toNat + src.width) ∧
        bytes (src.offset + (x - address.toNat)) = true := by
  rw [covered_runsAt hfits]
  constructor
  · rintro ⟨i, hi, hset, rfl⟩
    rw [Nat.add_sub_cancel_left]
    exact ⟨by omega, hset⟩
  · rintro ⟨hin, hset⟩
    exact ⟨x - address.toNat, by omega, hset, by omega⟩

/-- A store settles the addresses of its range and no others. Where it overwrites, only the
register counts there. -/
theorem Move.covered_store (t : ByteState) {src : Slot} {address : UInt64} {range : Interval}
    (hfits : address.toNat + src.width < UInt64.size) (hstart : range.start = address)
    (hstop : range.stop.toNat = address.toNat + src.width) (overwrites : Bool) (x : Nat) :
    Covered ((Move.store src address (if overwrites then some range else none)).act t).ranges x ↔
      if address.toNat ≤ x ∧ x < address.toNat + src.width then
        t.bytes (src.offset + (x - address.toNat)) = true ∨
          overwrites = false ∧ Covered t.ranges x
      else Covered t.ranges x := by
  have hmem : x ∈ range ↔ address.toNat ≤ x ∧ x < address.toNat + src.width := by
    rw [Interval.mem_iff, hstart, hstop]
  have hkept : Covered (cutOut t.ranges (if overwrites then some range else none)) x ↔
      Covered t.ranges x ∧
        (overwrites = true → ¬ (address.toNat ≤ x ∧ x < address.toNat + src.width)) := by
    rw [covered_cutOut]
    cases overwrites <;> simp [hmem]
  rw [act, covered_add, hkept, covered_runsAt_iff hfits]
  split
  · next hin =>
    constructor
    · rintro (⟨hcovered, hout⟩ | ⟨-, hset⟩)
      · exact .inr ⟨by simpa [hin] using hout, hcovered⟩
      · exact .inl hset
    · rintro (hset | ⟨hoff, hcovered⟩)
      · exact .inr ⟨hin, hset⟩
      · exact .inl ⟨hcovered, by simp [hoff]⟩
  · next hout =>
    constructor
    · rintro (⟨hcovered, -⟩ | ⟨hin, -⟩)
      · exact hcovered
      · exact absurd hin hout
    · intro hcovered
      exact .inl ⟨hcovered, fun _ => hout⟩

theorem Move.exists_ofStore (options : PropagationOptions) {src : String} {slot : Slot}
    (hslot : L.slot src = .ok slot) {address : UInt64}
    (hfits : address.toNat + slot.width < UInt64.size) :
    ∃ range : Interval, range.start = address ∧
      range.stop.toNat = address.toNat + slot.width ∧
      Move.ofStore L options address src =
        .ok (.store slot address (if options.overwriteOnStore then some range else none)) := by
  have hpos := (Layout.slot_fits hslot).1
  obtain ⟨range, hrange, hstart, hstop⟩ := Interval.exists_ofSize (by omega) hfits
  refine ⟨range, hstart, hstop, ?_⟩
  rw [Move.ofStore, hslot]
  simp only [bind, Except.bind, hrange]
  rfl

theorem Move.ofStore_overwrite {options : PropagationOptions} {address : UInt64}
    {src : String} {move : Move} (hoption : options.overwriteOnStore = true)
    (h : Move.ofStore L options address src = .ok move) :
    ∃ slot range, L.slot src = .ok slot ∧ move = .store slot address (some range) ∧
      address.toNat + slot.width < UInt64.size ∧ range.start = address ∧
      range.stop.toNat = address.toNat + slot.width := by
  obtain ⟨slot, range, hslot, hrange, -⟩ := exists_of_ofStore h
  have hfits := Interval.fits_of_ofSize hrange
  obtain ⟨whole, hstart, hstop, hmove⟩ := exists_ofStore options hslot hfits
  rw [hmove, if_pos hoption] at h
  cases h
  exact ⟨slot, whole, hslot, rfl, hfits, hstart, hstop⟩

namespace Session

/-- The memory from an address on is tainted as the register is, byte by byte, and nothing
else has changed. -/
structure Overwritten (s after : Session L) (src : Slot) (address : UInt64) : Prop where
  bytes : after.view.bytes = s.view.bytes
  covered : ∀ x, Covered after.view.ranges x ↔
    if address.toNat ≤ x ∧ x < address.toNat + src.width then
      s.view.bytes (src.offset + (x - address.toNat)) = true
    else Covered s.view.ranges x

/-- A store that overwrites is refused as a whole, or replaces the taint of the range by
that of the register. -/
theorem storeRegister_cases {s : Session L} (hs : s.Sound) {options : PropagationOptions}
    (hoption : options.overwriteOnStore = true) (address : UInt64) (src : String) :
    (∃ e, s.run (Propagation.storeRegister options address src) = (.error e, s)) ∨
      ∃ slot after, L.slot src = .ok slot ∧
        s.run (Propagation.storeRegister options address src) = (.ok (), after) ∧
        s.Overwritten after slot address := by
  have h := follows_run hs (realises_store options address src)
  cases hmove : Move.ofStore L options address src with
  | error e =>
      rw [hmove] at h
      exact .inl ⟨e, h⟩
  | ok move =>
      rw [hmove] at h
      obtain ⟨after, houtcome, -, -, hview⟩ := h
      obtain ⟨slot, range, hslot, rfl, hfits, hstart, hstop⟩ :=
        Move.ofStore_overwrite hoption hmove
      refine .inr ⟨slot, after, hslot, houtcome, ?_, ?_⟩
      · rw [hview]
        rfl
      · intro x
        rw [hview]
        exact (Move.covered_store s.view hfits hstart hstop true x).trans (by simp)

/-! ## Operations -/

/-- What can be done to the taint of a session. -/
inductive Operation where
  | call (call : Call)
  /-- A transfer that need not come from an instruction, under options of its own. -/
  | apply (options : PropagationOptions) (context : RegisterContext) (transfer : Transfer)
  | seed (source : Seed) (snapshot : Snapshot)
  | resetRegisters
  | resetMemory

/-- One operation on a session: how it ends, and the session after it. -/
def perform (s : Session L) : Operation → Except SeedError Unit × Session L
  | .call call =>
      let (result, after) := s.call call
      (result.mapError .refused, after)
  | .apply options context transfer =>
      let (result, after) := s.run (Propagation.apply options context transfer)
      (result.mapError .refused, after)
  | .seed source snapshot => source.apply s snapshot
  | .resetRegisters => (.ok (), { s with state := { s.state with registers := .clean } })
  | .resetMemory => (.ok (), { s with state := { s.state with memory := .clean } })

/-- The sessions that operations lead to, refused ones included. -/
inductive Reachable : Session L → Prop where
  | start (options : PropagationOptions) : Reachable (.start L options)
  | perform {s : Session L} (h : s.Reachable) (operation : Operation) :
      Reachable (s.perform operation).2

/-- An outcome that follows a move, with its refusal put into other words. -/
theorem Follows.cases {s : Session L} {outcome : Except Error Unit × Session L}
    {resolved : Except Error Move} (h : s.Follows outcome resolved) {ε : Type}
    (f : Error → ε) :
    (∃ e, (outcome.1.mapError f, outcome.2) = (.error e, s)) ∨
      ∃ after : Session L, (outcome.1.mapError f, outcome.2) = (.ok (), after) ∧
        after.Sound := by
  cases resolved with
  | error e =>
      rw [show outcome = (.error e, s) from h]
      exact .inl ⟨f e, rfl⟩
  | ok move =>
      obtain ⟨after, houtcome, hsound, -⟩ := h
      rw [houtcome]
      exact .inr ⟨after, rfl, hsound⟩

theorem perform_cases {s : Session L} (hs : s.Sound) (operation : Operation) :
    (∃ e, s.perform operation = (.error e, s)) ∨
      ∃ after : Session L, s.perform operation = (.ok (), after) ∧ after.Sound := by
  cases operation with
  | call call => exact (follows_call hs call).cases SeedError.refused
  | apply options context transfer =>
      exact (follows_run hs (realises_apply options context transfer)).cases SeedError.refused
  | seed source snapshot =>
      -- a seed is the call that it makes, unless it finds no address to make one with
      rw [perform, Seed.apply_eq]
      cases source.call snapshot with
      | error cause => exact .inl ⟨cause, rfl⟩
      | ok call => exact (follows_call hs call).cases SeedError.refused
  | resetRegisters => exact .inr ⟨_, rfl, hs⟩
  | resetMemory => exact .inr ⟨_, rfl, IntervalSet.sound_empty⟩

theorem Reachable.sound {s : Session L} (h : s.Reachable) : s.Sound := by
  induction h with
  | start options => exact sound_start L options
  | perform _ operation ih =>
      rcases perform_cases ih operation with ⟨e, houtcome⟩ | ⟨after, houtcome, hsound⟩
      · rw [houtcome]
        exact ih
      · rw [houtcome]
        exact hsound

/-- On every session that operations lead to, an operation that is refused leaves the
session as it was. A store that overwrites is refused as a whole, or it has replaced the
taint of the whole range by that of the register. -/
theorem Reachable.refusal_changes_nothing {s : Session L} (h : s.Reachable) :
    (∀ operation e, (s.perform operation).1 = .error e → (s.perform operation).2 = s) ∧
    ∀ (options : PropagationOptions) (address : UInt64) (src : String),
      options.overwriteOnStore = true →
      (∃ e, s.run (Propagation.storeRegister options address src) = (.error e, s)) ∨
        ∃ slot after, L.slot src = .ok slot ∧
          s.run (Propagation.storeRegister options address src) = (.ok (), after) ∧
          s.Overwritten after slot address := by
  refine ⟨?_, fun options address src hoption =>
    storeRegister_cases h.sound hoption address src⟩
  intro operation e herror
  rcases perform_cases h.sound operation with ⟨e', houtcome⟩ | ⟨after, houtcome, -⟩
  · rw [houtcome]
  · rw [houtcome] at herror
    cases herror

/-- A session in which `ax` is tainted. -/
def marked : Session Layout.amd64 :=
  ((start Layout.amd64 {}).perform (.call (.taintRegister "ax"))).2

/-- The tainted register is to be stored where a register without a value points to. -/
theorem Reachable.refusal_changes_nothing_marked :
    marked.Reachable ∧
      (marked.perform (.apply { overwriteOnStore := true } (fun _ => none)
        (.store { base := some "rbx" } "ax"))).1 =
          .error (.refused (.missingRegisterValue "rbx")) ∧
      (marked.perform (.apply { overwriteOnStore := true } (fun _ => none)
        (.store { base := some "rbx" } "ax"))).2 = marked := by
  have hmarked : marked.Reachable := .perform (.start {}) _
  have herror : (marked.perform (.apply { overwriteOnStore := true } (fun _ => none)
      (.store { base := some "rbx" } "ax"))).1 =
        .error (.refused (.missingRegisterValue "rbx")) := rfl
  exact ⟨hmarked, herror, (Reachable.refusal_changes_nothing hmarked).1 _ _ herror⟩

end Session

end TaintFlow
