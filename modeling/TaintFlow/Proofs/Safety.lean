import TaintFlow.Proofs.Faults
import TaintFlow.Proofs.LinkedHistory
import TaintFlow.Replay.Report

/-!
# Nothing goes wrong underneath

Whatever is done to a session and its parts, an operation ends with a value or with a
refusal that its caller can understand. Nothing that the code takes for granted fails on
the way: flags and slots that are accessed exist, ends of intervals lie behind their
starts, and sums and differences of addresses, offsets and counts do not leave their range.

Each part rests on something else. Links stay inside the storage because the storage
represents a collection whose slots are handed out once (`LinkedSet.Represents.safe`): an
operation that follows its links ends, and looks at no slot that was never opened. Offsets
of registers are bounded by the layout, which has to fit into a word together with the spare
flags, and a bitmap is read only as far as its length was checked. Addresses are computed
only for a range that was checked to end in the address space, and what is painted was
clipped to it.
-/

namespace TaintFlow

open ByteState

variable {L : Layout}

/-! ## Collections -/

namespace LinkedSet

/-- The links of the storage lead to slots that are there, and so every operation that
follows them has a result. -/
structure Safe (a : LinkedSet) : Prop where
  wellLinked : a.WellLinked
  walkable : a.Walkable
  link_lt : ∀ slot node link, a.Used slot → a.nodes[slot]? = some node →
    node.parent = some link ∨ node.left = some link ∨ node.right = some link →
      link < a.nodes.size
  add : ∀ x, ∃ after, a.add x = some after
  removeOne : ∀ x, ∃ after, a.removeOne x = some after
  overlapping : ∀ query, ∃ found, a.overlapping query = some found
  toList : ∃ listed, a.toList = some listed
  height : ∃ height, a.height = some height

theorem Used.child {a : LinkedSet} {slot link : Nat} {node : LinkedNode} (h : a.Used slot)
    (hnode : a.nodes[slot]? = some node) {side : Side}
    (hlink : node.child side = some link) : a.Used link := by
  obtain ⟨path, hpath⟩ := h
  refine ⟨path ++ [side], ?_⟩
  rw [slotAt] at hpath ⊢
  rw [follow_append_side, hpath]
  simp [childAt, hnode, hlink]

theorem WellLinked.link_lt {a : LinkedSet} (h : a.WellLinked) {slot link : Nat}
    {node : LinkedNode} (hused : a.Used slot) (hnode : a.nodes[slot]? = some node)
    (hlink : node.parent = some link ∨ node.left = some link ∨ node.right = some link) :
    link < a.nodes.size := by
  refine h.used_lt link ?_
  rcases hlink with hparent | hleft | hright
  · exact ((h.parent_iff slot link node hused hnode).mp hparent).1
  · exact hused.child hnode (show node.child .left = some link from hleft)
  · exact hused.child hnode (show node.child .right = some link from hright)

theorem Represents.safe {a : LinkedSet} {s : IntervalSet} (h : a.Represents s)
    (hs : s.Stepwise) : a.Safe where
  wellLinked := h.wellLinked hs.housed hs.sound
  walkable := h.walkable hs.housed
  link_lt _ _ _ := (h.wellLinked hs.housed hs.sound).link_lt
  add x := by
    obtain ⟨-, after, hadd, -⟩ := h.exists_add hs.housed x
    exact ⟨after, hadd⟩
  removeOne x := by
    rcases h.exists_removeOne hs.housed x with ⟨-, hmissed⟩ | ⟨after, -, -, hremoved, -⟩
    · exact ⟨none, hmissed⟩
    · exact ⟨some after, hremoved⟩
  overlapping query := ⟨_, h.overlapping_eq hs.housed query⟩
  toList := ⟨_, h.toList_eq hs.housed⟩
  height := ⟨_, h.height_eq hs.housed⟩

end LinkedSet

/-- The storage was safe at every step that a history took since it was last cleared. -/
theorem Timeline.exists_safe (changes : List IntervalSet.Change) :
    ∃ line, Timeline.ofHistory changes = some line ∧
      line.present.Represents (.ofHistory changes) ∧ ∀ a ∈ line.states, a.Safe := by
  obtain ⟨line, hline, htracks⟩ := Timeline.exists_tracks changes
  refine ⟨line, hline, htracks.represents, fun a ha => ?_⟩
  obtain ⟨s, hs, hrepresents⟩ := htracks.exists_represents a ha
  exact hrepresents.safe hs

namespace IntervalSet

/-- The storage and the numbers of a collection are in order. -/
structure Safe (s : IntervalSet) : Prop where
  stored : ∃ a : LinkedSet, a.Represents s ∧ a.Safe
  /-- The counter is bounded by the length of the storage. -/
  size_le : s.size ≤ s.slots
  height_le : s.height ≤ s.size
  /-- A removal takes one off a counter that is not zero. -/
  size_removeOne? : ∀ x t, s.removeOne? x = some t → t.size + 1 = s.size
  clipped : ∀ query, ∀ p ∈ s.intersection query, query.start ≤ p.start ∧ p.stop ≤ query.stop
  /-- Only the last address has no successor, and no query is made for it. -/
  contains_eq : ∀ point : UInt64, point ≠ 0xffffffffffffffff →
    ∃ h : point < point + 1, s.contains point = s.intersects ⟨point, point + 1, h⟩

theorem Stepwise.exists_represents {s : IntervalSet} (h : s.Stepwise) :
    ∃ a : LinkedSet, a.Represents s := by
  induction h with
  | empty => exact ⟨{}, LinkedSet.represents_empty⟩
  | add h x ih =>
      obtain ⟨a, ha⟩ := ih
      obtain ⟨-, after, -, hafter⟩ := ha.exists_add h.housed x
      exact ⟨after, hafter⟩
  | @removeOne s t h x ht ih =>
      obtain ⟨a, ha⟩ := ih
      rcases ha.exists_removeOne h.housed x with ⟨hnone, -⟩ | ⟨after, t', ht', -, hafter⟩
      · rw [ht] at hnone
        cases hnone
      · rw [ht] at ht'
        cases ht'
        exact ⟨after, hafter⟩

theorem Stepwise.safe {s : IntervalSet} (h : s.Stepwise) : s.Safe where
  stored := by
    obtain ⟨a, ha⟩ := h.exists_represents
    exact ⟨a, ha, ha.safe h⟩
  size_le := by
    have hsize := h.sound.size_eq
    have hcount := h.housed.count_add_length_free
    omega
  height_le := h.sound.height_le_size
  size_removeOne? x t ht := by
    have hsize := h.sound.size_eq
    obtain ⟨⟨freed, rest⟩, htree, rfl⟩ := Option.map_eq_some_iff.mp ht
    have hremoved := IntervalTree.count_removeOne? htree
    show s.size - 1 + 1 = s.size
    omega
  clipped query p hp := by
    obtain ⟨hstart, hstop⟩ := bounds_of_mem_intersection hp
    exact ⟨UInt64.le_iff_toNat_le.mpr hstart, UInt64.le_iff_toNat_le.mpr hstop⟩
  contains_eq point hpoint := ⟨Interval.lt_succ_of_ne_last hpoint, dif_pos hpoint⟩

end IntervalSet

/-! ## Registers -/

namespace RegisterTaint

/-- Nothing that is asked of a register file reaches past its flags, and no number that
is computed for it leaves a word. -/
structure Safe (t : RegisterTaint L) : Prop where
  pattern : ∀ register, Avoids Error.isFault (t.pattern register)
  isTainted : ∀ register, Avoids Error.isFault (t.isTainted register)
  isFullyTainted : ∀ register, Avoids Error.isFault (t.isFullyTainted register)
  intervals : ∀ register base, Avoids Error.isFault (t.intervals register base)
  /-- A bitmap to be loaded may have any length. -/
  request : ∀ asked, Avoids Error.isFault ((RegisterTaint.request asked).run t).1
  /-- Every register of the layout can be listed. -/
  read : ∀ entry ∈ L.registers.entries, ∃ pattern, t.read entry.2 = .ok pattern
  stop_lt : ∀ entry ∈ L.registers.entries, entry.2.stop < UInt64.size
  /-- The addresses of the bytes of a register are those from the base on. -/
  placed : ∀ register base ranges, t.intervals register base = .ok ranges →
    ∃ slot, L.slot register = .ok slot ∧ base.toNat + slot.width < UInt64.size ∧
      ∀ p ∈ ranges, base.toNat ≤ p.start.toNat ∧ p.stop.toNat ≤ base.toNat + slot.width
  /-- A pattern fits into the bit set that a report makes of it. -/
  packed : ∀ register pattern, t.pattern register = .ok pattern →
    (BitSet.empty : BitSet pattern.length).overwrite 0 pattern = .ok (.ofList pattern)
  count_le : t.count ≤ L.contextSize

theorem placed_of_intervals {t : RegisterTaint L} {register : String} {base : UInt64}
    {ranges : List Interval} (h : t.intervals register base = .ok ranges) :
    ∃ slot, L.slot register = .ok slot ∧ base.toNat + slot.width < UInt64.size ∧
      ∀ p ∈ ranges, base.toNat ≤ p.start.toNat ∧
        p.stop.toNat ≤ base.toNat + slot.width := by
  cases hslot : L.slot register with
  | error e =>
      rw [t.intervals_of_unknown hslot] at h
      cases h
  | ok slot =>
      by_cases hfits : base.toNat + slot.width < UInt64.size
      · refine ⟨slot, rfl, hfits, fun p hp => Interval.bounds_of_forall_mem fun x hx => ?_⟩
        obtain ⟨found, hfound, hruns⟩ := t.intervals_eq_ok hslot hfits
        rw [hfound] at h
        cases h
        have hcovered : Covered (runsAt t.flags.test slot base) x :=
          ⟨p, hruns ▸ Multiset.mem_coe.mpr hp, hx⟩
        obtain ⟨i, hi, -, rfl⟩ := (covered_runsAt hfits).mp hcovered
        omega
      · rw [t.intervals_of_not_fits hslot hfits] at h
        cases h

theorem Reachable.safe {t : RegisterTaint L} (h : t.Reachable)
    (hroom : L.contextSize + spareFlags < UInt64.size) : t.Safe where
  pattern := t.pattern_avoids
  isTainted := t.isTainted_avoids
  isFullyTainted := t.isFullyTainted_avoids
  intervals := t.intervals_avoids
  request := t.request_avoids
  read entry hentry := ⟨_, t.read_of_le entry.2 (L.wellFormed.slots_fit entry hentry).2⟩
  stop_lt entry hentry := by
    have hstop := (L.wellFormed.slots_fit entry hentry).2
    omega
  placed _ _ _ := placed_of_intervals
  packed _ pattern _ := BitSet.overwrite_of_le _ (Nat.le_of_eq (Nat.zero_add _))
  count_le := by
    rw [h.count_eq]
    exact List.countP_le_length.trans (Nat.le_of_eq List.length_range)

end RegisterTaint

/-! ## Memory -/

namespace MemoryTaint

/-- Nothing that is asked of memory fails but for the end of the address space, and what
is painted into a bitmap lies between its first flag and its last. -/
structure Safe (m : MemoryTaint) : Prop where
  isTainted : ∀ address size, Avoids Error.isFault (m.isTainted address size)
  isFullyTainted : ∀ address size, Avoids Error.isFault (m.isFullyTainted address size)
  bitmap : ∀ address size, Avoids Error.isFault (m.bitmap address size)
  request : ∀ asked, Avoids Error.isFault ((MemoryTaint.request asked).run m).1
  painted : ∀ address size range, Interval.ofSize address size = .ok (some range) →
    ∀ p ∈ m.ranges.intersection range, address.toNat ≤ p.start.toNat ∧
      p.stop.toNat - address.toNat ≤ size
  /-- The storage of the collection is that of some history. -/
  history : ∃ changes, m.ranges = .ofHistory changes

theorem Reachable.safe {m : MemoryTaint} (h : m.Reachable) : m.Safe where
  isTainted := m.isTainted_avoids
  isFullyTainted := m.isFullyTainted_avoids
  bitmap := m.bitmap_avoids
  request := m.request_avoids
  painted address size range hrange p hp := by
    obtain ⟨hstart, hstop⟩ := Interval.bounds_of_ofSize hrange
    have hclip := IntervalSet.bounds_of_mem_intersection hp
    rw [hstart, hstop] at hclip
    omega
  history := h.exists_history

end MemoryTaint

/-! ## Replays -/

/-- A replay ends without a fault, in a session that operations lead to. -/
theorem Trace.replay_tame (trace : Trace) (config : ReplayConfig) :
    Avoids ReplayError.isFault (trace.replay config) ∧
      ∀ replay, trace.replay config = .ok replay →
        replay.session.Reachable ∧ replay.stats = trace.finalStats config := by
  have htame := Event.foldlM_perform_tame (L := config.architecture.layout)
    (trace.schedule config) (.start config.options)
  rcases trace.replay_cases config with
    ⟨e, hfold, hreplay⟩ | ⟨replay, hfold, hreplay, hstats⟩
  · rw [hfold] at htame
    rw [hreplay]
    refine ⟨.error (htame.1 e rfl), ?_⟩
    intro replay h
    cases h
  · rw [hreplay]
    refine ⟨.ok replay, ?_⟩
    intro found h
    cases h
    exact ⟨htame.2 _ hfold, hstats⟩

/-- Every instruction of a trace is counted at most once. -/
theorem Trace.finalStats_le (trace : Trace) (config : ReplayConfig) :
    (trace.finalStats config).propagated ≤ (trace.finalStats config).replayed ∧
      (trace.finalStats config).replayed ≤ trace.steps.length := by
  have hstop := trace.trackingStop_le config
  have hcount : (trace.finalStats config).propagated ≤ (trace.tracked config).length :=
    List.countP_le_length
  have hlength : (trace.tracked config).length = (trace.finalStats config).replayed := by
    rw [tracked, List.length_drop, List.length_take, Nat.min_eq_left hstop]
    rfl
  have hreplayed : (trace.finalStats config).replayed ≤ trace.trackingStop config :=
    Nat.sub_le _ _
  omega

/-! ## Everything together -/

/-- On a layout that fits into a word together with the spare flags, no collection, register
file, memory or session that operations lead to meets a fault, and neither does a
replay. -/
theorem Layout.never_faults (L : Layout) (hroom : L.contextSize + spareFlags < UInt64.size) :
    (∀ changes, (IntervalSet.ofHistory changes).Stepwise ∧
        ∃ line, Timeline.ofHistory changes = some line ∧
          line.present.Represents (.ofHistory changes) ∧ ∀ a ∈ line.states, a.Safe) ∧
      (∀ s : IntervalSet, s.Stepwise → s.Safe) ∧
      (∀ t : RegisterTaint L, t.Reachable → t.Safe) ∧
      (∀ m : MemoryTaint, m.Reachable → m.Safe) ∧
      (∀ s : Session L, s.Reachable → s.state.Reachable ∧
        ∀ operation, Avoids SeedError.isFault (s.perform operation).1) ∧
      ∀ (trace : Trace) (config : ReplayConfig),
        Avoids ReplayError.isFault (trace.report config) ∧
          ∀ replay, trace.replay config = .ok replay → replay.session.Reachable ∧
            replay.stats.propagated ≤ replay.stats.replayed ∧
              replay.stats.replayed ≤ trace.steps.length := by
  refine ⟨fun changes => ⟨IntervalSet.stepwise_ofHistory changes, Timeline.exists_safe changes⟩,
    fun s h => h.safe, fun t h => h.safe hroom,
    fun m h => h.safe, fun s h => ⟨h.state, fun operation =>
      (Session.perform_tame h.state operation).1⟩, fun trace config => ⟨?_, ?_⟩⟩
  · exact (trace.replay_tame config).1.bind fun replay _ => .ok _
  · intro replay hreplay
    obtain ⟨hreachable, hstats⟩ := (trace.replay_tame config).2 replay hreplay
    rw [hstats]
    exact ⟨hreachable, trace.finalStats_le config⟩

/-- The layout of x86-64 fits, and its registers can be tainted. -/
theorem Layout.never_faults_amd64 :
    Layout.amd64.contextSize + spareFlags < UInt64.size ∧ Session.marked.Reachable ∧
      Session.marked.state.registers.Safe ∧ Session.marked.state.memory.Safe ∧
      Avoids SeedError.isFault
        (Session.marked.perform (.call (.importRanges [⟨8192, 8200, by decide⟩]))).1 := by
  have hroom : Layout.amd64.contextSize + spareFlags < UInt64.size := by
    show 920 + 32 < UInt64.size
    decide
  have hmarked : Session.marked.Reachable := .perform (.start {}) _
  obtain ⟨-, -, hregisters, hmemory, hsession, -⟩ := Layout.never_faults .amd64 hroom
  obtain ⟨hstate, hperform⟩ := hsession _ hmarked
  exact ⟨hroom, hmarked, hregisters _ hstate.registers, hmemory _ hstate.memory, hperform _⟩

end TaintFlow
