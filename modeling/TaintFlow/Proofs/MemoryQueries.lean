import TaintFlow.Proofs.Merged
import TaintFlow.Proofs.Queries

/-!
# What memory answers about a range

Memory is asked about a range in four ways: for a pattern with a flag for every address,
whether some address is tainted, whether the range is tainted as one piece, and for the
merged view of everything. The four answers are computed along four different ways through
the collection, and `Consistent` says that they are one picture.

Three of them depend on nothing but the covered addresses, and meet there. The pattern is
painted from the clipped intervals, the early exit of `isTainted` finds an interval that
shares an address with the range, and the merged view covers what the collection covers.
The fourth, `isFullyTainted`, looks at what is stored: the range has to be there exactly
once, and nothing else may overlap it.

The changes of a memory are those of its collection, so every memory that requests lead to
holds a collection with a history, which is sound.
-/

namespace TaintFlow

open ByteState

/-- To overlap one of some intervals is to share an address with one. -/
theorem Interval.exists_overlaps_iff {p : Interval → Prop} {query : Interval} :
    (∃ x, p x ∧ x.overlaps query = true) ↔ ∃ n ∈ query, ∃ x, p x ∧ n ∈ x := by
  simp only [overlaps_iff_exists_mem]
  constructor
  · rintro ⟨x, hx, n, hnx, hn⟩
    exact ⟨n, hn, x, hx, hnx⟩
  · rintro ⟨n, hn, x, hx, hnx⟩
    exact ⟨x, hx, n, hnx, hn⟩

namespace IntervalSet

/-- The query is stored once, and nothing else overlaps it. -/
theorem Sound.overlapping_eq_singleton_iff {s : IntervalSet} (h : s.Sound) {query : Interval} :
    s.overlapping query = [query] ↔
      s.stored.count query = 1 ∧ ∀ x ∈ s.stored, x.overlaps query = true → x = query := by
  have hself : query.overlaps query = true :=
    Interval.overlaps_iff.mpr ⟨query.toNat_start_lt, query.toNat_start_lt⟩
  rw [← Multiset.coe_eq_singleton, h.overlapping_eq]
  constructor
  · intro heq
    refine ⟨?_, fun x hx hover => ?_⟩
    · rw [← Multiset.count_filter_of_pos (p := fun x => x.overlaps query = true) hself, heq,
        Multiset.count_singleton_self]
    · have hmem : x ∈ s.stored.filter fun x => x.overlaps query = true :=
        Multiset.mem_filter.mpr ⟨hx, hover⟩
      rw [heq] at hmem
      exact Multiset.mem_singleton.mp hmem
  · rintro ⟨hcount, honly⟩
    ext x
    rw [Multiset.count_filter, Multiset.count_singleton]
    by_cases hx : x = query
    · rw [hx, if_pos hself, if_pos rfl, hcount]
    · rw [if_neg hx]
      split
      · next hover => exact Multiset.count_eq_zero.mpr fun hmem => hx (honly x hmem hover)
      · rfl

theorem ofHistory_append (changes more : List Change) :
    ofHistory (changes ++ more) =
      more.foldl (fun s change => change.apply s) (ofHistory changes) :=
  List.foldl_append

end IntervalSet

namespace MemoryTaint

/-! ## Requests -/

/-- A change that a caller asks for. -/
inductive Request where
  | taint (address : UInt64) (size : Nat)
  | untaint (address : UInt64) (size : Nat)
  | clear (address : UInt64) (size : Nat)
  | addAll (ranges : List Interval)
  | reset

def request : Request → Mutation MemoryTaint Unit
  | .taint address size => taint address size
  | .untaint address size => untaint address size
  | .clear address size => clear address size
  | .addAll ranges => modify (·.addAll ranges)
  | .reset => set clean

/-- The memories that requests lead to, refused ones included. -/
inductive Reachable : MemoryTaint → Prop where
  | clean : Reachable .clean
  | request {m : MemoryTaint} (h : m.Reachable) (asked : Request) :
      Reachable ((request asked).run m).2

theorem update_cases (m : MemoryTaint) (address : UInt64) (size : Nat)
    (change : IntervalSet → Interval → IntervalSet) :
    ((update address size change).run m).2 = m ∨
      ∃ range, ((update address size change).run m).2 = ⟨change m.ranges range⟩ := by
  cases hrange : Interval.ofSize address size with
  | error e =>
      rw [update, Mutation.run_bind_of_error hrange]
      exact .inl rfl
  | ok range =>
      rw [update, Mutation.run_bind_of_ok hrange]
      cases range with
      | none => exact .inl rfl
      | some range => exact .inr ⟨range, rfl⟩

/-- A request changes the collection as some changes do. -/
theorem exists_changes_of_request (m : MemoryTaint) (asked : Request) :
    ∃ changes : List IntervalSet.Change, ((request asked).run m).2.ranges =
      changes.foldl (fun s change => change.apply s) m.ranges := by
  cases asked with
  | taint address size =>
      rcases m.update_cases address size .add with h | ⟨range, h⟩
      · exact ⟨[], congrArg ranges h⟩
      · exact ⟨[.add range], congrArg ranges h⟩
  | untaint address size =>
      rcases m.update_cases address size .erase with h | ⟨range, h⟩
      · exact ⟨[], congrArg ranges h⟩
      · exact ⟨[.remove range], (congrArg ranges h).trans
          (IntervalSet.getD_remove? m.ranges range).symm⟩
  | clear address size =>
      rcases m.update_cases address size .subtract with h | ⟨range, h⟩
      · exact ⟨[], congrArg ranges h⟩
      · exact ⟨[.subtract range], congrArg ranges h⟩
  | addAll added =>
      refine ⟨added.map .add, ?_⟩
      rw [List.foldl_map]
      rfl
  | reset => exact ⟨[.clear], rfl⟩

theorem Reachable.exists_history {m : MemoryTaint} (h : m.Reachable) :
    ∃ changes, m.ranges = IntervalSet.ofHistory changes := by
  induction h with
  | clean => exact ⟨[], rfl⟩
  | @request m _ asked ih =>
      obtain ⟨changes, hm⟩ := ih
      obtain ⟨more, hmore⟩ := m.exists_changes_of_request asked
      exact ⟨changes ++ more, by rw [hmore, hm, IntervalSet.ofHistory_append]⟩

theorem Reachable.sound {m : MemoryTaint} (h : m.Reachable) : m.ranges.Sound := by
  obtain ⟨changes, hm⟩ := h.exists_history
  rw [hm]
  exact IntervalSet.sound_ofHistory changes

/-! ## Answers -/

section

variable (m : MemoryTaint) {address : UInt64} {size : Nat} {range : Interval}

theorem isTainted_eq (h : Interval.ofSize address size = .ok (some range)) :
    m.isTainted address size = .ok (m.ranges.intersects range) := by
  rw [isTainted, h]
  rfl

theorem isFullyTainted_eq (h : Interval.ofSize address size = .ok (some range)) :
    m.isFullyTainted address size = .ok (decide (m.ranges.overlapping range = [range])) := by
  rw [isFullyTainted, h]
  simp only [bind, Except.bind]
  cases m.ranges.overlapping range with
  | nil => rfl
  | cons first rest =>
      cases rest with
      | nil => simp [pure, Except.pure, beq_eq_decide]
      | cons second rest => simp [pure, Except.pure]

theorem isTainted_of_not_fits (h : ¬ address.toNat + size < UInt64.size) :
    m.isTainted address size = .error (.addressOverflow address size) := by
  rw [isTainted, Interval.ofSize_of_not_fits h]
  rfl

theorem isFullyTainted_of_not_fits (h : ¬ address.toNat + size < UInt64.size) :
    m.isFullyTainted address size = .error (.addressOverflow address size) := by
  rw [isFullyTainted, Interval.ofSize_of_not_fits h]
  rfl

end

/-- The answers about a range and the merged view show the same taint. -/
structure Consistent (m : MemoryTaint) (range : Interval) (flags : List Bool)
    (tainted full : Bool) : Prop where
  length_flags : flags.length = range.size.toNat
  flag_iff : ∀ j (hj : j < flags.length),
    flags[j] = true ↔ ∃ r ∈ m.merged, range.start.toNat + j ∈ r
  tainted_iff_flag : tainted = true ↔ true ∈ flags
  tainted_iff_merged : tainted = true ↔ ∃ r ∈ m.merged, r.overlaps range = true
  full_iff : full = true ↔ m.ranges.stored.count range = 1 ∧
    ∀ x ∈ m.ranges.stored, x.overlaps range = true → x = range
  flag_of_full : full = true → ∀ flag ∈ flags, flag = true

theorem consistent_of_sound {m : MemoryTaint} (h : m.ranges.Sound) (range : Interval)
    {flags : List Bool} (hflags : flags = (List.range range.size.toNat).map fun j =>
      decide (Covered m.ranges.stored (range.start.toNat + j))) :
    m.Consistent range flags (m.ranges.intersects range)
      (decide (m.ranges.overlapping range = [range])) := by
  have hlength : flags.length = range.size.toNat := by simp [hflags]
  have hsize := range.toNat_size
  have hlt := range.toNat_start_lt
  have hflag : ∀ j (hj : j < flags.length),
      flags[j] = true ↔ Covered m.ranges.stored (range.start.toNat + j) := by
    intro j hj
    simp [hflags]
  have htainted : m.ranges.intersects range = true ↔
      ∃ n ∈ range, Covered m.ranges.stored n :=
    h.intersects_iff.trans Interval.exists_overlaps_iff
  refine ⟨hlength, fun j hj => ?_, ?_, ?_, ?_, fun hfull flag hmem => ?_⟩
  · rw [hflag, ← h.exists_mem_merged]
    rfl
  · rw [htainted, List.mem_iff_getElem]
    constructor
    · rintro ⟨n, hn, hcovered⟩
      rw [Interval.mem_iff] at hn
      refine ⟨n - range.start.toNat, by omega, ?_⟩
      rwa [hflag, Nat.add_sub_cancel' hn.1]
    · rintro ⟨j, hj, hset⟩
      refine ⟨range.start.toNat + j, ?_, (hflag j hj).mp hset⟩
      rw [Interval.mem_iff]
      omega
  · rw [htainted]
    refine Iff.trans ?_ Interval.exists_overlaps_iff.symm
    simp only [← h.exists_mem_merged]
    rfl
  · rw [decide_eq_true_iff, h.overlapping_eq_singleton_iff]
  · -- the range is stored, so each of its addresses is covered
    rw [decide_eq_true_iff, h.overlapping_eq_singleton_iff] at hfull
    have hstored : range ∈ m.ranges.stored := Multiset.count_pos.mp (by omega)
    obtain ⟨j, hj, rfl⟩ := List.mem_iff_getElem.mp hmem
    rw [hflag]
    refine ⟨range, hstored, ?_⟩
    rw [Interval.mem_iff]
    omega

/-- A memory that requests lead to gives one picture of every range that has an address
and ends in the address space. Of an empty range nothing is tainted, and a range that
does not end in the address space is refused, whatever is asked about it. -/
theorem Reachable.queries_consistent {m : MemoryTaint} (h : m.Reachable) (address : UInt64)
    (size : Nat) :
    (0 < size → address.toNat + size < UInt64.size → ∃ range flags tainted full,
      range.start = address ∧ range.stop.toNat = address.toNat + size ∧
        m.pattern address size = .ok flags ∧ m.isTainted address size = .ok tainted ∧
        m.isFullyTainted address size = .ok full ∧
        m.Consistent range flags tainted full) ∧
      (m.pattern address 0 = .ok [] ∧ m.isTainted address 0 = .ok false ∧
        m.isFullyTainted address 0 = .ok false) ∧
      (UInt64.size ≤ address.toNat + size →
        m.pattern address size = .error (.addressOverflow address size) ∧
          m.isTainted address size = .error (.addressOverflow address size) ∧
          m.isFullyTainted address size = .error (.addressOverflow address size)) := by
  refine ⟨fun hpos hfits => ?_, ⟨rfl, rfl, rfl⟩, fun hover => ?_⟩
  · obtain ⟨range, hrange, hstart, hstop⟩ :=
      Interval.exists_ofSize (Nat.pos_iff_ne_zero.mp hpos) hfits
    have hsize : range.size.toNat = size := by
      rw [range.toNat_size, hstop, hstart]
      omega
    refine ⟨range, _, _, _, hstart, hstop, pattern_eq_ok h.sound hfits,
      m.isTainted_eq hrange, m.isFullyTainted_eq hrange,
      consistent_of_sound h.sound range ?_⟩
    rw [hsize, hstart]
  · have hnot : ¬ address.toNat + size < UInt64.size := Nat.not_lt.mpr hover
    exact ⟨m.pattern_of_not_fits hnot, m.isTainted_of_not_fits hnot,
      m.isFullyTainted_of_not_fits hnot⟩

/-- Eight addresses and the four behind them, as they come from two requests. -/
def touching : MemoryTaint :=
  ⟨IntervalSet.ofHistory [.add ⟨8192, 8200, by decide⟩, .add ⟨8200, 8204, by decide⟩]⟩

/-- The two ranges taint all of what they cover together, and not as one piece. -/
theorem Reachable.queries_consistent_touching :
    touching.Reachable ∧ (0 < 12 ∧ (8192 : UInt64).toNat + 12 < UInt64.size) ∧
      touching.isFullyTainted 8192 12 = .ok false ∧
      ∃ range flags tainted full, range.start = 8192 ∧ range.stop.toNat = 8204 ∧
        touching.pattern 8192 12 = .ok flags ∧ touching.isTainted 8192 12 = .ok tainted ∧
        touching.isFullyTainted 8192 12 = .ok full ∧
        touching.Consistent range flags tainted full := by
  have hreachable : touching.Reachable :=
    .request (.request .clean (.taint 8192 8)) (.taint 8200 4)
  have hbounds : 0 < 12 ∧ (8192 : UInt64).toNat + 12 < UInt64.size := by decide
  exact ⟨hreachable, hbounds, by decide,
    (Reachable.queries_consistent hreachable 8192 12).1 hbounds.1 hbounds.2⟩

end MemoryTaint

end TaintFlow
