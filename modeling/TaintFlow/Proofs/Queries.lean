import TaintFlow.Proofs.Coverage

/-!
# Queries are scans

A query walks the tree and skips what the records and the search order allow it to
skip. To a caller none of that shows. On a sound collection `overlapping` is the
list of everything stored, from the root downwards, filtered by one test, and the
other queries are read off that list: `intersection` clips its members,
`intersects` asks whether it has any, and `contains` asks the same of a query that
holds a single address. The last address of the space is in no interval, so there
is no such query for it and nothing to be found.
-/

namespace TaintFlow

namespace Interval

theorem exists_intersect {a b : Interval} (h : a.overlaps b = true) :
    ∃ p, a.intersect b = some p ∧ p.start = max a.start b.start ∧
      p.stop = min a.stop b.stop := by
  have ha := a.toNat_start_lt
  have hb := b.toNat_start_lt
  have hlt : max a.start b.start < min a.stop b.stop := by
    rw [overlaps_iff] at h
    rw [UInt64.lt_iff_toNat_lt, toNat_max, toNat_min]
    omega
  exact ⟨⟨_, _, hlt⟩, dif_pos hlt, rfl, rfl⟩

/-- To overlap the query for one address is to contain the address. -/
theorem overlaps_single_iff {a : Interval} {point : UInt64} (h : point < point + 1) :
    a.overlaps ⟨point, point + 1, h⟩ = true ↔ a.contains point = true := by
  rw [overlaps_iff_exists_mem, contains_iff]
  have hnext : (point + 1).toNat = point.toNat + 1 := by
    rw [UInt64.lt_iff_toNat_lt, UInt64.toNat_add] at h
    rw [UInt64.toNat_add]
    simp at h ⊢
    omega
  constructor
  · rintro ⟨x, hxa, hx⟩
    rw [mem_iff, hnext] at hx
    have heq : x = point.toNat := by
      dsimp only at hx
      omega
    rwa [← heq]
  · intro hpoint
    refine ⟨point.toNat, hpoint, ?_⟩
    rw [mem_iff, hnext]
    dsimp only
    omega

/-- An end is exclusive, so no interval holds the last address. -/
theorem ne_last_of_contains {a : Interval} {point : UInt64} (h : a.contains point = true) :
    point ≠ 0xffffffffffffffff := by
  rintro rfl
  rw [contains_iff, mem_iff] at h
  have hstop : a.stop.toNat < UInt64.size := a.stop.toNat_lt
  exact absurd (Nat.lt_of_le_of_lt (Nat.succ_le_of_lt h.2) hstop) (by decide)

end Interval

namespace IntervalSet

/-- What is stored, from the root of the tree downwards. -/
theorem coe_preOrder (s : IntervalSet) : (s.tree.preOrder : Multiset Interval) = s.stored :=
  Multiset.coe_eq_coe.mpr s.tree.preOrder_perm

theorem Sound.overlapping_eq_filter {s : IntervalSet} (h : s.Sound) (query : Interval) :
    s.overlapping query = s.tree.preOrder.filter (·.overlaps query) :=
  IntervalTree.overlapping_eq_filter h.ordered h.recorded

/-- Clipping drops nothing that was found, and leaves it in its place. -/
theorem map_bounds_clipped {query : Interval} {xs : List Interval}
    (h : ∀ x ∈ xs, x.overlaps query = true) :
    (xs.filterMap (·.intersect query)).map (fun p => (p.start, p.stop)) =
      xs.map fun x => (max x.start query.start, min x.stop query.stop) := by
  induction xs with
  | nil => rfl
  | cons x xs ih =>
      obtain ⟨p, hp, hstart, hstop⟩ := Interval.exists_intersect (h x List.mem_cons_self)
      have hrest := ih fun z hz => h z (List.mem_cons_of_mem _ hz)
      simp only [List.filterMap_cons, hp, List.map_cons, hstart, hstop, hrest]

theorem Sound.map_bounds_intersection {s : IntervalSet} (h : s.Sound) (query : Interval) :
    (s.intersection query).map (fun p => (p.start, p.stop)) =
      (s.tree.preOrder.filter (·.overlaps query)).map fun x =>
        (max x.start query.start, min x.stop query.stop) := by
  rw [← h.overlapping_eq_filter]
  refine map_bounds_clipped ?_
  intro x hx
  exact (h.mem_overlapping.mp hx).2

theorem Sound.intersects_iff {s : IntervalSet} (h : s.Sound) {query : Interval} :
    s.intersects query = true ↔ ∃ x ∈ s.stored, x.overlaps query = true := by
  rw [intersects, Bool.not_eq_true', List.isEmpty_eq_false_iff_exists_mem]
  constructor
  · rintro ⟨x, hx⟩
    exact ⟨x, h.mem_overlapping.mp hx⟩
  · rintro ⟨x, hx⟩
    exact ⟨x, h.mem_overlapping.mpr hx⟩

theorem Sound.contains_iff {s : IntervalSet} (h : s.Sound) {point : UInt64} :
    s.contains point = true ↔ ∃ x ∈ s.stored, x.contains point = true := by
  rw [IntervalSet.contains]
  split
  · next hpoint =>
      rw [h.intersects_iff]
      simp only [Interval.overlaps_single_iff (Interval.lt_succ_of_ne_last hpoint)]
  · next hlast =>
      constructor
      · intro hfalse
        cases hfalse
      · rintro ⟨x, -, hx⟩
        exact absurd (Interval.ne_last_of_contains hx) hlast

/-- After every history a query answers what a scan of everything stored does: the
overlapping intervals in their order and as often as they are stored, the same
clipped to the query, and whether there are any. -/
theorem queries_eq_scan_ofHistory (changes : List Change) :
    ((ofHistory changes).tree.preOrder : Multiset Interval) = (ofHistory changes).stored ∧
      (∀ query,
        (ofHistory changes).overlapping query =
          (ofHistory changes).tree.preOrder.filter (·.overlaps query) ∧
        ((ofHistory changes).intersection query).map (fun p => (p.start, p.stop)) =
          ((ofHistory changes).tree.preOrder.filter (·.overlaps query)).map (fun x =>
            (max x.start query.start, min x.stop query.stop)) ∧
        (∀ p ∈ (ofHistory changes).intersection query,
          p.start < p.stop ∧ query.start ≤ p.start ∧ p.stop ≤ query.stop) ∧
        ((ofHistory changes).intersects query = true ↔
          ∃ x ∈ (ofHistory changes).stored, x.overlaps query = true)) ∧
      (∀ point, (ofHistory changes).contains point = true ↔
        ∃ x ∈ (ofHistory changes).stored, x.contains point = true) ∧
      (ofHistory changes).contains 0xffffffffffffffff = false := by
  have h := sound_ofHistory changes
  refine ⟨coe_preOrder _, fun query => ⟨h.overlapping_eq_filter query,
    h.map_bounds_intersection query, fun p hp => ?_, h.intersects_iff⟩,
    fun point => h.contains_iff, rfl⟩
  obtain ⟨hstart, hstop⟩ := bounds_of_mem_intersection hp
  exact ⟨p.start_lt_stop, UInt64.le_iff_toNat_le.mpr hstart, UInt64.le_iff_toNat_le.mpr hstop⟩

end IntervalSet

end TaintFlow
