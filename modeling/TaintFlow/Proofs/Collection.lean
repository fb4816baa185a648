import Mathlib.Data.Multiset.Bind
import Mathlib.Data.Multiset.Filter
import TaintFlow.Address.IntervalSet
import TaintFlow.Proofs.SearchTree

/-!
# Collections as multisets of intervals

What a caller may know of a collection is which intervals it stores and how
often: `stored`. `Sound` gathers what has to be true of the tree for the
operations to mean anything on that multiset. An empty collection is sound and
every operation keeps a sound collection sound, so every collection that can be
built is (`sound_run`).

On a sound collection each operation is an operation on multisets. The one that
takes an argument is `subtract`, which changes the tree while it walks a list
it collected before: the list is a part of what is stored, and stays one, since
each turn takes out one copy of its own interval and no other.
-/

namespace TaintFlow.IntervalSet

/-- The stored intervals, each as often as it is stored. -/
def stored (s : IntervalSet) : Multiset Interval := s.toList

/-- Search order, exact records and an exact count. -/
structure Sound (s : IntervalSet) : Prop where
  ordered : s.tree.Ordered
  recorded : s.tree.Recorded
  size_eq : s.size = s.tree.count

theorem mem_stored {s : IntervalSet} {x : Interval} :
    x ∈ s.stored ↔ x ∈ s.tree.inOrder := Multiset.mem_coe

theorem Sound.isEmpty_iff {s : IntervalSet} (h : s.Sound) :
    s.isEmpty = true ↔ s.size = 0 := by
  rw [h.size_eq, isEmpty]
  cases s.tree with
  | leaf => simp [IntervalTree.count]
  | node slot y reach left right => simp [IntervalTree.count]

/-! ## Single operations -/

theorem sound_empty : empty.Sound := ⟨trivial, trivial, rfl⟩

/-- An addition is an insertion at whichever slot is next. -/
theorem exists_tree_add (s : IntervalSet) (x : Interval) :
    ∃ slot, (s.add x).tree = s.tree.insert slot x ∧ (s.add x).size = s.size + 1 := by
  rw [add]
  split
  · exact ⟨_, rfl, rfl⟩
  · exact ⟨_, rfl, rfl⟩

theorem Sound.add {s : IntervalSet} (h : s.Sound) (x : Interval) : (s.add x).Sound := by
  obtain ⟨slot, htree, hsize⟩ := exists_tree_add s x
  refine ⟨?_, ?_, ?_⟩
  · rw [htree]
    exact IntervalTree.ordered_insert h.ordered
  · rw [htree]
    exact IntervalTree.recorded_insert h.recorded
  · rw [hsize, htree, h.size_eq, IntervalTree.count_insert]

theorem Sound.stored_add {s : IntervalSet} (h : s.Sound) (x : Interval) :
    (s.add x).stored = x ::ₘ s.stored := by
  obtain ⟨slot, htree, -⟩ := exists_tree_add s x
  obtain ⟨before, after, hold, hnew, -⟩ := IntervalTree.inOrder_insert slot x h.ordered
  rw [stored, stored, toList, toList, htree, hold, hnew, Multiset.cons_coe,
    Multiset.coe_eq_coe]
  exact List.perm_middle

theorem Sound.addAll {s : IntervalSet} (h : s.Sound) (xs : List Interval) :
    (s.addAll xs).Sound := by
  induction xs generalizing s with
  | nil => exact h
  | cons x xs ih => exact ih (h.add x)

theorem Sound.stored_addAll {s : IntervalSet} (h : s.Sound) (xs : List Interval) :
    (s.addAll xs).stored = s.stored + xs := by
  induction xs generalizing s with
  | nil => exact (add_zero _).symm
  | cons x xs ih =>
      show ((s.add x).addAll xs).stored = _
      rw [ih (h.add x), h.stored_add, ← Multiset.cons_coe, Multiset.cons_add,
        Multiset.add_cons]

theorem stored_removeOne? {s t : IntervalSet} {x : Interval}
    (h : s.removeOne? x = some t) : s.stored = x ::ₘ t.stored := by
  obtain ⟨⟨freed, rest⟩, htree, rfl⟩ := Option.map_eq_some_iff.mp h
  obtain ⟨before, after, hold, hnew⟩ := IntervalTree.inOrder_removeOne? htree
  rw [stored, stored, toList, toList, hold, hnew, Multiset.cons_coe, Multiset.coe_eq_coe]
  exact List.perm_middle

theorem Sound.removeOne? {s t : IntervalSet} {x : Interval} (hs : s.Sound)
    (h : s.removeOne? x = some t) : t.Sound := by
  obtain ⟨⟨freed, rest⟩, htree, rfl⟩ := Option.map_eq_some_iff.mp h
  refine ⟨IntervalTree.ordered_removeOne? hs.ordered htree,
    IntervalTree.recorded_removeOne? hs.recorded htree, ?_⟩
  have hcount := IntervalTree.count_removeOne? htree
  have hsize := hs.size_eq
  show s.size - 1 = rest.count
  omega

theorem Sound.exists_removeOne? {s : IntervalSet} {x : Interval} (hs : s.Sound)
    (hx : x ∈ s.stored) : ∃ t, s.removeOne? x = some t := by
  obtain ⟨freed, rest, htree⟩ := IntervalTree.exists_removeOne? hs.ordered (mem_stored.mp hx)
  exact ⟨_, Option.map_eq_some_iff.mpr ⟨(freed, rest), htree, rfl⟩⟩

theorem removeOne?_eq_none {s : IntervalSet} {x : Interval} (hs : s.Sound) :
    s.removeOne? x = none ↔ x ∉ s.stored := by
  constructor
  · intro h hx
    obtain ⟨t, ht⟩ := hs.exists_removeOne? hx
    rw [h] at ht
    cases ht
  · intro h
    cases ht : s.removeOne? x with
    | none => rfl
    | some t =>
        rw [stored_removeOne? ht] at h
        exact absurd (Multiset.mem_cons_self x _) h

/-! ## Erasing every copy -/

theorem erase_of_none {s : IntervalSet} {x : Interval} (h : s.removeOne? x = none) :
    s.erase x = s := by
  rw [IntervalSet.erase]
  split
  · rfl
  · next t ht => rw [h] at ht; cases ht

theorem erase_of_some {s t : IntervalSet} {x : Interval} (h : s.removeOne? x = some t) :
    s.erase x = t.erase x := by
  rw [IntervalSet.erase]
  split
  · next hnone => rw [h] at hnone; cases hnone
  · next u hu => rw [h] at hu; cases hu; rfl

theorem Sound.erase {s : IntervalSet} (h : s.Sound) (x : Interval) : (s.erase x).Sound := by
  induction s using IntervalSet.erase.induct x with
  | case1 s hnone =>
      rw [erase_of_none hnone]
      exact h
  | case2 s t hsome _ ih =>
      rw [erase_of_some hsome]
      exact ih (h.removeOne? hsome)

theorem Sound.stored_erase {s : IntervalSet} (h : s.Sound) (x : Interval) :
    (s.erase x).stored = s.stored.filter (· ≠ x) := by
  induction s using IntervalSet.erase.induct x with
  | case1 s hnone =>
      rw [erase_of_none hnone]
      refine (Multiset.filter_eq_self.mpr ?_).symm
      intro y hy hyx
      subst hyx
      exact (removeOne?_eq_none h).mp hnone hy
  | case2 s t hsome _ ih =>
      rw [erase_of_some hsome, stored_removeOne? hsome,
        Multiset.filter_cons_of_neg (p := (· ≠ x)) t.stored fun hne => hne rfl]
      exact ih (h.removeOne? hsome)

/-- The removal that reports whether it found something does what `erase` does. -/
theorem getD_remove? (s : IntervalSet) (x : Interval) : (s.remove? x).getD s = s.erase x := by
  rw [remove?]
  cases h : s.removeOne? x with
  | none => rw [erase_of_none h]; rfl
  | some t => rw [erase_of_some h]; rfl

/-! ## Cutting a query out -/

/-- A turn of `subtract` replaces one copy of `x` by what `x` has outside. -/
theorem trim_eq {s : IntervalSet} {query x : Interval} (h : x.overlaps query = true) :
    s.trim query x = ((s.removeOne? x).getD s).addAll (x.outside query) := by
  rw [Interval.trimmed_eq_outside h, trim]
  by_cases hfirst : x.start < query.start
  · by_cases hlast : query.stop < x.stop
    · rw [Interval.between?_of_lt hfirst, Interval.between?_of_lt hlast]
      simp [hfirst, hlast, addAll]
    · rw [Interval.between?_of_lt hfirst, Interval.between?_of_not_lt hlast]
      simp [hfirst, hlast, addAll]
  · by_cases hlast : query.stop < x.stop
    · rw [Interval.between?_of_not_lt hfirst, Interval.between?_of_lt hlast]
      simp [hfirst, hlast, addAll]
    · rw [Interval.between?_of_not_lt hfirst, Interval.between?_of_not_lt hlast]
      simp [hfirst, hlast, addAll]

theorem Sound.trim {s : IntervalSet} (h : s.Sound) {query x : Interval}
    (hx : x.overlaps query = true) : (s.trim query x).Sound := by
  rw [trim_eq hx]
  refine Sound.addAll ?_ _
  cases ht : s.removeOne? x with
  | none => exact h
  | some t => exact h.removeOne? ht

theorem Sound.stored_trim {s : IntervalSet} (h : s.Sound) {query x : Interval}
    (hx : x.overlaps query = true) {others : Multiset Interval}
    (hstored : s.stored = x ::ₘ others) :
    (s.trim query x).stored = others + (x.outside query : Multiset Interval) := by
  have hmem : x ∈ s.stored := hstored ▸ Multiset.mem_cons_self x others
  obtain ⟨t, ht⟩ := h.exists_removeOne? hmem
  have hothers : t.stored = others := by
    rw [stored_removeOne? ht] at hstored
    exact (Multiset.cons_inj_right x).mp hstored
  rw [trim_eq hx, ht, Option.getD_some, (h.removeOne? ht).stored_addAll, hothers]

/-- The turns of `subtract` over any part of what is stored. -/
theorem Sound.foldl_trim {s : IntervalSet} (h : s.Sound) {query : Interval}
    {xs : List Interval} (hxs : ∀ x ∈ xs, x.overlaps query = true)
    {others : Multiset Interval} (hstored : s.stored = xs + others) :
    (xs.foldl (fun s x => s.trim query x) s).Sound ∧
      (xs.foldl (fun s x => s.trim query x) s).stored =
        (xs : Multiset Interval).bind (fun x => (x.outside query : Multiset Interval)) +
          others := by
  induction xs generalizing s others with
  | nil =>
      refine ⟨h, ?_⟩
      rw [List.foldl_nil, hstored]
      rfl
  | cons x xs ih =>
      have hx := hxs x List.mem_cons_self
      rw [← Multiset.cons_coe, Multiset.cons_add] at hstored
      have hnext := h.stored_trim hx hstored
      rw [add_assoc] at hnext
      obtain ⟨hsound, hresult⟩ :=
        ih (h.trim hx) (fun z hz => hxs z (List.mem_cons_of_mem _ hz)) hnext
      refine ⟨hsound, ?_⟩
      rw [List.foldl_cons, hresult, ← Multiset.cons_coe, Multiset.cons_bind]
      ac_rfl

theorem Sound.overlapping_eq {s : IntervalSet} (h : s.Sound) (query : Interval) :
    (s.overlapping query : Multiset Interval) =
      s.stored.filter fun x => x.overlaps query = true := by
  rw [overlapping, IntervalTree.overlapping_eq_filter h.ordered h.recorded, stored, toList,
    Multiset.filter_coe, Multiset.coe_eq_coe]
  simpa using s.tree.preOrder_perm.filter fun x => x.overlaps query

theorem Sound.mem_overlapping {s : IntervalSet} (h : s.Sound) {query x : Interval} :
    x ∈ s.overlapping query ↔ x ∈ s.stored ∧ x.overlaps query = true := by
  rw [← Multiset.mem_coe, h.overlapping_eq, Multiset.mem_filter]

theorem Sound.subtract_spec {s : IntervalSet} (h : s.Sound) (query : Interval) :
    (s.subtract query).Sound ∧ (s.subtract query).stored =
      s.stored.bind fun x => (x.outside query : Multiset Interval) := by
  -- what overlaps the query is cut, and for the rest the parts outside are all of it
  have hsplit : s.stored = (s.overlapping query : Multiset Interval) +
      s.stored.filter fun x => ¬ x.overlaps query = true := by
    rw [h.overlapping_eq, Multiset.filter_add_not]
  obtain ⟨hsound, hstored⟩ :=
    h.foldl_trim (fun x hx => (h.mem_overlapping.mp hx).2) hsplit
  refine ⟨hsound, ?_⟩
  have hrest : (s.stored.filter fun x => ¬ x.overlaps query = true).bind
      (fun x => (x.outside query : Multiset Interval)) =
        s.stored.filter fun x => ¬ x.overlaps query = true := by
    rw [Multiset.bind_congr fun x hx => ?_, Multiset.bind_singleton, Multiset.map_id']
    rw [Interval.outside_of_not_overlaps (Multiset.mem_filter.mp hx).2]
    rfl
  calc (s.subtract query).stored
      = (s.overlapping query : Multiset Interval).bind
          (fun x => (x.outside query : Multiset Interval)) +
          s.stored.filter (fun x => ¬ x.overlaps query = true) := hstored
    _ = ((s.overlapping query : Multiset Interval) +
          s.stored.filter fun x => ¬ x.overlaps query = true).bind
            (fun x => (x.outside query : Multiset Interval)) := by
        rw [Multiset.add_bind, hrest]
    _ = s.stored.bind fun x => (x.outside query : Multiset Interval) := by rw [← hsplit]

theorem Sound.subtract {s : IntervalSet} (h : s.Sound) (query : Interval) :
    (s.subtract query).Sound := (h.subtract_spec query).1

theorem Sound.stored_subtract {s : IntervalSet} (h : s.Sound) (query : Interval) :
    (s.subtract query).stored =
      s.stored.bind fun x => (x.outside query : Multiset Interval) :=
  (h.subtract_spec query).2

/-! ## Histories

Whatever callers did to a collection, they did it by these four changes, each of
which keeps a collection sound. -/

/-- A change that a caller makes. -/
inductive Change where
  | add (x : Interval)
  | remove (x : Interval)
  | subtract (query : Interval)
  | clear

def Change.apply : Change → IntervalSet → IntervalSet
  | .add x, s => s.add x
  | .remove x, s => (s.remove? x).getD s
  | .subtract query, s => s.subtract query
  | .clear, _ => .empty

/-- The collection that some changes make of the empty one. -/
def ofHistory (changes : List Change) : IntervalSet :=
  changes.foldl (fun s change => change.apply s) .empty

theorem Sound.apply {s : IntervalSet} (h : s.Sound) (change : Change) :
    (change.apply s).Sound := by
  cases change with
  | add x => exact h.add x
  | remove x =>
      show ((s.remove? x).getD s).Sound
      rw [getD_remove?]
      exact h.erase x
  | subtract query => exact h.subtract query
  | clear => exact sound_empty

theorem Sound.foldl_apply {s : IntervalSet} (h : s.Sound) (changes : List Change) :
    (changes.foldl (fun s change => change.apply s) s).Sound := by
  induction changes generalizing s with
  | nil => exact h
  | cons change changes ih => exact ih (h.apply change)

theorem sound_ofHistory (changes : List Change) : (ofHistory changes).Sound :=
  sound_empty.foldl_apply changes

/-- After every history, at every node of the tree, smaller starts lie to the left
and equal or larger ones to the right, and the record is the largest end below;
what is stored is non-empty, and the number of nodes is counted exactly. -/
theorem search_invariant_ofHistory (changes : List Change) :
    (ofHistory changes).tree.Ordered ∧ (ofHistory changes).tree.Recorded ∧
      (∀ x ∈ (ofHistory changes).toList, x.start < x.stop) ∧
      (ofHistory changes).size = (ofHistory changes).tree.count ∧
      ((ofHistory changes).isEmpty = true ↔ (ofHistory changes).size = 0) := by
  have h := sound_ofHistory changes
  exact ⟨h.ordered, h.recorded, fun x _ => x.start_lt_stop, h.size_eq, h.isEmpty_iff⟩

end TaintFlow.IntervalSet
