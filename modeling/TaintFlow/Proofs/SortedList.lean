import TaintFlow.Proofs.LinkedHistory

/-!
# A collection is a stably sorted list

Nothing of the tree shows when a collection is walked through. An addition puts the
interval behind all that start no later, so equal starts stay in the order in which they
came. A removal takes every copy of its interval out and leaves the rest in order, also
where the tree moves an interval from one node up into another. `revised` is the same
history on a list, and `toList_eq_revised` says that the two never part, nor does the walk
through the links of the storage.

Each operation needs one equation. The search of a removal goes where an insertion of the
interval would go, and so it misses no copy among the equal starts; that the erased list is
a filter is then an induction over the single removals.
-/

namespace TaintFlow.IntervalSet

/-- The list with `x` right behind the intervals that start no later. -/
def place (x : Interval) (xs : List Interval) : List Interval :=
  xs.takeWhile (·.start ≤ x.start) ++ x :: xs.dropWhile (·.start ≤ x.start)

theorem place_append {x : Interval} {before after : List Interval}
    (hbefore : ∀ z ∈ before, z.start ≤ x.start) (hafter : ∀ z ∈ after, x.start < z.start) :
    place x (before ++ after) = before ++ x :: after := by
  have htake : ∀ z ∈ before, decide (z.start ≤ x.start) = true := fun z hz =>
    decide_eq_true (hbefore z hz)
  rw [place, List.takeWhile_append_of_pos htake, List.dropWhile_append_of_pos htake]
  cases after with
  | nil => simp
  | cons z after =>
      have hz : ¬ z.start ≤ x.start := UInt64.not_le.mpr (hafter z List.mem_cons_self)
      rw [List.takeWhile_cons_of_neg (by simp [hz]), List.dropWhile_cons_of_neg (by simp [hz]),
        List.append_nil]

theorem filter_append_cons_self {x : Interval} (before after : List Interval) :
    (before ++ x :: after).filter (· ≠ x) = (before ++ after).filter (· ≠ x) := by
  simp

/-! ## Single operations -/

theorem Sound.toList_add {s : IntervalSet} (h : s.Sound) (x : Interval) :
    (s.add x).toList = place x s.toList := by
  obtain ⟨slot, htree, -⟩ := exists_tree_add s x
  obtain ⟨before, after, hold, hnew, hbefore, hafter⟩ :=
    IntervalTree.inOrder_insert slot x h.ordered
  rw [toList, toList, htree, hold, hnew, place_append hbefore hafter]

theorem toList_removeOne? {s t : IntervalSet} {x : Interval} (h : s.removeOne? x = some t) :
    ∃ before after, s.toList = before ++ x :: after ∧ t.toList = before ++ after := by
  obtain ⟨⟨freed, rest⟩, htree, rfl⟩ := Option.map_eq_some_iff.mp h
  exact IntervalTree.inOrder_removeOne? htree

theorem Sound.toList_erase {s : IntervalSet} (h : s.Sound) (x : Interval) :
    (s.erase x).toList = s.toList.filter (· ≠ x) := by
  induction s using IntervalSet.erase.induct x with
  | case1 s hnone =>
      rw [erase_of_none hnone]
      refine (List.filter_eq_self.mpr ?_).symm
      intro y hy
      refine decide_eq_true ?_
      rintro rfl
      exact (removeOne?_eq_none h).mp hnone (mem_stored.mpr hy)
  | case2 s t hsome _ ih =>
      obtain ⟨before, after, hold, hnew⟩ := toList_removeOne? hsome
      rw [erase_of_some hsome, ih (h.removeOne? hsome), hold, hnew, filter_append_cons_self]

/-- A removal finds something exactly when a copy is there. -/
theorem Sound.isSome_remove? {s : IntervalSet} (h : s.Sound) {x : Interval} :
    (s.remove? x).isSome = true ↔ x ∈ s.toList := by
  rw [remove?, Option.isSome_map, ← Option.ne_none_iff_isSome, ne_eq, removeOne?_eq_none h,
    not_not]
  exact mem_stored

theorem Sound.exists_remove?_add {s : IntervalSet} (h : s.Sound) {x : Interval}
    (hx : x ∉ s.toList) : ∃ t, (s.add x).remove? x = some t ∧ t.toList = s.toList := by
  have hadd := h.add x
  have hmem : x ∈ (s.add x).toList := by
    rw [h.toList_add, place]
    simp
  obtain ⟨t, ht⟩ := Option.isSome_iff_exists.mp (hadd.isSome_remove?.mpr hmem)
  refine ⟨t, ht, ?_⟩
  have herase := hadd.toList_erase x
  rw [← getD_remove?, ht, Option.getD_some, h.toList_add, place, filter_append_cons_self,
    List.takeWhile_append_dropWhile] at herase
  rw [herase, List.filter_eq_self]
  intro y hy
  refine decide_eq_true ?_
  rintro rfl
  exact hx hy

/-! ## Histories -/

/-- A change that only adds intervals or takes some out whole. -/
inductive Revision where
  | add (x : Interval)
  | remove (x : Interval)
  | clear

def Revision.change : Revision → Change
  | .add x => .add x
  | .remove x => .remove x
  | .clear => .clear

def Revision.onList : Revision → List Interval → List Interval
  | .add x, xs => place x xs
  | .remove x, xs => xs.filter (· ≠ x)
  | .clear, _ => []

/-- The collection that some revisions make of the empty one. -/
def ofRevisions (revisions : List Revision) : IntervalSet :=
  ofHistory (revisions.map Revision.change)

/-- What they make of the empty list. -/
def revised (revisions : List Revision) : List Interval :=
  revisions.foldl (fun xs revision => revision.onList xs) []

theorem Sound.toList_apply {s : IntervalSet} (h : s.Sound) (revision : Revision) :
    (revision.change.apply s).toList = revision.onList s.toList := by
  cases revision with
  | add x => exact h.toList_add x
  | remove x =>
      show ((s.remove? x).getD s).toList = s.toList.filter (· ≠ x)
      rw [getD_remove?]
      exact h.toList_erase x
  | clear => rfl

theorem Sound.toList_foldl_apply {s : IntervalSet} (h : s.Sound) (revisions : List Revision) :
    ((revisions.map Revision.change).foldl (fun s change => change.apply s) s).toList =
      revisions.foldl (fun xs revision => revision.onList xs) s.toList := by
  induction revisions generalizing s with
  | nil => rfl
  | cons revision revisions ih =>
      rw [List.map_cons, List.foldl_cons, List.foldl_cons, ih (h.apply revision.change),
        h.toList_apply]

/-- Walking through a collection gives the list that the same revisions make, also along the
links of the storage, and this list ascends by start. A removal reports whether there was a
copy to take out. An interval that is not stored itself may overlap what is stored, contain
it or share its start: taking it out changes nothing, and taking it out after it was added
undoes the addition. -/
theorem toList_eq_revised (revisions : List Revision) :
    (ofRevisions revisions).toList = revised revisions ∧
      (∃ line, Timeline.ofHistory (revisions.map Revision.change) = some line ∧
        line.present.toList = some (revised revisions)) ∧
      (revised revisions).Pairwise (fun a b => a.start ≤ b.start) ∧
      ∀ x, (((ofRevisions revisions).remove? x).isSome = true ↔ x ∈ revised revisions) ∧
        (x ∉ revised revisions →
          (Change.remove x).apply (ofRevisions revisions) = ofRevisions revisions ∧
          ∃ t, ((ofRevisions revisions).add x).remove? x = some t ∧
            t.toList = revised revisions) := by
  have h : (ofRevisions revisions).Sound := sound_ofHistory _
  have heq : (ofRevisions revisions).toList = revised revisions :=
    sound_empty.toList_foldl_apply revisions
  have hsorted : (ofRevisions revisions).toList.Pairwise fun a b => a.start ≤ b.start :=
    h.ordered.pairwise
  obtain ⟨line, hline, htracks⟩ := Timeline.exists_tracks (revisions.map Revision.change)
  have hlisted : line.present.toList = some (ofRevisions revisions).toList :=
    htracks.represents.toList_eq htracks.stepwise.housed
  rw [← heq]
  refine ⟨rfl, ⟨line, hline, hlisted⟩, hsorted, fun x => ⟨h.isSome_remove?, fun hx => ?_⟩⟩
  refine ⟨?_, h.exists_remove?_add hx⟩
  show ((ofRevisions revisions).remove? x).getD (ofRevisions revisions) = _
  rw [getD_remove?, erase_of_none ((removeOne?_eq_none h).mpr fun hmem => hx (mem_stored.mp hmem))]

/-- Three starts of which two are equal, with the root of the tree taken out. -/
def promoted : List Revision :=
  [.add ⟨16, 32, by decide⟩, .add ⟨8, 64, by decide⟩, .add ⟨16, 24, by decide⟩,
    .add ⟨48, 56, by decide⟩, .add ⟨16, 32, by decide⟩, .remove ⟨16, 32, by decide⟩]

/-- One interval that shares its start and overlaps is not stored, and comes and goes. -/
theorem toList_eq_revised_promoted :
    (⟨16, 32, by decide⟩ : Interval) ∉ revised promoted ∧
      (Change.remove ⟨16, 32, by decide⟩).apply (ofRevisions promoted) = ofRevisions promoted ∧
      ∃ t, ((ofRevisions promoted).add ⟨16, 32, by decide⟩).remove? ⟨16, 32, by decide⟩ = some t ∧
        t.toList = revised promoted := by
  have hx : (⟨16, 32, by decide⟩ : Interval) ∉ revised promoted := by decide
  exact ⟨hx, ((toList_eq_revised promoted).2.2.2 _).2 hx⟩

end TaintFlow.IntervalSet
