import TaintFlow.Proofs.LinkedStorage

/-!
# Histories of linked storage

Whatever callers do to a collection, its storage stays in order: not only between two changes,
but also wherever a change has added one interval or taken out one node and goes on from
there. The storage is exactly as large as the collection was at its largest since it was last
cleared, since a slot is opened only when no slot is waiting.

`Tracks` is what a single step keeps. It ties the present storage to the running collection,
and every storage since the last clearing to some collection, which is enough for its links
and its loops. The changes are runs of single steps, and the loop of a removal ends because
the collection runs out of copies.
-/

namespace TaintFlow

open IntervalSet (Change)

namespace Timeline

def apply (line : Timeline) : Change → Option Timeline
  | .add x => line.add x
  | .remove x => (line.remove x).map Prod.snd
  | .subtract query => line.subtract query
  | .clear => some {}

/-- The storage that some changes make of the empty one, with what it was on the way. -/
def ofHistory (changes : List Change) : Option Timeline :=
  changes.foldlM apply {}

/-- The storage is as large as some collection on the line, and as none is larger. -/
structure Tracks (line : Timeline) (s : IntervalSet) : Prop where
  stepwise : s.Stepwise
  represents : line.present.Represents s
  past : ∀ a ∈ line.past, ∃ s' : IntervalSet, s'.Stepwise ∧ a.Represents s'
  size_le : ∀ a ∈ line.states, a.size ≤ line.present.nodes.size
  attained : ∃ a ∈ line.states, a.size = line.present.nodes.size

theorem tracks_start : Tracks {} .empty where
  stepwise := .empty
  represents := LinkedSet.represents_empty
  past _ ha := by cases ha
  size_le a ha := by
    rw [List.mem_singleton.mp ha]
    exact Nat.le_refl 0
  attained := ⟨{}, List.mem_singleton_self _, rfl⟩

namespace Tracks

variable {line : Timeline} {s : IntervalSet}

theorem exists_represents (h : line.Tracks s) :
    ∀ a ∈ line.states, ∃ s' : IntervalSet, s'.Stepwise ∧ a.Represents s' := by
  intro a ha
  rcases List.mem_cons.mp ha with rfl | ha
  · exact ⟨s, h.stepwise, h.represents⟩
  · exact h.past a ha

theorem wellLinked (h : line.Tracks s) : ∀ a ∈ line.states, a.WellLinked ∧ a.Walkable := by
  intro a ha
  obtain ⟨s', hs', hrepresents⟩ := h.exists_represents a ha
  exact ⟨hrepresents.wellLinked hs'.housed hs'.sound, hrepresents.walkable hs'.housed⟩

/-- A step that opens a slot only when none is waiting. -/
theorem advance (h : line.Tracks s) {a : LinkedSet} {s' : IntervalSet} (hs' : s'.Stepwise)
    (ha : a.Represents s') (hslots : s'.slots = s.slots ∨ s'.slots = s.slots + 1 ∧ s'.free = []) :
    (line.advance a).Tracks s' := by
  have hsize := (ha.wellLinked hs'.housed hs'.sound).slots_eq
  have hold := h.represents.slots_eq
  have hnew := ha.slots_eq
  refine ⟨hs', ha, ?_, ?_, ?_⟩
  · exact h.exists_represents
  · intro b hb
    rcases List.mem_cons.mp hb with hb | hb
    · rw [hb]
      show a.size ≤ a.nodes.size
      omega
    · have hle := h.size_le b hb
      show b.size ≤ a.nodes.size
      omega
  · rcases hslots with hsame | ⟨-, hfree⟩
    · obtain ⟨b, hb, hattained⟩ := h.attained
      refine ⟨b, List.mem_cons_of_mem a hb, ?_⟩
      show b.size = a.nodes.size
      omega
    · refine ⟨a, List.mem_cons_self, ?_⟩
      rw [ha.free_eq, hfree] at hsize
      exact hsize.symm

/-! ## Single steps -/

theorem exists_add (h : line.Tracks s) (x : Interval) :
    ∃ next, line.add x = some next ∧ next.Tracks (s.add x) := by
  obtain ⟨-, a, hadd, ha⟩ := h.represents.exists_add h.stepwise.housed x
  refine ⟨line.advance a, by simp [add, hadd], h.advance (h.stepwise.add x) ha ?_⟩
  rw [IntervalSet.add]
  split
  · exact .inl rfl
  · next hfree => exact .inr ⟨rfl, hfree⟩

theorem exists_removeOne (h : line.Tracks s) (x : Interval) :
    s.removeOne? x = none ∧ line.removeOne x = some none ∨
      ∃ next s', s.removeOne? x = some s' ∧ line.removeOne x = some (some next) ∧
        next.Tracks s' := by
  rcases h.represents.exists_removeOne h.stepwise.housed x with
    ⟨hnone, hmissed⟩ | ⟨a, s', hsome, hremoved, ha⟩
  · exact .inl ⟨hnone, by simp [removeOne, hmissed]⟩
  · refine .inr ⟨line.advance a, s', hsome, by simp [removeOne, hremoved],
      h.advance (h.stepwise.removeOne hsome) ha (.inl ?_)⟩
    obtain ⟨⟨freed, rest⟩, -, rfl⟩ := Option.map_eq_some_iff.mp hsome
    rfl

/-! ## Changes -/

/-- The loop of a removal ends, since there is one node less after each turn but the last. -/
theorem visits_removeTurn (h : line.Tracks s) (x : Interval) :
    ∃ turns rest, Visits (removeTurn x) [()] line turns rest ∧
      turns.length ≤ s.tree.count + 1 ∧ rest.Tracks (s.erase x) := by
  induction s using IntervalSet.erase.induct x generalizing line with
  | case1 s hnone =>
      rw [IntervalSet.erase_of_none hnone]
      rcases h.exists_removeOne x with ⟨-, hmissed⟩ | ⟨next, s', hsome, -, -⟩
      · have hbody : removeTurn x () line = some ([], line) := by simp [removeTurn, hmissed]
        exact ⟨[()], line, .single hbody (.done line), by simp, h⟩
      · rw [hnone] at hsome
        cases hsome
  | case2 s s' hsome hcount ih =>
      rw [IntervalSet.erase_of_some hsome]
      rcases h.exists_removeOne x with ⟨hnone, -⟩ | ⟨next, s'', hsome', hremoved, hnext⟩
      · rw [hsome] at hnone
        cases hnone
      · rw [hsome] at hsome'
        cases hsome'
        obtain ⟨turns, rest, hrun, hturns, htracks⟩ := ih hnext
        have hbody : removeTurn x () line = some ([()], next) := by simp [removeTurn, hremoved]
        refine ⟨() :: turns, rest, .single hbody hrun, ?_, htracks⟩
        rw [List.length_cons]
        omega

theorem exists_remove (h : line.Tracks s) (x : Interval) :
    ∃ found rest, line.remove x = some (found, rest) ∧ rest.Tracks (s.erase x) := by
  obtain ⟨turns, rest, hrun, hturns, htracks⟩ := h.visits_removeTurn x
  have hsize : line.present.size = s.tree.count :=
    h.represents.size_eq.trans h.stepwise.sound.size_eq
  rw [← hsize] at hturns
  exact ⟨decide (1 < turns.length), rest, by simp [remove, hrun.walk_eq hturns], htracks⟩

theorem exists_addBetween (h : line.Tracks s) (start stop : UInt64) :
    ∃ next, line.addBetween start stop = some next ∧
      next.Tracks (if h : start < stop then s.add ⟨start, stop, h⟩ else s) := by
  rw [addBetween]
  split
  · exact h.exists_add _
  · exact ⟨line, rfl, h⟩

theorem exists_trim (h : line.Tracks s) (query x : Interval) :
    ∃ next, line.trim query x = some next ∧ next.Tracks (s.trim query x) := by
  obtain ⟨removed, hremoved, htracks⟩ : ∃ removed, line.removeOne x = some removed ∧
      (removed.getD line).Tracks ((s.removeOne? x).getD s) := by
    rcases h.exists_removeOne x with ⟨hnone, hmissed⟩ | ⟨next, s', hsome, hremoved, hnext⟩
    · exact ⟨none, hmissed, by rwa [hnone]⟩
    · exact ⟨some next, hremoved, by rwa [hsome]⟩
  obtain ⟨first, hfirst, htracks⟩ := htracks.exists_addBetween x.start query.start
  obtain ⟨last, hlast, htracks⟩ := htracks.exists_addBetween query.stop x.stop
  exact ⟨last, by simp [trim, hremoved, hfirst, hlast], htracks⟩

theorem exists_subtract (h : line.Tracks s) (query : Interval) :
    ∃ next, line.subtract query = some next ∧ next.Tracks (s.subtract query) := by
  have general : ∀ (xs : List Interval) (line : Timeline) (s : IntervalSet), line.Tracks s →
      ∃ next, xs.foldlM (fun line x => trim line query x) line = some next ∧
        next.Tracks (xs.foldl (fun s x => s.trim query x) s) := by
    intro xs
    induction xs with
    | nil =>
        intro line s h
        exact ⟨line, rfl, h⟩
    | cons x xs ih =>
        intro line s h
        obtain ⟨between, htrim, hbetween⟩ := h.exists_trim query x
        obtain ⟨next, hnext, htracks⟩ := ih between _ hbetween
        refine ⟨next, ?_, htracks⟩
        simp [htrim, hnext]
  obtain ⟨next, hnext, htracks⟩ := general (s.overlapping query) line s h
  refine ⟨next, ?_, htracks⟩
  simp [subtract, h.represents.overlapping_eq h.stepwise.housed, hnext]

theorem exists_apply (h : line.Tracks s) (change : Change) :
    ∃ next, line.apply change = some next ∧ next.Tracks (change.apply s) := by
  cases change with
  | add x => exact h.exists_add x
  | remove x =>
      obtain ⟨found, rest, hrest, htracks⟩ := h.exists_remove x
      refine ⟨rest, by simp [apply, hrest], ?_⟩
      show rest.Tracks ((s.remove? x).getD s)
      rwa [IntervalSet.getD_remove?]
  | subtract query => exact h.exists_subtract query
  | clear => exact ⟨{}, rfl, tracks_start⟩

end Tracks

/-- Every history leads to some storage, which all of this holds of. -/
theorem exists_tracks (changes : List Change) :
    ∃ line, ofHistory changes = some line ∧ line.Tracks (.ofHistory changes) := by
  suffices general : ∀ (line : Timeline) (s : IntervalSet), line.Tracks s →
      ∃ next, changes.foldlM apply line = some next ∧
        next.Tracks (changes.foldl (fun s change => change.apply s) s) from
    general {} .empty tracks_start
  induction changes with
  | nil =>
      intro line s h
      exact ⟨line, rfl, h⟩
  | cons change changes ih =>
      intro line s h
      obtain ⟨between, happly, hbetween⟩ := h.exists_apply change
      obtain ⟨next, hnext, htracks⟩ := ih between _ hbetween
      refine ⟨next, ?_, htracks⟩
      simp [happly, hnext]

/-- Every history of additions, removals, subtractions and clearings leads to a storage that
represents the collection. Since the last clearing, and in the middle of a change as well,
the storage was in order and every loop over its links ended without a slot visited twice;
it is as large as the largest collection since then. A removal of every copy ends. -/
theorem storage_sound (changes : List Change) :
    ∃ line, ofHistory changes = some line ∧ line.present.Represents (.ofHistory changes) ∧
      (∀ a ∈ line.states, a.WellLinked ∧ a.Walkable) ∧
      (∀ a ∈ line.states, a.size ≤ line.present.nodes.size) ∧
      (∃ a ∈ line.states, a.size = line.present.nodes.size) ∧
      ∀ x, ∃ turns rest, Visits (removeTurn x) [()] line turns rest := by
  obtain ⟨line, hline, htracks⟩ := exists_tracks changes
  refine ⟨line, hline, htracks.represents, htracks.wellLinked, htracks.size_le,
    htracks.attained, fun x => ?_⟩
  obtain ⟨turns, rest, hrun, -⟩ := htracks.visits_removeTurn x
  exact ⟨turns, rest, hrun⟩

/-- A part of a cut interval moves into the slot of the whole, and a later interval into the
slot of one that was cut away. -/
theorem storage_sound_recycled :
    ∃ line, ofHistory [.add ⟨0x10, 0x20, by decide⟩, .subtract ⟨0x14, 0x18, by decide⟩,
        .subtract ⟨0x18, 0x20, by decide⟩, .add ⟨0x40, 0x50, by decide⟩] = some line ∧
      line.present.free = [] ∧ line.present.nodes.size = 2 ∧
      ∀ a ∈ line.states, a.size ≤ 2 ∧ a.WellLinked ∧ a.Walkable := by
  obtain ⟨line, hline, hrepresents, hsound, hle, -, -⟩ :=
    storage_sound [.add ⟨0x10, 0x20, by decide⟩, .subtract ⟨0x14, 0x18, by decide⟩,
      .subtract ⟨0x18, 0x20, by decide⟩, .add ⟨0x40, 0x50, by decide⟩]
  have hslots : line.present.nodes.size = 2 := hrepresents.slots_eq.trans (by decide)
  rw [hslots] at hle
  exact ⟨line, hline, hrepresents.free_eq.trans (by decide), hslots,
    fun a ha => ⟨hle a ha, hsound a ha⟩⟩

end Timeline

end TaintFlow
