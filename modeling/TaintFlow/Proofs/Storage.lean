import Mathlib.Data.Multiset.Range
import TaintFlow.Proofs.Collection

/-!
# Where the nodes of a collection live

Every node has a numbered slot, and a slot that a removal gives back is taken again before
a new one is opened. `Housed` says that this bookkeeping adds up: the slots of the nodes
and those that were given back are together all slots that were ever opened, each of them
once. So no link of the tree leads out of the storage, and no slot is handed out twice.

An operation on a collection is made of additions of one interval and removals of one node.
`Stepwise` are the collections that such single steps lead to: those between two operations
and those that an operation passes through. What is shown of them holds at every point at
which the storage is read or written.
-/

namespace TaintFlow

namespace IntervalTree

/-- The slots of the nodes. -/
def occupied : IntervalTree → Multiset Nat
  | leaf => 0
  | node slot _ _ left right => {slot} + left.occupied + right.occupied

theorem card_occupied (t : IntervalTree) : t.occupied.card = t.count := by
  induction t with
  | leaf => rfl
  | node s y reach left right ihl ihr =>
      simp only [occupied, Multiset.card_add, Multiset.card_singleton, ihl, ihr, count]
      omega

theorem height_le_count (t : IntervalTree) : t.height ≤ t.count := by
  induction t with
  | leaf => exact Nat.le_refl 0
  | node s y reach left right ihl ihr =>
      simp only [height, count]
      omega

theorem occupied_insert (slot : Nat) (x : Interval) (t : IntervalTree) :
    (t.insert slot x).occupied = {slot} + t.occupied := by
  induction t with
  | leaf => rfl
  | node s y reach left right ihl ihr =>
      rw [insert]
      split
      · simp only [occupied, ihl]
        ac_rfl
      · simp only [occupied, ihr]
        ac_rfl

theorem occupied_takeFirst (slot : Nat) (y : Interval) (left right : IntervalTree) :
    {slot} + left.occupied + right.occupied =
      {(takeFirst slot y left right).1} + (takeFirst slot y left right).2.2.occupied := by
  induction left generalizing slot y right with
  | leaf => simp [takeFirst, occupied]
  | node s z reach innerLeft innerRight ihl _ =>
      simp only [takeFirst, join, occupied]
      rw [ihl s z innerRight]
      ac_rfl

theorem occupied_takeRoot (slot : Nat) (left right : IntervalTree) :
    {slot} + left.occupied + right.occupied =
      {(takeRoot slot left right).1} + (takeRoot slot left right).2.occupied := by
  cases left with
  | leaf => simp [takeRoot, occupied]
  | node s₁ y₁ reach₁ left₁ right₁ =>
      cases right with
      | leaf => simp [takeRoot, occupied]
      | node s y reach innerLeft innerRight =>
          -- the root keeps its slot, and the slot of its successor is given back
          have hfirst := occupied_takeFirst s y innerLeft innerRight
          simp only [takeRoot, join, occupied] at hfirst ⊢
          rw [hfirst]
          ac_rfl

theorem occupied_removeOne? {x : Interval} {t rest : IntervalTree} {freed : Nat}
    (h : t.removeOne? x = some (freed, rest)) : t.occupied = {freed} + rest.occupied := by
  induction t generalizing freed rest with
  | leaf => cases h
  | node s y reach left right ihl ihr =>
      rcases removeOne?_cases h with ⟨-, l, hl, rfl⟩ | ⟨-, hroot⟩ | ⟨-, -, r, hr, rfl⟩
      · simp only [join, occupied, ihl hl]
        ac_rfl
      · have hslots := occupied_takeRoot s left right
        rwa [hroot] at hslots
      · simp only [join, occupied, ihr hr]
        ac_rfl

end IntervalTree

namespace IntervalSet

theorem Sound.height_le_size {s : IntervalSet} (h : s.Sound) : s.height ≤ s.size := by
  rw [h.size_eq]
  exact s.tree.height_le_count

/-- The slots of the nodes and those that were given back are the opened slots, each of
them once. -/
def Housed (s : IntervalSet) : Prop :=
  s.tree.occupied + (s.free : Multiset Nat) = Multiset.range s.slots

theorem housed_empty : empty.Housed := rfl

theorem Housed.add {s : IntervalSet} (h : s.Housed) (x : Interval) : (s.add x).Housed := by
  rw [Housed] at h
  rw [IntervalSet.add]
  split
  · next slot free hfree =>
      rw [hfree, ← Multiset.cons_coe, ← Multiset.singleton_add] at h
      simp only [Housed, IntervalTree.occupied_insert, ← h]
      ac_rfl
  · next hfree =>
      rw [hfree] at h
      simp only [Housed, hfree, IntervalTree.occupied_insert, Multiset.range_succ, ← h,
        ← Multiset.singleton_add]
      ac_rfl

theorem Housed.removeOne? {s t : IntervalSet} (h : s.Housed) {x : Interval}
    (ht : s.removeOne? x = some t) : t.Housed := by
  obtain ⟨⟨freed, rest⟩, htree, rfl⟩ := Option.map_eq_some_iff.mp ht
  rw [Housed, IntervalTree.occupied_removeOne? htree] at h
  simp only [Housed, ← Multiset.cons_coe, ← Multiset.singleton_add, ← h]
  ac_rfl

theorem Housed.count_add_length_free {s : IntervalSet} (h : s.Housed) :
    s.tree.count + s.free.length = s.slots := by
  have hcard := congrArg Multiset.card h
  rwa [Multiset.card_add, IntervalTree.card_occupied, Multiset.coe_card,
    Multiset.card_range] at hcard

theorem Housed.lt_slots_iff {s : IntervalSet} (h : s.Housed) {slot : Nat} :
    slot < s.slots ↔ slot ∈ s.tree.occupied ∨ slot ∈ s.free := by
  rw [← Multiset.mem_range, ← h, Multiset.mem_add, Multiset.mem_coe]

theorem Housed.nodup {s : IntervalSet} (h : s.Housed) :
    (s.tree.occupied + (s.free : Multiset Nat)).Nodup := by
  rw [h]
  exact Multiset.nodup_range s.slots

theorem Housed.nodup_occupied {s : IntervalSet} (h : s.Housed) : s.tree.occupied.Nodup :=
  (Multiset.nodup_add.mp h.nodup).1

/-! ## Single steps -/

/-- The collections that additions of one interval and removals of one node lead to. -/
inductive Stepwise : IntervalSet → Prop where
  | empty : Stepwise .empty
  | add {s : IntervalSet} (h : s.Stepwise) (x : Interval) : Stepwise (s.add x)
  | removeOne {s t : IntervalSet} (h : s.Stepwise) {x : Interval}
      (ht : s.removeOne? x = some t) : Stepwise t

namespace Stepwise

theorem sound {s : IntervalSet} (h : s.Stepwise) : s.Sound := by
  induction h with
  | empty => exact sound_empty
  | add _ x ih => exact ih.add x
  | removeOne _ ht ih => exact ih.removeOne? ht

theorem housed {s : IntervalSet} (h : s.Stepwise) : s.Housed := by
  induction h with
  | empty => exact housed_empty
  | add _ x ih => exact ih.add x
  | removeOne _ ht ih => exact ih.removeOne? ht

theorem erase {s : IntervalSet} (h : s.Stepwise) (x : Interval) : (s.erase x).Stepwise := by
  induction s using IntervalSet.erase.induct x with
  | case1 s hnone =>
      rw [erase_of_none hnone]
      exact h
  | case2 s t hsome _ ih =>
      rw [erase_of_some hsome]
      exact ih (h.removeOne hsome)

theorem trim {s : IntervalSet} (h : s.Stepwise) (query x : Interval) :
    (s.trim query x).Stepwise := by
  have hremoved : ((s.removeOne? x).getD s).Stepwise := by
    cases ht : s.removeOne? x with
    | none => exact h
    | some t => exact h.removeOne ht
  rw [IntervalSet.trim]
  split <;> split
  · exact (hremoved.add _).add _
  · exact hremoved.add _
  · exact hremoved.add _
  · exact hremoved

theorem subtract {s : IntervalSet} (h : s.Stepwise) (query : Interval) :
    (s.subtract query).Stepwise := by
  suffices general : ∀ (xs : List Interval) (s : IntervalSet), s.Stepwise →
      (xs.foldl (fun s x => s.trim query x) s).Stepwise from general _ s h
  intro xs
  induction xs with
  | nil =>
      intro s h
      exact h
  | cons x xs ih =>
      intro s h
      exact ih (s.trim query x) (h.trim query x)

theorem apply {s : IntervalSet} (h : s.Stepwise) (change : Change) :
    (change.apply s).Stepwise := by
  cases change with
  | add x => exact h.add x
  | remove x =>
      show ((s.remove? x).getD s).Stepwise
      rw [getD_remove?]
      exact h.erase x
  | subtract query => exact h.subtract query
  | clear => exact .empty

end Stepwise

theorem stepwise_ofHistory (changes : List Change) : (ofHistory changes).Stepwise := by
  suffices general : ∀ s : IntervalSet, s.Stepwise →
      (changes.foldl (fun s change => change.apply s) s).Stepwise from general .empty .empty
  induction changes with
  | nil =>
      intro s h
      exact h
  | cons change changes ih =>
      intro s h
      exact ih (change.apply s) (h.apply change)

end IntervalSet

end TaintFlow
