import TaintFlow.Address.IntervalTree
import TaintFlow.Proofs.Interval

/-!
# What an interval tree promises its readers

Two promises make the tree useful. `Ordered` is the search order, strict to the
left and weak to the right, so that equal starts have one direction to go.
`Recorded` is the bookkeeping: the record of every node is the largest end below
it, attained and not merely an upper bound. Both are said through the list of
stored intervals, without mention of the operations.

Every operation is then described by what it does to that list. An insertion
puts one interval after the starts that are not larger, a removal takes one
copy out of its place, and a query answers the stored intervals from the root
downwards, filtered. The promises enter in two places only: the search of a
removal finds what is there because of `Ordered`, and a query skips only what
it may skip because of both.
-/

namespace TaintFlow.IntervalTree

/-! ## The list of a tree -/

theorem inOrderOnto_eq (t : IntervalTree) (acc : List Interval) :
    t.inOrderOnto acc = t.inOrder ++ acc := by
  induction t generalizing acc with
  | leaf => rfl
  | node s y reach left right ihl ihr =>
      show left.inOrderOnto (y :: right.inOrderOnto acc) =
        left.inOrderOnto (y :: right.inOrderOnto []) ++ acc
      rw [ihl, ihl (y :: right.inOrderOnto []), ihr, ihr []]
      simp

@[simp] theorem inOrder_leaf : inOrder leaf = [] := rfl

@[simp] theorem inOrder_node (s : Nat) (y : Interval) (reach : UInt64)
    (left right : IntervalTree) :
    inOrder (node s y reach left right) = left.inOrder ++ y :: right.inOrder := by
  show left.inOrderOnto (y :: right.inOrderOnto []) = _
  rw [inOrderOnto_eq]
  rfl

@[simp] theorem inOrder_join (s : Nat) (y : Interval) (left right : IntervalTree) :
    inOrder (join s y left right) = left.inOrder ++ y :: right.inOrder :=
  inOrder_node s y _ left right

/-! ## The two promises -/

/-- Smaller starts to the left of every node, equal and larger ones to its right. -/
def Ordered : IntervalTree → Prop
  | leaf => True
  | node _ y _ left right =>
      (∀ x ∈ left.inOrder, x.start < y.start) ∧
        (∀ x ∈ right.inOrder, y.start ≤ x.start) ∧ left.Ordered ∧ right.Ordered

/-- The largest end of some intervals. -/
def IsReach (xs : List Interval) (reach : UInt64) : Prop :=
  (∃ x ∈ xs, x.stop = reach) ∧ ∀ x ∈ xs, x.stop ≤ reach

/-- The record of every node is the largest end in the subtree of the node. -/
def Recorded : IntervalTree → Prop
  | leaf => True
  | node s y reach left right =>
      IsReach (inOrder (node s y reach left right)) reach ∧
        left.Recorded ∧ right.Recorded

theorem Ordered.pairwise {t : IntervalTree} (h : t.Ordered) :
    t.inOrder.Pairwise fun a b => a.start ≤ b.start := by
  induction t with
  | leaf => exact .nil
  | node s y reach left right ihl ihr =>
      obtain ⟨hleft, hright, hl, hr⟩ := h
      rw [inOrder_node, List.pairwise_append, List.pairwise_cons]
      refine ⟨ihl hl, ⟨hright, ihr hr⟩, ?_⟩
      intro a ha b hb
      have hay : a.start ≤ y.start := UInt64.le_of_lt (hleft a ha)
      rcases List.mem_cons.mp hb with rfl | hb
      · exact hay
      · exact UInt64.le_trans hay (hright b hb)

theorem Recorded.le_reach {t : IntervalTree} (h : t.Recorded) :
    ∀ x ∈ t.inOrder, x.stop ≤ t.reach := by
  cases t with
  | leaf => simp
  | node s y reach left right => exact h.1.2

theorem Recorded.attained {t : IntervalTree} (h : t.Recorded) :
    t = leaf ∨ ∃ x ∈ t.inOrder, x.stop = t.reach := by
  cases t with
  | leaf => exact .inl rfl
  | node s y reach left right => exact .inr h.1.1

/-- A record taken from the records of two subtrees is exact. -/
theorem recorded_join {s : Nat} {y : Interval} {left right : IntervalTree}
    (hl : left.Recorded) (hr : right.Recorded) : (join s y left right).Recorded := by
  refine ⟨⟨?_, fun x hx => ?_⟩, hl, hr⟩
  · -- the largest of the three is attained where it comes from
    show ∃ x ∈ inOrder (join s y left right), x.stop = _
    rw [inOrder_join]
    by_cases hy : max left.reach.toNat right.reach.toNat ≤ y.stop.toNat
    · refine ⟨y, by simp, ?_⟩
      rw [← UInt64.toNat_inj, toNat_max, toNat_max]
      omega
    · by_cases hside : right.reach.toNat ≤ left.reach.toNat
      · rcases hl.attained with rfl | ⟨x, hx, hstop⟩
        · rw [show reach leaf = 0 from rfl] at hy hside
          simp at hy hside
          omega
        · refine ⟨x, List.mem_append_left _ hx, ?_⟩
          rw [hstop, ← UInt64.toNat_inj, toNat_max, toNat_max]
          omega
      · rcases hr.attained with rfl | ⟨x, hx, hstop⟩
        · exact absurd (Nat.zero_le _) hside
        · refine ⟨x, by simp [hx], ?_⟩
          rw [hstop, ← UInt64.toNat_inj, toNat_max, toNat_max]
          omega
  · rw [← join, inOrder_join] at hx
    rw [UInt64.le_iff_toNat_le, toNat_max, toNat_max]
    rcases List.mem_append.mp hx with hx | hx
    · have hle := hl.le_reach x hx
      rw [UInt64.le_iff_toNat_le] at hle
      omega
    · rcases List.mem_cons.mp hx with rfl | hx
      · omega
      · have hle := hr.le_reach x hx
        rw [UInt64.le_iff_toNat_le] at hle
        omega

/-! ## Insertion -/

theorem mem_insert {slot : Nat} {x z : Interval} {t : IntervalTree} :
    z ∈ (t.insert slot x).inOrder ↔ z = x ∨ z ∈ t.inOrder := by
  induction t with
  | leaf => simp [insert]
  | node s y reach left right ihl ihr =>
      simp only [insert]
      split
      · rw [inOrder_node, inOrder_node, List.mem_append, List.mem_append, ihl, or_assoc]
      · rw [inOrder_node, inOrder_node, List.mem_append, List.mem_append, List.mem_cons,
          List.mem_cons, ihr, or_left_comm (b := z = x), or_left_comm (b := z = x)]

theorem count_insert (slot : Nat) (x : Interval) (t : IntervalTree) :
    (t.insert slot x).count = t.count + 1 := by
  induction t with
  | leaf => rfl
  | node s y reach left right ihl ihr =>
      simp only [insert]
      split
      · rw [count, count, ihl]
        omega
      · rw [count, count, ihr]
        omega

theorem ordered_insert {slot : Nat} {x : Interval} {t : IntervalTree} (h : t.Ordered) :
    (t.insert slot x).Ordered := by
  induction t with
  | leaf => simp [insert, Ordered]
  | node s y reach left right ihl ihr =>
      obtain ⟨hleft, hright, hl, hr⟩ := h
      simp only [insert]
      split
      · next hlt =>
          refine ⟨?_, hright, ihl hl, hr⟩
          intro z hz
          rcases mem_insert.mp hz with rfl | hz
          · exact hlt
          · exact hleft z hz
      · next hlt =>
          refine ⟨hleft, ?_, hl, ihr hr⟩
          intro z hz
          rcases mem_insert.mp hz with rfl | hz
          · exact UInt64.not_lt.mp hlt
          · exact hright z hz

/-- One more interval raises the largest end to its own, or leaves it. -/
theorem IsReach.insert {xs zs : List Interval} {x : Interval} {reach : UInt64}
    (h : IsReach xs reach) (hzs : ∀ z, z ∈ zs ↔ z = x ∨ z ∈ xs) :
    IsReach zs (max reach x.stop) := by
  obtain ⟨⟨w, hw, hstop⟩, hle⟩ := h
  refine ⟨?_, fun z hz => ?_⟩
  · by_cases hx : reach.toNat ≤ x.stop.toNat
    · refine ⟨x, (hzs x).mpr (.inl rfl), ?_⟩
      rw [← UInt64.toNat_inj, toNat_max]
      omega
    · refine ⟨w, (hzs w).mpr (.inr hw), ?_⟩
      rw [hstop, ← UInt64.toNat_inj, toNat_max]
      omega
  · rw [UInt64.le_iff_toNat_le, toNat_max]
    rcases (hzs z).mp hz with rfl | hz
    · omega
    · have hz := hle z hz
      rw [UInt64.le_iff_toNat_le] at hz
      omega

theorem recorded_insert {slot : Nat} {x : Interval} {t : IntervalTree}
    (h : t.Recorded) : (t.insert slot x).Recorded := by
  induction t with
  | leaf => simp [insert, Recorded, IsReach]
  | node s y reach left right ihl ihr =>
      have hmem : ∀ z, z ∈ ((node s y reach left right).insert slot x).inOrder ↔
          z = x ∨ z ∈ (node s y reach left right).inOrder := fun _ => mem_insert
      obtain ⟨hreach, hl, hr⟩ := h
      have hreach' := hreach.insert hmem
      by_cases hlt : x.start < y.start
      · rw [insert, if_pos hlt] at hreach' ⊢
        exact ⟨hreach', ihl hl, hr⟩
      · rw [insert, if_neg hlt] at hreach' ⊢
        exact ⟨hreach', hl, ihr hr⟩

/-- An insertion puts `x` behind every start that is not larger than its own. -/
theorem inOrder_insert (slot : Nat) (x : Interval) {t : IntervalTree} (h : t.Ordered) :
    ∃ before after, t.inOrder = before ++ after ∧
      (t.insert slot x).inOrder = before ++ x :: after ∧
      (∀ z ∈ before, z.start ≤ x.start) ∧ ∀ z ∈ after, x.start < z.start := by
  induction t with
  | leaf => exact ⟨[], [], rfl, rfl, by simp, by simp⟩
  | node s y reach left right ihl ihr =>
      obtain ⟨hleft, hright, hl, hr⟩ := h
      simp only [insert]
      split
      · next hlt =>
          obtain ⟨before, after, htree, hinsert, hbefore, hafter⟩ := ihl hl
          refine ⟨before, after ++ y :: right.inOrder, ?_, ?_, hbefore, fun z hz => ?_⟩
          · rw [inOrder_node, htree, List.append_assoc]
          · rw [inOrder_node, hinsert, List.append_assoc, List.cons_append]
          · rcases List.mem_append.mp hz with hz | hz
            · exact hafter z hz
            · rcases List.mem_cons.mp hz with rfl | hz
              · exact hlt
              · exact UInt64.lt_of_lt_of_le hlt (hright z hz)
      · next hlt =>
          obtain ⟨before, after, htree, hinsert, hbefore, hafter⟩ := ihr hr
          have hyx : y.start ≤ x.start := UInt64.not_lt.mp hlt
          refine ⟨left.inOrder ++ y :: before, after, ?_, ?_, fun z hz => ?_, hafter⟩
          · rw [inOrder_node, htree, List.append_assoc, List.cons_append]
          · rw [inOrder_node, hinsert, List.append_assoc, List.cons_append]
          · rcases List.mem_append.mp hz with hz | hz
            · exact UInt64.le_trans (UInt64.le_of_lt (hleft z hz)) hyx
            · rcases List.mem_cons.mp hz with rfl | hz
              · exact hyx
              · exact hbefore z hz

/-! ## Removal

A removal gives back one interval and keeps the others in their order. Both
halves of that are in one equation of lists: what was taken stands in front of
what remains, where it stood before. -/

theorem inOrder_takeFirst (slot : Nat) (y : Interval) (left right : IntervalTree) :
    (takeFirst slot y left right).2.1 :: (takeFirst slot y left right).2.2.inOrder =
      left.inOrder ++ y :: right.inOrder := by
  induction left generalizing slot y right with
  | leaf => rfl
  | node s z reach innerLeft innerRight ihl _ =>
      simp only [takeFirst]
      rw [inOrder_join, inOrder_node, ← ihl]
      rfl

theorem inOrder_takeRoot (slot : Nat) (left right : IntervalTree) :
    (takeRoot slot left right).2.inOrder = left.inOrder ++ right.inOrder := by
  cases left with
  | leaf => rfl
  | node sl yl reachl ll rl =>
      cases right with
      | leaf => simp [takeRoot]
      | node s y reach innerLeft innerRight =>
          simp only [takeRoot]
          rw [inOrder_join, inOrder_takeFirst, inOrder_node s]

/-- A removal takes one copy of `x` out of its place. -/
theorem inOrder_removeOne? {x : Interval} {t rest : IntervalTree} {freed : Nat}
    (h : t.removeOne? x = some (freed, rest)) :
    ∃ before after, t.inOrder = before ++ x :: after ∧ rest.inOrder = before ++ after := by
  induction t generalizing freed rest with
  | leaf => cases h
  | node s y reach left right ihl ihr =>
      rcases removeOne?_cases h with ⟨-, l, hl, rfl⟩ | ⟨rfl, hroot⟩ | ⟨-, -, r, hr, rfl⟩
      · obtain ⟨before, after, htree, hrest⟩ := ihl hl
        refine ⟨before, after ++ y :: right.inOrder, ?_, ?_⟩
        · rw [inOrder_node, htree, List.append_assoc, List.cons_append]
        · rw [inOrder_join, hrest, List.append_assoc]
      · refine ⟨left.inOrder, right.inOrder, inOrder_node s y reach left right, ?_⟩
        rw [← inOrder_takeRoot s, hroot]
      · obtain ⟨before, after, htree, hrest⟩ := ihr hr
        refine ⟨left.inOrder ++ y :: before, after, ?_, ?_⟩
        · rw [inOrder_node, htree, List.append_assoc, List.cons_append]
        · rw [inOrder_join, hrest, List.append_assoc, List.cons_append]

/-- The way that an insertion of `x` would go down meets every copy of `x`. -/
theorem exists_removeOne? {x : Interval} {t : IntervalTree} (h : t.Ordered)
    (hx : x ∈ t.inOrder) : ∃ freed rest, t.removeOne? x = some (freed, rest) := by
  induction t with
  | leaf => simp at hx
  | node s y reach left right ihl ihr =>
      obtain ⟨hleft, hright, hl, hr⟩ := h
      rw [inOrder_node, List.mem_append, List.mem_cons] at hx
      simp only [removeOne?]
      split
      · next hlt =>
          have hmem : x ∈ left.inOrder := by
            rcases hx with hx | rfl | hx
            · exact hx
            · exact absurd hlt (UInt64.lt_irrefl _)
            · exact absurd hlt (UInt64.not_lt.mpr (hright x hx))
          obtain ⟨freed, rest, hrest⟩ := ihl hl hmem
          rw [hrest]
          exact ⟨_, _, rfl⟩
      · next hlt =>
          split
          · exact ⟨_, _, rfl⟩
          · next hne =>
              have hmem : x ∈ right.inOrder := by
                rcases hx with hx | rfl | hx
                · exact absurd (hleft x hx) hlt
                · exact absurd rfl hne
                · exact hx
              obtain ⟨freed, rest, hrest⟩ := ihr hr hmem
              rw [hrest]
              exact ⟨_, _, rfl⟩

theorem ordered_takeFirst {slot : Nat} {y : Interval} {reach : UInt64}
    {left right : IntervalTree} (h : (node slot y reach left right).Ordered) :
    (takeFirst slot y left right).2.2.Ordered := by
  induction left generalizing slot y reach right with
  | leaf => exact h.2.2.2
  | node s z inner innerLeft innerRight ihl _ =>
      obtain ⟨hleft, hright, hl, hr⟩ := h
      simp only [takeFirst]
      refine ⟨fun x hx => hleft x ?_, hright, ihl hl, hr⟩
      rw [inOrder_node, ← inOrder_takeFirst s]
      exact List.mem_cons_of_mem _ hx

/-- The interval that moves up into a removed root is the first to its right, so
it is larger than all to the left and no larger than the rest to the right. -/
theorem ordered_takeRoot {slot : Nat} {y : Interval} {reach : UInt64}
    {left right : IntervalTree} (h : (node slot y reach left right).Ordered) :
    (takeRoot slot left right).2.Ordered := by
  obtain ⟨hleft, hright, hl, hr⟩ := h
  cases left with
  | leaf => exact hr
  | node sl yl reachl ll rl =>
      cases right with
      | leaf => exact hl
      | node s z inner innerLeft innerRight =>
          have hlist := inOrder_takeFirst s z innerLeft innerRight
          have hsorted := hr.pairwise
          rw [inOrder_node] at hright hsorted
          rw [← hlist] at hright hsorted
          have hnext := hright _ List.mem_cons_self
          simp only [takeRoot]
          exact ⟨fun x hx => UInt64.lt_of_lt_of_le (hleft x hx) hnext,
            (List.pairwise_cons.mp hsorted).1, hl, ordered_takeFirst hr⟩

theorem ordered_removeOne? {x : Interval} {t rest : IntervalTree} {freed : Nat}
    (ht : t.Ordered) (h : t.removeOne? x = some (freed, rest)) : rest.Ordered := by
  induction t generalizing freed rest with
  | leaf => cases h
  | node s y reach left right ihl ihr =>
      have hnode := ht
      obtain ⟨hleft, hright, hl, hr⟩ := ht
      rcases removeOne?_cases h with ⟨-, l, hremove, rfl⟩ | ⟨-, hroot⟩ | ⟨-, -, r, hremove, rfl⟩
      · obtain ⟨before, after, htree, hrest⟩ := inOrder_removeOne? hremove
        refine ⟨fun z hz => hleft z ?_, hright, ihl hl hremove, hr⟩
        rw [hrest, List.mem_append] at hz
        rw [htree, List.mem_append]
        exact hz.imp_right (List.mem_cons_of_mem _)
      · have hordered := ordered_takeRoot hnode
        rwa [hroot] at hordered
      · obtain ⟨before, after, htree, hrest⟩ := inOrder_removeOne? hremove
        refine ⟨hleft, fun z hz => hright z ?_, hl, ihr hr hremove⟩
        rw [hrest, List.mem_append] at hz
        rw [htree, List.mem_append]
        exact hz.imp_right (List.mem_cons_of_mem _)

theorem recorded_takeFirst {slot : Nat} {y : Interval} {left right : IntervalTree}
    (hl : left.Recorded) (hr : right.Recorded) :
    (takeFirst slot y left right).2.2.Recorded := by
  induction left generalizing slot y right with
  | leaf => exact hr
  | node s z inner innerLeft innerRight ihl _ =>
      simp only [takeFirst]
      exact recorded_join (ihl hl.2.1 hl.2.2) hr

theorem recorded_takeRoot (slot : Nat) {left right : IntervalTree}
    (hl : left.Recorded) (hr : right.Recorded) :
    (takeRoot slot left right).2.Recorded := by
  cases left with
  | leaf => exact hr
  | node sl yl reachl ll rl =>
      cases right with
      | leaf => exact hl
      | node s z inner innerLeft innerRight =>
          simp only [takeRoot]
          exact recorded_join hl (recorded_takeFirst hr.2.1 hr.2.2)

theorem recorded_removeOne? {x : Interval} {t rest : IntervalTree} {freed : Nat}
    (ht : t.Recorded) (h : t.removeOne? x = some (freed, rest)) : rest.Recorded := by
  induction t generalizing freed rest with
  | leaf => cases h
  | node s y reach left right ihl ihr =>
      obtain ⟨-, hl, hr⟩ := ht
      rcases removeOne?_cases h with ⟨-, l, hremove, rfl⟩ | ⟨-, hroot⟩ | ⟨-, -, r, hremove, rfl⟩
      · exact recorded_join (ihl hl hremove) hr
      · have hrecorded := recorded_takeRoot s hl hr
        rwa [hroot] at hrecorded
      · exact recorded_join hl (ihr hr hremove)

/-! ## Queries

The two tests of a query skip a subtree whose every interval ends by the start
of the query, and a right subtree whose every interval starts at or after its
end. What they skip the filter would have dropped. -/

/-- The stored intervals from the root downwards, left before right. -/
def preOrder : IntervalTree → List Interval
  | leaf => []
  | node _ y _ left right => y :: (left.preOrder ++ right.preOrder)

theorem preOrder_perm (t : IntervalTree) : t.preOrder.Perm t.inOrder := by
  induction t with
  | leaf => exact .nil
  | node s y reach left right ihl ihr =>
      rw [preOrder, inOrder_node]
      exact ((ihl.append ihr).cons y).trans List.perm_middle.symm

theorem filter_overlaps_eq_nil {query : Interval} {t : IntervalTree}
    (h : ∀ x ∈ t.inOrder, x.stop ≤ query.start ∨ query.stop ≤ x.start) :
    t.preOrder.filter (·.overlaps query) = [] := by
  refine List.filter_eq_nil_iff.mpr ?_
  intro x hx
  have hx := h x (t.preOrder_perm.mem_iff.mp hx)
  rw [UInt64.le_iff_toNat_le, UInt64.le_iff_toNat_le] at hx
  rw [Interval.overlaps_iff]
  omega

theorem overlappingOnto_eq {query : Interval} {t : IntervalTree} (ho : t.Ordered)
    (hr : t.Recorded) (acc : List Interval) :
    t.overlappingOnto query acc = t.preOrder.filter (·.overlaps query) ++ acc := by
  induction t generalizing acc with
  | leaf => rfl
  | node s y reach left right ihl ihr =>
      obtain ⟨hleft, hright, hol, hor⟩ := ho
      have hreach := hr.le_reach
      obtain ⟨-, hrl, hrr⟩ := hr
      simp only [overlappingOnto]
      split
      · next hpruned =>
          rw [filter_overlaps_eq_nil fun x hx =>
            .inl (UInt64.le_trans (hreach x hx) hpruned)]
          rfl
      · have hskip : (if y.start < query.stop then right.overlappingOnto query acc
            else acc) = right.preOrder.filter (·.overlaps query) ++ acc := by
          split
          · exact ihr hor hrr acc
          · next hpruned =>
              have hpruned := UInt64.not_lt.mp hpruned
              rw [filter_overlaps_eq_nil fun x hx =>
                .inr (UInt64.le_trans hpruned (hright x hx))]
              rfl
        rw [hskip, ihl hol hrl, preOrder, List.filter_cons, List.filter_append]
        split
        · rw [List.cons_append, List.append_assoc]
        · rw [List.append_assoc]

/-- A query answers the stored intervals from the root downwards, filtered. -/
theorem overlapping_eq_filter {query : Interval} {t : IntervalTree} (ho : t.Ordered)
    (hr : t.Recorded) :
    t.overlapping query = t.preOrder.filter (·.overlaps query) := by
  rw [overlapping, overlappingOnto_eq ho hr, List.append_nil]

end TaintFlow.IntervalTree
