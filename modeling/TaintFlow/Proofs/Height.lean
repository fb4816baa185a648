import TaintFlow.Proofs.LinkedHistory

/-!
# The height of a collection

`IsHeight` says in terms of links alone what a height is: the number of nodes on the longest way
from the root to a node without children. A way down the links is a way down the tree, and the
recursion on the tree follows a longest one, so this is what the measurement of the storage
finds.

The tree is never rebalanced, so a height lies anywhere between that of a full tree and the
number of intervals. An addition puts its node below one node that is there. A removal only
shortens ways: the node that leaves has at most one child, and the subtree below it moves up.

It is the order of additions that decides. Where every interval goes to the same side of all
that came before it, the outermost way to this side becomes longer with each addition. This way
is no longer than the height and the height no larger than the number of intervals, and hence
all three are equal.
-/

namespace TaintFlow

namespace IntervalTree

/-! ## Ways down -/

theorem height_node (slot : Nat) (y : Interval) (reach : UInt64) (left right : IntervalTree) :
    (node slot y reach left right).height = max left.height right.height + 1 := rfl

theorem height_eq_zero {t : IntervalTree} : t.height = 0 ↔ t = leaf := by
  cases t <;> simp [height]

/-- A way to a node passes fewer nodes than the tree is high. -/
theorem length_lt_height {t : IntervalTree} {path : List Side} (h : t.sub path ≠ leaf) :
    path.length < t.height := by
  induction t generalizing path with
  | leaf => exact absurd (sub_leaf path) h
  | node s y reach left right ihl ihr =>
      rw [height]
      cases path with
      | nil => exact Nat.succ_pos _
      | cons side path =>
          rw [List.length_cons]
          cases side with
          | left =>
              have hlt := ihl h
              omega
          | right =>
              have hlt := ihr h
              omega

/-- Some way to a node without children passes as many nodes as the tree is high. -/
theorem exists_path_height {t : IntervalTree} (h : t ≠ leaf) :
    ∃ path, t.sub path ≠ leaf ∧ (∀ side, t.sub (path ++ [side]) = leaf) ∧
      path.length + 1 = t.height := by
  induction t with
  | leaf => exact absurd rfl h
  | node s y reach left right ihl ihr =>
      by_cases hle : left.height ≤ right.height
      · by_cases hright : right = leaf
        · -- nothing is below the root
          subst hright
          obtain rfl := height_eq_zero.mp (Nat.le_zero.mp hle)
          refine ⟨[], by simp, fun side => ?_, rfl⟩
          cases side <;> rfl
        · obtain ⟨path, hnode, hend, hlength⟩ := ihr hright
          refine ⟨.right :: path, hnode, hend, ?_⟩
          rw [List.length_cons, hlength, height, Nat.max_eq_right hle]
      · have hleft : left ≠ leaf := by
          rintro rfl
          exact hle (Nat.zero_le _)
        obtain ⟨path, hnode, hend, hlength⟩ := ihl hleft
        refine ⟨.left :: path, hnode, hend, ?_⟩
        rw [List.length_cons, hlength, height, Nat.max_eq_left (by omega)]

/-! ## Bounds -/

theorem count_lt_two_pow (t : IntervalTree) : t.count < 2 ^ t.height := by
  induction t with
  | leaf => exact Nat.one_pos
  | node s y reach left right ihl ihr =>
      have hl : 2 ^ left.height ≤ 2 ^ max left.height right.height :=
        Nat.pow_le_pow_right (by decide) (Nat.le_max_left _ _)
      have hr : 2 ^ right.height ≤ 2 ^ max left.height right.height :=
        Nat.pow_le_pow_right (by decide) (Nat.le_max_right _ _)
      rw [count, height, Nat.pow_succ]
      omega

theorem height_insert (slot : Nat) (x : Interval) (t : IntervalTree) :
    t.height ≤ (t.insert slot x).height ∧ (t.insert slot x).height ≤ t.height + 1 := by
  induction t with
  | leaf => exact ⟨Nat.zero_le _, Nat.le_refl _⟩
  | node s y reach left right ihl ihr =>
      rw [insert]
      split
      · simp only [height]
        omega
      · simp only [height]
        omega

theorem height_takeFirst (slot : Nat) (y : Interval) (left right : IntervalTree) :
    (takeFirst slot y left right).2.2.height ≤ max left.height right.height + 1 := by
  induction left generalizing slot y right with
  | leaf =>
      rw [takeFirst]
      simp only [height]
      omega
  | node s z reach innerLeft innerRight ihl _ =>
      have hinner := ihl s z innerRight
      show max (takeFirst s z innerLeft innerRight).2.2.height right.height + 1 ≤ _
      rw [height]
      omega

theorem height_takeRoot (slot : Nat) (left right : IntervalTree) :
    (takeRoot slot left right).2.height ≤ max left.height right.height + 1 := by
  cases left with
  | leaf =>
      rw [takeRoot]
      simp only [height]
      omega
  | node sl yl reachl ll rl =>
      cases right with
      | leaf =>
          show (node sl yl reachl ll rl).height ≤ _
          omega
      | node s y reach innerLeft innerRight =>
          have hfirst := height_takeFirst s y innerLeft innerRight
          show max (node sl yl reachl ll rl).height
            (takeFirst s y innerLeft innerRight).2.2.height + 1 ≤ _
          rw [height_node s]
          omega

theorem height_removeOne? {x : Interval} {t rest : IntervalTree} {freed : Nat}
    (h : t.removeOne? x = some (freed, rest)) : rest.height ≤ t.height := by
  induction t generalizing freed rest with
  | leaf => cases h
  | node s y reach left right ihl ihr =>
      rcases removeOne?_cases h with ⟨-, l, hl, rfl⟩ | ⟨-, hroot⟩ | ⟨-, -, r, hr, rfl⟩
      · have hle := ihl hl
        simp only [join, height]
        omega
      · have hle := height_takeRoot s left right
        rwa [hroot] at hle
      · have hle := ihr hr
        simp only [join, height]
        omega

/-! ## Outermost ways -/

/-- Number of nodes on the way from the root that always goes to the same side. -/
def spineLength (side : Side) : IntervalTree → Nat
  | leaf => 0
  | node _ _ _ left right =>
    match side with
    | .left => left.spineLength side + 1
    | .right => right.spineLength side + 1

theorem spineLength_left (slot : Nat) (y : Interval) (reach : UInt64)
    (left right : IntervalTree) :
    (node slot y reach left right).spineLength .left = left.spineLength .left + 1 := rfl

theorem spineLength_right (slot : Nat) (y : Interval) (reach : UInt64)
    (left right : IntervalTree) :
    (node slot y reach left right).spineLength .right = right.spineLength .right + 1 := rfl

theorem spineLength_le_height (side : Side) (t : IntervalTree) :
    t.spineLength side ≤ t.height := by
  induction t with
  | leaf => exact Nat.le_refl 0
  | node s y reach left right ihl ihr =>
      rw [height]
      cases side with
      | left =>
          rw [spineLength_left]
          omega
      | right =>
          rw [spineLength_right]
          omega

end IntervalTree

/-- An insertion of `x` goes on to this side of a node for `y`. -/
def Side.Takes (side : Side) (x y : Interval) : Prop :=
  match side with
  | .left => x.start < y.start
  | .right => y.start ≤ x.start

/-- What goes to one side of every node lengthens the outermost way to this side. -/
theorem IntervalTree.spineLength_insert {side : Side} {x : Interval} {t : IntervalTree}
    (h : ∀ y ∈ t.inOrder, side.Takes x y) (slot : Nat) :
    (t.insert slot x).spineLength side = t.spineLength side + 1 := by
  induction t with
  | leaf => cases side <;> rfl
  | node s y reach left right ihl ihr =>
      have hroot := h y (by simp)
      rw [insert]
      cases side with
      | left =>
          have hlt : x.start < y.start := hroot
          rw [if_pos hlt, spineLength_left, spineLength_left, ihl fun z hz => h z (by simp [hz])]
      | right =>
          rw [if_neg (UInt64.not_lt.mpr hroot), spineLength_right, spineLength_right,
            ihr fun z hz => h z (by simp [hz])]

/-! ## Collections -/

namespace IntervalSet

theorem height_add (s : IntervalSet) (x : Interval) :
    s.height ≤ (s.add x).height ∧ (s.add x).height ≤ s.height + 1 := by
  obtain ⟨slot, htree, -⟩ := exists_tree_add s x
  rw [height, height, htree]
  exact IntervalTree.height_insert slot x s.tree

theorem height_removeOne? {s t : IntervalSet} {x : Interval} (h : s.removeOne? x = some t) :
    t.height ≤ s.height := by
  obtain ⟨⟨freed, rest⟩, htree, rfl⟩ := Option.map_eq_some_iff.mp h
  exact IntervalTree.height_removeOne? htree

theorem height_erase (s : IntervalSet) (x : Interval) : (s.erase x).height ≤ s.height := by
  induction s using IntervalSet.erase.induct x with
  | case1 s hnone => rw [erase_of_none hnone]
  | case2 s t hsome _ ih =>
      rw [erase_of_some hsome]
      exact ih.trans (height_removeOne? hsome)

theorem Sound.size_le {s : IntervalSet} (h : s.Sound) : s.size ≤ 2 ^ s.height - 1 := by
  rw [h.size_eq]
  exact Nat.le_sub_one_of_lt s.tree.count_lt_two_pow

theorem count_addAll (s : IntervalSet) (xs : List Interval) :
    (s.addAll xs).tree.count = s.tree.count + xs.length := by
  induction xs generalizing s with
  | nil => rfl
  | cons x xs ih =>
      obtain ⟨slot, htree, -⟩ := exists_tree_add s x
      show ((s.add x).addAll xs).tree.count = _
      rw [ih, htree, IntervalTree.count_insert, List.length_cons]
      omega

theorem spineLength_addAll {s : IntervalSet} {side : Side} {xs : List Interval}
    (hbeyond : ∀ y ∈ s.tree.inOrder, ∀ x ∈ xs, side.Takes x y)
    (hxs : xs.Pairwise fun y x => side.Takes x y) :
    (s.addAll xs).tree.spineLength side = s.tree.spineLength side + xs.length := by
  induction xs generalizing s with
  | nil => rfl
  | cons x xs ih =>
      obtain ⟨hfirst, hrest⟩ := List.pairwise_cons.mp hxs
      obtain ⟨slot, htree, -⟩ := exists_tree_add s x
      have hgrown : (s.add x).tree.spineLength side = s.tree.spineLength side + 1 := by
        rw [htree]
        exact IntervalTree.spineLength_insert (fun y hy => hbeyond y hy x List.mem_cons_self) slot
      have hbeyond' : ∀ y ∈ (s.add x).tree.inOrder, ∀ z ∈ xs, side.Takes z y := by
        intro y hy z hz
        rw [htree] at hy
        rcases IntervalTree.mem_insert.mp hy with rfl | hy
        · exact hfirst z hz
        · exact hbeyond y hy z (List.mem_cons_of_mem x hz)
      show ((s.add x).addAll xs).tree.spineLength side = _
      rw [ih hbeyond' hrest, hgrown, List.length_cons]
      omega

/-- Additions that all go to the same side make a tree as high as it has nodes. -/
theorem height_addAll_of_takes {s : IntervalSet} (h : s.tree = .leaf) (side : Side)
    {xs : List Interval} (hxs : xs.Pairwise fun y x => side.Takes x y) :
    (s.addAll xs).height = xs.length := by
  have hspine : (s.addAll xs).tree.spineLength side = xs.length := by
    rw [spineLength_addAll (by simp [h]) hxs, h]
    exact Nat.zero_add _
  have hcount : (s.addAll xs).tree.count = xs.length := by
    rw [count_addAll, h]
    exact Nat.zero_add _
  refine Nat.le_antisymm ?_ ?_
  · rw [← hcount]
    exact IntervalTree.height_le_count _
  · rw [← hspine]
    exact IntervalTree.spineLength_le_height side _

end IntervalSet

/-! ## Linked storage -/

namespace LinkedSet

/-- The way leads from the root to a node without children. -/
def EndsAtLeaf (s : LinkedSet) (path : List Side) : Prop :=
  ∃ slot, s.slotAt path = some slot ∧ ∀ side, childAt s.nodes slot side = none

/-- The number of nodes on the longest way from the root to a node without children, zero
where there is no node. -/
structure IsHeight (s : LinkedSet) (height : Nat) : Prop where
  length_le : ∀ path, s.EndsAtLeaf path → path.length + 1 ≤ height
  attained : s.root = none ∧ height = 0 ∨ ∃ path, s.EndsAtLeaf path ∧ path.length + 1 = height

namespace Represents

variable {a : LinkedSet} {s : IntervalSet}

theorem endsAtLeaf_iff (h : a.Represents s) {path : List Side} :
    a.EndsAtLeaf path ↔
      s.tree.sub path ≠ .leaf ∧ ∀ side, s.tree.sub (path ++ [side]) = .leaf := by
  constructor
  · rintro ⟨slot, hslot, hend⟩
    refine ⟨fun hleaf => ?_, fun side => ?_⟩
    · rw [h.slotAt_eq, hleaf] at hslot
      cases hslot
    · rw [← IntervalTree.slot?_eq_none, ← h.slotAt_eq, slotAt_append_side, hslot]
      exact hend side
  · rintro ⟨hnode, hend⟩
    cases hsub : s.tree.sub path with
    | leaf => exact absurd hsub hnode
    | node slot y reach left right =>
        have hslot : a.slotAt path = some slot := by
          rw [h.slotAt_eq, hsub]
          rfl
        refine ⟨slot, hslot, fun side => ?_⟩
        have hchild := slotAt_append_side (a := a) path side
        rw [hslot, h.slotAt_eq, hend side] at hchild
        exact hchild.symm

/-- The height of the tree is that of the storage, in links. -/
theorem isHeight (h : a.Represents s) : a.IsHeight s.height where
  length_le path hpath :=
    IntervalTree.length_lt_height (h.endsAtLeaf_iff.mp hpath).1
  attained := by
    by_cases hempty : s.tree = .leaf
    · refine .inl ⟨?_, ?_⟩
      · rw [h.root_eq, hempty]
        rfl
      · rw [IntervalSet.height, hempty]
        rfl
    · obtain ⟨path, hnode, hend, hlength⟩ := IntervalTree.exists_path_height hempty
      exact .inr ⟨path, h.endsAtLeaf_iff.mpr ⟨hnode, hend⟩, hlength⟩

end Represents

end LinkedSet

namespace IntervalSet

theorem isEmpty_iff_tree_eq {s : IntervalSet} : s.isEmpty = true ↔ s.tree = .leaf := by
  rw [isEmpty]
  cases s.tree <;> simp

/-- After every history, measuring the storage gives the number of nodes on the longest way
from the root to a node without children, and this is the height of the collection. The number
of intervals is at least the height, and at most that of a full tree. One more interval raises
the height by at most one, and a removal never raises it. Additions to an empty collection whose
starts never fall, or always do, give a height of as many as they are. -/
theorem height_ofHistory (changes : List Change) :
    (∃ line, Timeline.ofHistory changes = some line ∧
      line.present.height = some (ofHistory changes).height ∧
      line.present.IsHeight (ofHistory changes).height) ∧
    (ofHistory changes).height ≤ (ofHistory changes).size ∧
    (ofHistory changes).size ≤ 2 ^ (ofHistory changes).height - 1 ∧
    (∀ x, (ofHistory changes).height ≤ ((ofHistory changes).add x).height ∧
      ((ofHistory changes).add x).height ≤ (ofHistory changes).height + 1) ∧
    (∀ x, ((Change.remove x).apply (ofHistory changes)).height ≤ (ofHistory changes).height) ∧
    ((ofHistory changes).isEmpty = true → ∀ xs : List Interval,
      (xs.Pairwise fun x y => x.start ≤ y.start) ∨ (xs.Pairwise fun x y => y.start < x.start) →
        ((ofHistory changes).addAll xs).height = xs.length) := by
  obtain ⟨line, hline, htracks⟩ := Timeline.exists_tracks changes
  have hsound := sound_ofHistory changes
  refine ⟨⟨line, hline, htracks.represents.height_eq htracks.stepwise.housed,
    htracks.represents.isHeight⟩, hsound.height_le_size, hsound.size_le,
    height_add _, fun x => ?_, fun hempty xs hxs => ?_⟩
  · show (((ofHistory changes).remove? x).getD (ofHistory changes)).height ≤ _
    rw [getD_remove?]
    exact height_erase _ x
  · have hleaf := isEmpty_iff_tree_eq.mp hempty
    rcases hxs with hxs | hxs
    · exact height_addAll_of_takes hleaf .right hxs
    · exact height_addAll_of_takes hleaf .left hxs

/-- One interval, and more than its addresses cut out again. -/
def emptied : List Change := [.add ⟨96, 112, by decide⟩, .subtract ⟨80, 128, by decide⟩]

/-- Equal and larger starts make a way to the right, and smaller ones a way to the left. -/
theorem height_ofHistory_emptied :
    (ofHistory emptied).isEmpty = true ∧
      ((ofHistory emptied).addAll
        [⟨8, 64, by decide⟩, ⟨8, 12, by decide⟩, ⟨24, 32, by decide⟩]).height = 3 ∧
      ((ofHistory emptied).addAll
        [⟨24, 32, by decide⟩, ⟨16, 40, by decide⟩, ⟨8, 12, by decide⟩]).height = 3 := by
  have hempty : (ofHistory emptied).isEmpty = true := by decide
  obtain ⟨-, -, -, -, -, hgrown⟩ := height_ofHistory emptied
  exact ⟨hempty, hgrown hempty _ (.inl (by decide)), hgrown hempty _ (.inr (by decide))⟩

end IntervalSet

end TaintFlow
