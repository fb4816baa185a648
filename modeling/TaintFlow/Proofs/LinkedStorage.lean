import TaintFlow.Proofs.Relinking

/-!
# What holds of the storage of a collection

`WellLinked` says in terms of slots and links alone that the storage is in order: the links to
parents are the links to children turned round, and every slot is either used, at the end of
exactly one way down from the root, or waits once in the list of slots given back.
`Walkable` says of each loop over links that it ends, and visits no slot twice.

Neither mentions a tree. Both follow where the storage `Represents` a collection, that is,
where the tree of the collection lies in it and nothing else is in use: a way down the links
is a way down the tree, and the slots of the tree are all different. The single steps of the
storage represent those of the collection.
-/

namespace TaintFlow

open IntervalTree

/-! ## Ways down -/

def LinkedNode.child (node : LinkedNode) : Side → Option Nat
  | .left => node.left
  | .right => node.right

namespace LinkedSet

/-- The link to a child of the node in a slot. -/
def childAt (nodes : Array LinkedNode) (slot : Nat) (side : Side) : Option Nat :=
  nodes[slot]?.bind (·.child side)

/-- What a way down from a link leads to. -/
def follow (nodes : Array LinkedNode) : Option Nat → List Side → Option Nat
  | link, [] => link
  | link, side :: path => follow nodes (link.bind (childAt nodes · side)) path

/-- The slot at the end of a way down from the root. -/
def slotAt (s : LinkedSet) (path : List Side) : Option Nat := follow s.nodes s.root path

/-- A way down from the root leads to the slot. -/
def Used (s : LinkedSet) (slot : Nat) : Prop := ∃ path, s.slotAt path = some slot

/-- The storage is in order. -/
structure WellLinked (s : LinkedSet) : Prop where
  root_parent : ∀ slot node, s.root = some slot → s.nodes[slot]? = some node → node.parent = none
  parent_iff : ∀ slot above node, s.Used slot → s.nodes[slot]? = some node →
    (node.parent = some above ↔
      s.Used above ∧ ∃! side, childAt s.nodes above side = some slot)
  used_lt : ∀ slot, s.Used slot → slot < s.nodes.size
  free_lt : ∀ slot ∈ s.free, slot < s.nodes.size
  used_or_free : ∀ slot < s.nodes.size,
    (∃! path, s.slotAt path = some slot) ∧ slot ∉ s.free ∨
      (∀ path, s.slotAt path ≠ some slot) ∧ s.free.count slot = 1
  slots_eq : s.nodes.size = s.size + s.free.length

/-- Every loop over links ends, and visits no slot twice. -/
structure Walkable (s : LinkedSet) : Prop where
  add : ∀ x, ∃ new t visited nodes, s.alloc x = some (new, t) ∧
    Visits (descend x new) t.root.toList t.nodes visited nodes ∧ visited.Nodup
  find : ∀ x, ∃ visited found,
    Visits (compareAt s.nodes x) s.root.toList none visited found ∧ visited.Nodup ∧
      ∀ slot ∈ found, s.Used slot
  spine : ∀ path, ∃ visited passed,
    Visits (goLeft s.nodes) (s.slotAt path).toList [] visited passed ∧ visited.Nodup
  refresh : ∀ slot, s.Used slot → ∃ above t visited nodes, s.takeOut slot = some (above, t) ∧
    Visits refresh above.toList t.nodes visited nodes ∧ visited.Nodup
  list : ∃ stack visited listed, LinkedSet.spine s.nodes s.root = some stack ∧
    Visits (listAt s.nodes) stack [] visited listed ∧ visited.Nodup
  overlapping : ∀ query, ∃ visited found,
    Visits (overlapAt s.nodes query) s.root.toList [] visited found ∧ visited.Nodup
  height : ∃ visited height,
    Visits (measureAt s.nodes) (s.root.toList.map (·, 1)) 0 visited height ∧
      (visited.map Prod.fst).Nodup

theorem follow_append_side (nodes : Array LinkedNode) (link : Option Nat) (path : List Side)
    (side : Side) : follow nodes link (path ++ [side]) =
      (follow nodes link path).bind (childAt nodes · side) := by
  induction path generalizing link with
  | nil => rfl
  | cons first path ih => exact ih _

end LinkedSet

namespace IntervalTree

/-- The subtree at the end of a way down. -/
def sub : IntervalTree → List Side → IntervalTree
  | t, [] => t
  | leaf, _ :: _ => leaf
  | node _ _ _ left _, .left :: path => left.sub path
  | node _ _ _ _ right, .right :: path => right.sub path

@[simp] theorem sub_nil (t : IntervalTree) : t.sub [] = t := by
  cases t <;> rfl

@[simp] theorem sub_leaf (path : List Side) : leaf.sub path = leaf := by
  cases path <;> rfl

@[simp] theorem sub_left (slot : Nat) (y : Interval) (reach : UInt64) (left right : IntervalTree)
    (path : List Side) : (node slot y reach left right).sub (.left :: path) = left.sub path := rfl

@[simp] theorem sub_right (slot : Nat) (y : Interval) (reach : UInt64) (left right : IntervalTree)
    (path : List Side) : (node slot y reach left right).sub (.right :: path) = right.sub path := rfl

variable {t : IntervalTree} {nodes : Array LinkedNode} {parent : Option Nat}

theorem mem_occupied_iff {slot : Nat} :
    slot ∈ t.occupied ↔ ∃ path, (t.sub path).slot? = some slot := by
  induction t with
  | leaf => simp [occupied]
  | node s y reach left right ihl ihr =>
      rw [mem_occupied_node, ihl, ihr]
      constructor
      · rintro (rfl | ⟨path, hpath⟩ | ⟨path, hpath⟩)
        · exact ⟨[], rfl⟩
        · exact ⟨.left :: path, hpath⟩
        · exact ⟨.right :: path, hpath⟩
      · rintro ⟨path, hpath⟩
        cases path with
        | nil =>
            cases hpath
            exact .inl rfl
        | cons side path =>
            cases side
            · exact .inr (.inl ⟨path, hpath⟩)
            · exact .inr (.inr ⟨path, hpath⟩)

/-- Where the slots are different, one way leads to each. -/
theorem sub_inj {slot : Nat} (h : t.occupied.Nodup) {path path' : List Side}
    (hpath : (t.sub path).slot? = some slot) (hpath' : (t.sub path').slot? = some slot) :
    path = path' := by
  induction t generalizing path path' with
  | leaf => simp at hpath
  | node s y reach left right ihl ihr =>
      obtain ⟨hleft, hright, hapart⟩ := apart h
      rw [occupied, Multiset.nodup_add, Multiset.nodup_add] at h
      have onLeft {path : List Side} (hpath : (left.sub path).slot? = some slot) :
          slot ∈ left.occupied := mem_occupied_iff.mpr ⟨path, hpath⟩
      have onRight {path : List Side} (hpath : (right.sub path).slot? = some slot) :
          slot ∈ right.occupied := mem_occupied_iff.mpr ⟨path, hpath⟩
      cases path with
      | nil =>
          cases hpath
          cases path' with
          | nil => rfl
          | cons side path' =>
              cases side
              · exact absurd (onLeft hpath') hleft
              · exact absurd (onRight hpath') hright
      | cons side path =>
          cases path' with
          | nil =>
              cases hpath'
              cases side
              · exact absurd (onLeft hpath) hleft
              · exact absurd (onRight hpath) hright
          | cons side' path' =>
              cases side <;> cases side'
              · rw [ihl h.1.2.1 hpath hpath']
              · exact absurd (onRight hpath') (hapart slot (onLeft hpath))
              · exact absurd (onRight hpath) (hapart slot (onLeft hpath'))
              · rw [ihr h.2.1 hpath hpath']

theorem LaidOut.follow_eq (h : t.LaidOut nodes parent) (path : List Side) :
    LinkedSet.follow nodes t.slot? path = (t.sub path).slot? := by
  induction path generalizing t parent with
  | nil => rw [sub_nil]; rfl
  | cons side path ih =>
      cases t with
      | leaf =>
          have hleaf : leaf.LaidOut nodes none := trivial
          simpa [LinkedSet.follow] using ih hleaf
      | node s y reach left right =>
          obtain ⟨hslot, hleft, hright⟩ := h
          cases side
          · rw [sub_left, ← ih hleft]
            simp [LinkedSet.follow, LinkedSet.childAt, hslot, LinkedNode.child]
          · rw [sub_right, ← ih hright]
            simp [LinkedSet.follow, LinkedSet.childAt, hslot, LinkedNode.child]

/-- A subtree hangs below the node that its way led to before. -/
theorem LaidOut.sub_append_side (h : t.LaidOut nodes parent) (path : List Side) (side : Side) :
    (t.sub (path ++ [side])).LaidOut nodes (t.sub path).slot? := by
  induction path generalizing t parent with
  | nil =>
      cases t with
      | leaf => trivial
      | node s y reach left right =>
          cases side
          · simpa [sub] using h.2.1
          · simpa [sub] using h.2.2
  | cons first path ih =>
      cases t with
      | leaf => simp [LaidOut]
      | node s y reach left right =>
          cases first
          · exact ih h.2.1
          · exact ih h.2.2

theorem LaidOut.exists_sub (h : t.LaidOut nodes parent) (path : List Side) :
    ∃ parent', (t.sub path).LaidOut nodes parent' := by
  rcases List.eq_nil_or_concat path with rfl | ⟨path, side, rfl⟩
  · rw [sub_nil]
    exact ⟨parent, h⟩
  · rw [List.concat_eq_append]
    exact ⟨_, h.sub_append_side path side⟩

theorem occupied_sub_le (t : IntervalTree) (path : List Side) :
    (t.sub path).occupied ≤ t.occupied := by
  induction path generalizing t with
  | nil => simp
  | cons side path ih =>
      cases t with
      | leaf => simp
      | node s y reach left right =>
          rw [occupied]
          cases side
          · rw [sub_left, add_right_comm]
            exact (ih left).trans (Multiset.le_add_left _ _)
          · rw [sub_right]
            exact (ih right).trans (Multiset.le_add_left _ _)

theorem exists_plug {slot : Nat} (h : slot ∈ t.occupied) :
    ∃ turns y reach left right, t = plug turns (node slot y reach left right) := by
  induction t with
  | leaf => cases h
  | node s y reach left right ihl ihr =>
      rcases mem_occupied_node.mp h with rfl | h | h
      · exact ⟨[], y, reach, left, right, rfl⟩
      · obtain ⟨turns, z, reach', innerLeft, innerRight, rfl⟩ := ihl h
        refine ⟨turns ++ [⟨s, y, reach, .left, right⟩], z, reach', innerLeft, innerRight, ?_⟩
        rw [plug_append_turn]
        rfl
      · obtain ⟨turns, z, reach', innerLeft, innerRight, rfl⟩ := ihr h
        refine ⟨turns ++ [⟨s, y, reach, .right, left⟩], z, reach', innerLeft, innerRight, ?_⟩
        rw [plug_append_turn]
        rfl

end IntervalTree

namespace LinkedSet

/-- The tree of a collection lies in the storage, and the bookkeeping is the same. -/
structure Represents (a : LinkedSet) (s : IntervalSet) : Prop where
  laidOut : s.tree.LaidOut a.nodes none
  root_eq : a.root = s.tree.slot?
  free_eq : a.free = s.free
  size_eq : a.size = s.size
  slots_eq : a.nodes.size = s.slots

theorem represents_empty : Represents {} .empty := ⟨trivial, rfl, rfl, rfl, rfl⟩

end LinkedSet

namespace LinkedSet.Represents

variable {a : LinkedSet} {s : IntervalSet}

/-! ## Links -/

theorem slotAt_eq (h : a.Represents s) (path : List Side) :
    a.slotAt path = (s.tree.sub path).slot? := by
  rw [slotAt, h.root_eq, h.laidOut.follow_eq]

theorem used_iff (h : a.Represents s) {slot : Nat} : a.Used slot ↔ slot ∈ s.tree.occupied := by
  simp only [Used, h.slotAt_eq, mem_occupied_iff]

theorem path_unique (h : a.Represents s) (hs : s.Housed) {path path' : List Side} {slot : Nat}
    (hpath : a.slotAt path = some slot) (hpath' : a.slotAt path' = some slot) : path = path' := by
  rw [h.slotAt_eq] at hpath hpath'
  exact sub_inj hs.nodup_occupied hpath hpath'

theorem slotAt_append_side (path : List Side) (side : Side) :
    a.slotAt (path ++ [side]) = (a.slotAt path).bind (childAt a.nodes · side) :=
  follow_append_side a.nodes a.root path side

/-- The parent of a node is the node that its way led to before. -/
theorem parent_eq (h : a.Represents s) {path : List Side} {side : Side} {slot : Nat}
    {node : LinkedNode} (hpath : a.slotAt (path ++ [side]) = some slot)
    (hnode : a.nodes[slot]? = some node) : node.parent = a.slotAt path := by
  rw [h.slotAt_eq] at hpath ⊢
  have hlaid := h.laidOut.sub_append_side path side
  cases hsub : s.tree.sub (path ++ [side]) with
  | leaf => simp [hsub] at hpath
  | node k y reach left right =>
      rw [hsub] at hpath hlaid
      cases hpath
      rw [hlaid.1] at hnode
      cases hnode
      rfl

theorem root_parent (h : a.Represents s) {slot : Nat} {node : LinkedNode}
    (hroot : a.root = some slot) (hnode : a.nodes[slot]? = some node) : node.parent = none := by
  have hlaid := h.laidOut
  rw [h.root_eq] at hroot
  cases htree : s.tree with
  | leaf => simp [htree] at hroot
  | node k y reach left right =>
      rw [htree] at hroot hlaid
      cases hroot
      rw [hlaid.1] at hnode
      cases hnode
      rfl

theorem parent_iff (h : a.Represents s) (hs : s.Housed) {slot above : Nat} {node : LinkedNode}
    (hused : a.Used slot) (hnode : a.nodes[slot]? = some node) :
    node.parent = some above ↔
      a.Used above ∧ ∃! side, childAt a.nodes above side = some slot := by
  obtain ⟨path, hpath⟩ := hused
  -- a link to the slot makes a way to it, and there is one only
  have hway {path' : List Side} {side' : Side} (habove : a.slotAt path' = some above)
      (hside : childAt a.nodes above side' = some slot) : path = path' ++ [side'] := by
    refine h.path_unique hs hpath ?_
    rw [slotAt_append_side, habove, Option.bind_some, hside]
  rcases List.eq_nil_or_concat path with rfl | ⟨path, side, rfl⟩
  · rw [h.root_parent hpath hnode]
    constructor
    · intro hnone
      cases hnone
    · rintro ⟨⟨path', habove⟩, side', hside', -⟩
      have hnil := hway habove hside'
      simp at hnil
  · rw [List.concat_eq_append] at hpath hway
    rw [h.parent_eq hpath hnode]
    constructor
    · intro habove
      rw [slotAt_append_side, habove, Option.bind_some] at hpath
      refine ⟨⟨path, habove⟩, side, hpath, fun side' hside' => ?_⟩
      have hsame := hway habove hside'
      simpa using hsame.symm
    · rintro ⟨⟨path', habove⟩, side', hside', -⟩
      obtain ⟨rfl, -⟩ := List.append_inj' (hway habove hside') rfl
      exact habove

/-- Every opened slot is used or was given back, and never both. -/
theorem lt_size_iff (h : a.Represents s) (hs : s.Housed) {slot : Nat} :
    slot < a.nodes.size ↔ a.Used slot ∨ slot ∈ a.free := by
  rw [h.slots_eq, h.used_iff, h.free_eq, hs.lt_slots_iff]

theorem used_or_free (h : a.Represents s) (hs : s.Housed) {slot : Nat}
    (hslot : slot < a.nodes.size) :
    (∃! path, a.slotAt path = some slot) ∧ slot ∉ a.free ∨
      (∀ path, a.slotAt path ≠ some slot) ∧ a.free.count slot = 1 := by
  have hnodup := hs.nodup
  rw [Multiset.nodup_add, ← h.free_eq, Multiset.coe_nodup, Multiset.disjoint_left] at hnodup
  obtain ⟨-, hfree, hapart⟩ := hnodup
  rcases (h.lt_size_iff hs).mp hslot with hused | hmem
  · refine .inl ⟨?_, fun hmem => hapart (h.used_iff.mp hused) hmem⟩
    obtain ⟨path, hpath⟩ := hused
    exact ⟨path, hpath, fun path' hpath' => h.path_unique hs hpath' hpath⟩
  · refine .inr ⟨fun path hpath => hapart (h.used_iff.mp ⟨path, hpath⟩) hmem, ?_⟩
    exact List.count_eq_one_of_mem hfree hmem

theorem wellLinked (h : a.Represents s) (hs : s.Housed) (hsound : s.Sound) : a.WellLinked where
  root_parent _ _ hroot hnode := h.root_parent hroot hnode
  parent_iff _ _ _ hused hnode := h.parent_iff hs hused hnode
  used_lt _ hused := (h.lt_size_iff hs).mpr (.inl hused)
  free_lt _ hfree := (h.lt_size_iff hs).mpr (.inr hfree)
  used_or_free _ hslot := h.used_or_free hs hslot
  slots_eq := by
    rw [h.slots_eq, h.size_eq, h.free_eq, hsound.size_eq]
    exact hs.count_add_length_free.symm

/-! ## Single steps -/

/-- A node for `x` waits in slot `new`, which is the one that the collection takes for it. -/
structure Allocated (a : LinkedSet) (s : IntervalSet) (x : Interval) (new : Nat) : Prop where
  new_not_mem : new ∉ s.tree.occupied
  node_eq : a.nodes[new]? = some { interval := x, reach := x.stop }
  laidOut : s.tree.LaidOut a.nodes none
  root_eq : a.root = s.tree.slot?
  tree_eq : (s.add x).tree = s.tree.insert new x
  free_eq : a.free = (s.add x).free
  size_eq : a.size = (s.add x).size
  slots_eq : a.nodes.size = (s.add x).slots

theorem exists_alloc (h : a.Represents s) (hs : s.Housed) (x : Interval) :
    ∃ new a', a.alloc x = some (new, a') ∧ Allocated a' s x new := by
  have hfree := h.free_eq
  cases hcase : s.free with
  | nil =>
      rw [hcase] at hfree
      refine ⟨a.nodes.size, { a with nodes := a.nodes.push { interval := x, reach := x.stop }
                                     size := a.size + 1 },
        by simp [alloc, hfree], ⟨?_, by simp, ?_, h.root_eq, ?_, ?_, ?_, ?_⟩⟩
      · intro hmem
        exact absurd (h.laidOut.lt_size hmem) (Nat.lt_irrefl _)
      · refine h.laidOut.congr fun k hk => ?_
        rw [Array.getElem?_push, if_neg (Nat.ne_of_lt (h.laidOut.lt_size hk))]
      · simp [IntervalSet.add, hcase, h.slots_eq]
      · simp [IntervalSet.add, hcase, hfree]
      · simp [IntervalSet.add, hcase, h.size_eq]
      · simp [IntervalSet.add, hcase, h.slots_eq]
  | cons new free =>
      rw [hcase] at hfree
      have hmem : new ∈ a.free := hfree ▸ List.mem_cons_self
      have hlt : new < a.nodes.size := (h.lt_size_iff hs).mpr (.inr hmem)
      have hnew : new ∉ s.tree.occupied := by
        rcases h.used_or_free hs hlt with ⟨-, hfree⟩ | ⟨hunused, -⟩
        · exact absurd hmem hfree
        · intro hused
          obtain ⟨path, hpath⟩ := h.used_iff.mpr hused
          exact hunused path hpath
      obtain ⟨nodes, hupdate, hupdated⟩ := exists_update (Array.getElem?_eq_getElem hlt)
        fun _ => { interval := x, reach := x.stop }
      refine ⟨new, { a with nodes, free, size := a.size + 1 }, by simp [alloc, hfree, hupdate],
        ⟨hnew, hupdated.at_slot, hupdated.laidOut h.laidOut hnew, h.root_eq, ?_, ?_, ?_, ?_⟩⟩
      · simp [IntervalSet.add, hcase]
      · simp [IntervalSet.add, hcase]
      · simp [IntervalSet.add, hcase, h.size_eq]
      · simp [IntervalSet.add, hcase, h.slots_eq, hupdated.size_eq]

/-- The storage takes an addition, and its descent visits no slot twice. -/
theorem exists_add (h : a.Represents s) (hs : s.Housed) (x : Interval) :
    (∃ new t visited nodes, a.alloc x = some (new, t) ∧
      Visits (descend x new) t.root.toList t.nodes visited nodes ∧ visited.Nodup) ∧
    ∃ a', a.add x = some a' ∧ a'.Represents (s.add x) := by
  obtain ⟨new, t, halloc, ht⟩ := h.exists_alloc hs x
  obtain ⟨visited, nodes, hrun, hvisited, hlaid, -, hnodes⟩ :=
    ht.laidOut.descends_of_root hs.nodup_occupied ht.new_not_mem ht.node_eq
  rw [← ht.root_eq] at hrun
  rw [← ht.tree_eq] at hlaid
  have hroot := ht.root_eq
  refine ⟨⟨new, t, visited, nodes, halloc, hrun, ?_⟩, ?_⟩
  · exact Multiset.coe_nodup.mp (Multiset.nodup_of_le hvisited hs.nodup_occupied)
  · cases htree : s.tree with
    | leaf =>
        -- the new node is the root
        rw [htree] at hroot
        rw [hroot] at hrun
        cases hrun
        refine ⟨{ t with root := some new }, by simp [add, halloc, hroot],
          ⟨hlaid, ?_, ht.free_eq, ht.size_eq, ht.slots_eq⟩⟩
        rw [ht.tree_eq, htree]
        rfl
    | node k y reach left right =>
        have hne : s.tree ≠ leaf := by simp [htree]
        have hwalk := hrun.walk_eq (ht.laidOut.length_le hs.nodup_occupied hvisited)
        refine ⟨{ t with nodes }, ?_,
          ⟨hlaid, ?_, ht.free_eq, ht.size_eq, hnodes.trans ht.slots_eq⟩⟩
        · simp only [hroot, htree, slot?_node, Option.toList_some] at hwalk
          simp [add, halloc, hroot, htree, hwalk]
        · rw [ht.tree_eq, slot?_insert hne]
          exact hroot

/-- What is left where a node was taken out, and the walk upwards from there. -/
theorem exists_takeOut (h : a.Represents s) (hs : s.Housed) {turns : List Turn} {slot : Nat}
    {y : Interval} {reach : UInt64} {left right : IntervalTree}
    (htree : s.tree = plug turns (node slot y reach left right)) :
    ∃ above t visited nodes, a.takeOut slot = some (above, t) ∧
      Visits refresh above.toList t.nodes visited nodes ∧
      visited.Nodup ∧ visited.length ≤ t.nodes.size ∧
      Represents { t with nodes } { s with tree := replug turns (takeRoot slot left right).2
                                           size := s.size - 1
                                           free := (takeRoot slot left right).1 :: s.free } := by
  have hlaid := h.laidOut
  have hroot := h.root_eq
  have hnodup := hs.nodup_occupied
  rw [htree] at hlaid hroot hnodup
  obtain ⟨turns', rest, t, htake, hleft, hreplug⟩ := TaintFlow.exists_takeOut hlaid hnodup hroot
  obtain ⟨hturns, hrest⟩ := laidOut_plug.mp hleft.laidOut
  obtain ⟨nodes, hrun, hlaid', hsize⟩ := hturns.visits_refresh hrest hleft.nodup
  have hvisited : (turns'.map Turn.slot : Multiset Nat) ≤ (plug turns' rest).occupied := by
    rw [occupied_plug]
    exact le_add_of_le_of_nonneg (map_slot_le turns') (Multiset.zero_le _)
  refine ⟨above turns', t, turns'.map Turn.slot, nodes, htake, hrun,
    Multiset.coe_nodup.mp (Multiset.nodup_of_le hvisited hleft.nodup),
    hleft.laidOut.length_le hleft.nodup hvisited, ⟨?_, ?_, ?_, ?_, ?_⟩⟩
  · rw [hreplug] at hlaid'
    exact hlaid'
  · show t.root = (replug turns _).slot?
    rw [← hreplug, hleft.root_eq, slot?_replug rfl]
  · rw [← h.free_eq]
    exact hleft.free_eq
  · rw [← h.size_eq]
    exact hleft.size_eq
  · exact (hsize.trans hleft.slots_eq).trans h.slots_eq

/-- The storage takes a removal, which finds what the collection finds. -/
theorem exists_removeOne (h : a.Represents s) (hs : s.Housed) (x : Interval) :
    s.removeOne? x = none ∧ a.removeOne x = some none ∨
      ∃ a' s', s.removeOne? x = some s' ∧ a.removeOne x = some (some a') ∧ a'.Represents s' := by
  obtain ⟨visited, hvisited, hfound⟩ := h.laidOut.sought x
  have hturns := h.laidOut.length_le hs.nodup_occupied hvisited
  rw [← h.root_eq] at hfound
  rcases hfound with ⟨hnone, hrun⟩ | ⟨turns, slot, y, reach, left, right, htree, hsome, hrun⟩
  · refine .inl ⟨by simp [IntervalSet.removeOne?, hnone], ?_⟩
    simp [removeOne, find, hrun.walk_eq hturns]
  · obtain ⟨above, t, passed, nodes, htake, hup, -, hturns', hresult⟩ := h.exists_takeOut hs htree
    refine .inr ⟨{ t with nodes }, _, ?_, ?_, hresult⟩
    · simp [IntervalSet.removeOne?, hsome]
    · simp [removeOne, find, hrun.walk_eq hturns, htake, hup.walk_eq hturns']

/-! ## Answers

Asked through its links, the storage answers as the collection does. -/

theorem overlapping_eq (h : a.Represents s) (hs : s.Housed) (query : Interval) :
    a.overlapping query = some (s.overlapping query) := by
  obtain ⟨visited, hvisited, hrun⟩ := h.laidOut.visits_overlapAt query []
  have hturns := h.laidOut.length_le hs.nodup_occupied hvisited
  simp [LinkedSet.overlapping, IntervalSet.overlapping, h.root_eq, hrun.walk_eq hturns]

theorem toList_eq (h : a.Represents s) (hs : s.Housed) : a.toList = some s.toList := by
  obtain ⟨visited, hvisited, hrun⟩ := h.laidOut.visits_listAt hs.nodup_occupied []
  have hturns := h.laidOut.length_le hs.nodup_occupied hvisited
  have hspine := h.laidOut.spine_eq hs.nodup_occupied
  simp [LinkedSet.toList, IntervalSet.toList, h.root_eq, hspine, hrun.walk_eq hturns]

theorem height_eq (h : a.Represents s) (hs : s.Housed) : a.height = some s.height := by
  obtain ⟨visited, hvisited, hrun⟩ := h.laidOut.visits_measureAt (Nat.le_refl 0)
  have hturns := h.laidOut.length_le hs.nodup_occupied hvisited
  rw [List.length_map] at hturns
  simp [LinkedSet.height, IntervalSet.height, h.root_eq, hrun.walk_eq hturns]

/-! ## Walks -/

theorem walkable (h : a.Represents s) (hs : s.Housed) : a.Walkable := by
  have nodup {visited : List Nat} (hle : (visited : Multiset Nat) ≤ s.tree.occupied) :
      visited.Nodup := Multiset.coe_nodup.mp (Multiset.nodup_of_le hle hs.nodup_occupied)
  exact {
    add := fun x => (h.exists_add hs x).1
    find := by
      intro x
      obtain ⟨visited, hvisited, hfound⟩ := h.laidOut.sought x
      rw [← h.root_eq] at hfound
      rcases hfound with ⟨-, hrun⟩ | ⟨turns, slot, y, reach, left, right, htree, -, hrun⟩
      · exact ⟨visited, none, hrun, nodup hvisited, by simp⟩
      · refine ⟨visited, some slot, hrun, nodup hvisited, ?_⟩
        intro found hfound
        cases hfound
        rw [h.used_iff, htree, occupied_plug]
        simp [mem_occupied_node]
    spine := by
      intro path
      obtain ⟨parent, hlaid⟩ := h.laidOut.exists_sub path
      rw [h.slotAt_eq]
      refine ⟨_, _, hlaid.visits_goLeft [], nodup ?_⟩
      rw [Multiset.coe_reverse]
      exact (leftSpine_le _).trans (occupied_sub_le s.tree path)
    refresh := by
      intro slot hused
      obtain ⟨turns, y, reach, left, right, htree⟩ := exists_plug (h.used_iff.mp hused)
      obtain ⟨above, t, visited, nodes, htake, hrun, hvisited, -, -⟩ := h.exists_takeOut hs htree
      exact ⟨above, t, visited, nodes, htake, hrun, hvisited⟩
    list := by
      obtain ⟨visited, hvisited, hrun⟩ := h.laidOut.visits_listAt hs.nodup_occupied []
      refine ⟨_, visited, _, ?_, hrun, nodup hvisited⟩
      rw [h.root_eq, h.laidOut.spine_eq hs.nodup_occupied]
    overlapping := by
      intro query
      obtain ⟨visited, hvisited, hrun⟩ := h.laidOut.visits_overlapAt query []
      rw [h.root_eq]
      exact ⟨visited, _, hrun, nodup hvisited⟩
    height := by
      obtain ⟨visited, hvisited, hrun⟩ := h.laidOut.visits_measureAt (Nat.le_refl 0)
      rw [h.root_eq]
      exact ⟨visited, _, hrun, nodup hvisited⟩
  }

end LinkedSet.Represents

end TaintFlow
