import TaintFlow.Address.LinkedSet
import TaintFlow.Proofs.Storage

/-!
# Trees in linked storage

`LaidOut` says that a tree lies in the storage: every node in its slot, with its record, the
slots of its children at the ends of its links, and that of the node above as its parent. It
reads the slots of the tree and no others, so a change elsewhere does not touch it.

A loop over a tree that is laid out goes the way that the recursion on the tree goes. `Visits`
is one run of a loop, from the entries on top of the stack until these and all that took
their place are gone; it does not look at the rest of the stack, so the runs below two
children join to the run of their parent. Each run here visits slots of the tree only, none
of them twice, which is said by comparing multisets.
-/

namespace TaintFlow

/-! ## Runs of a loop -/

/-- A run of the loop of `walk` over some entries, from one state to another, however many
turns it takes. -/
inductive Visits {τ σ : Type} (body : τ → σ → Option (List τ × σ)) :
    List τ → σ → List τ → σ → Prop where
  | done (state : σ) : Visits body [] state [] state
  | visit {entry : τ} {stack next visited : List τ} {state between last : σ}
      (hbody : body entry state = some (next, between))
      (hrest : Visits body (next ++ stack) between visited last) :
      Visits body (entry :: stack) state (entry :: visited) last

namespace Visits

variable {τ σ : Type} {body : τ → σ → Option (List τ × σ)}

/-- A loop with turns enough for a run does what the run does. -/
theorem walk_eq {stack visited : List τ} {state last : σ} {turns : Nat}
    (h : Visits body stack state visited last) (hturns : visited.length ≤ turns) :
    walk body turns stack state = some (visited, last) := by
  induction h generalizing turns with
  | done state => rw [walk]
  | visit hbody _ ih =>
      cases turns with
      | zero => cases hturns
      | succ turns =>
          rw [walk, hbody]
          simp [ih (Nat.le_of_succ_le_succ hturns)]

theorem append {first second visited visited' : List τ} {state between last : σ}
    (h : Visits body first state visited between)
    (h' : Visits body second between visited' last) :
    Visits body (first ++ second) state (visited ++ visited') last := by
  induction h with
  | done state => exact h'
  | visit hbody _ ih =>
      refine .visit hbody ?_
      simpa [List.append_assoc] using ih h'

/-- One entry, and then what takes its place. -/
theorem single {entry : τ} {next visited : List τ} {state between last : σ}
    (hbody : body entry state = some (next, between))
    (hrest : Visits body next between visited last) :
    Visits body [entry] state (entry :: visited) last := by
  refine .visit hbody ?_
  rwa [List.append_nil]

end Visits

/-! ## Slots -/

namespace IntervalTree

/-- The slot of the root. -/
def slot? : IntervalTree → Option Nat
  | leaf => none
  | node slot _ _ _ _ => some slot

@[simp] theorem slot?_leaf : slot? leaf = none := rfl

@[simp] theorem slot?_node (slot : Nat) (y : Interval) (reach : UInt64)
    (left right : IntervalTree) : slot? (node slot y reach left right) = some slot := rfl

theorem slot?_eq_none {t : IntervalTree} : t.slot? = none ↔ t = leaf := by
  cases t <;> simp

theorem mem_occupied_node {slot k : Nat} {y : Interval} {reach : UInt64}
    {left right : IntervalTree} :
    k ∈ (node slot y reach left right).occupied ↔
      k = slot ∨ k ∈ left.occupied ∨ k ∈ right.occupied := by
  simp [occupied]

theorem mem_occupied_of_slot? {t : IntervalTree} {slot : Nat} (h : t.slot? = some slot) :
    slot ∈ t.occupied := by
  cases t with
  | leaf => cases h
  | node s y reach left right =>
      cases h
      simp [mem_occupied_node]

/-- Where the slots are different, none is on two sides. -/
theorem apart {slot : Nat} {y : Interval} {reach : UInt64} {left right : IntervalTree}
    (h : (node slot y reach left right).occupied.Nodup) :
    slot ∉ left.occupied ∧ slot ∉ right.occupied ∧ ∀ k ∈ left.occupied, k ∉ right.occupied := by
  rw [occupied, Multiset.nodup_add, Multiset.nodup_add, Multiset.disjoint_left,
    Multiset.disjoint_left] at h
  obtain ⟨⟨-, -, hleft⟩, -, hright⟩ := h
  refine ⟨hleft (by simp), hright (by simp), fun k hk => hright ?_⟩
  exact Multiset.mem_add.mpr (.inr hk)

theorem nodup_below {slot : Nat} {y : Interval} {reach : UInt64} {left right : IntervalTree}
    (h : (node slot y reach left right).occupied.Nodup) :
    left.occupied.Nodup ∧ right.occupied.Nodup := by
  rw [occupied, Multiset.nodup_add, Multiset.nodup_add] at h
  exact ⟨h.1.2.1, h.2.1⟩

/-- The root, and what is visited of the subtrees. -/
theorem cons_visited_le {slot : Nat} {y : Interval} {reach : UInt64} {left right : IntervalTree}
    {visited : List Nat} (h : (visited : Multiset Nat) ≤ left.occupied + right.occupied) :
    ((slot :: visited : List Nat) : Multiset Nat) ≤ (node slot y reach left right).occupied := by
  rw [← Multiset.cons_coe, ← Multiset.singleton_add, occupied, add_assoc]
  exact add_le_add_right h _

/-! ## Layout -/

/-- Every node of the tree lies in its slot, linked to its children and the node above. -/
def LaidOut (nodes : Array LinkedNode) (parent : Option Nat) : IntervalTree → Prop
  | leaf => True
  | node slot interval reach left right =>
      nodes[slot]? = some ⟨interval, reach, parent, left.slot?, right.slot?⟩ ∧
        left.LaidOut nodes (some slot) ∧ right.LaidOut nodes (some slot)

/-- The slots outside the tree do not matter. -/
theorem LaidOut.congr {t : IntervalTree} {nodes nodes' : Array LinkedNode} {parent : Option Nat}
    (h : t.LaidOut nodes parent) (hsame : ∀ k ∈ t.occupied, nodes'[k]? = nodes[k]?) :
    t.LaidOut nodes' parent := by
  induction t generalizing parent with
  | leaf => trivial
  | node slot y reach left right ihl ihr =>
      obtain ⟨hslot, hleft, hright⟩ := h
      simp only [mem_occupied_node] at hsame
      refine ⟨?_, ihl hleft fun k hk => hsame k (.inr (.inl hk)),
        ihr hright fun k hk => hsame k (.inr (.inr hk))⟩
      rw [hsame slot (.inl rfl), hslot]

theorem LaidOut.reachAt_eq {t : IntervalTree} {nodes : Array LinkedNode} {parent : Option Nat}
    (h : t.LaidOut nodes parent) : LinkedSet.reachAt nodes t.slot? = some t.reach := by
  cases t with
  | leaf => rfl
  | node slot y reach left right => simp [LinkedSet.reachAt, h.1, IntervalTree.reach]

theorem LaidOut.lt_size {t : IntervalTree} {nodes : Array LinkedNode} {parent : Option Nat}
    (h : t.LaidOut nodes parent) {k : Nat} (hk : k ∈ t.occupied) : k < nodes.size := by
  induction t generalizing parent with
  | leaf => cases hk
  | node slot y reach left right ihl ihr =>
      obtain ⟨hslot, hleft, hright⟩ := h
      rcases mem_occupied_node.mp hk with rfl | hk | hk
      · exact (Array.getElem?_eq_some_iff.mp hslot).1
      · exact ihl hleft hk
      · exact ihr hright hk

/-- Where the slots are different, there are no more visits than slots. -/
theorem LaidOut.length_le {t : IntervalTree} {nodes : Array LinkedNode} {parent : Option Nat}
    (h : t.LaidOut nodes parent) (hnodup : t.occupied.Nodup) {visited : List Nat}
    (hvisited : (visited : Multiset Nat) ≤ t.occupied) : visited.length ≤ nodes.size := by
  have hslots : t.occupied ≤ Multiset.range nodes.size :=
    (Multiset.le_iff_subset hnodup).mpr fun k hk => Multiset.mem_range.mpr (h.lt_size hk)
  have hcard := Multiset.card_le_card (hvisited.trans hslots)
  rwa [Multiset.coe_card, Multiset.card_range] at hcard

/-! ## Loops that read -/

/-- The slots from the root on to the left, the last first. -/
def leftSpine : IntervalTree → List Nat
  | leaf => []
  | node slot _ _ left _ => left.leftSpine ++ [slot]

theorem leftSpine_le (t : IntervalTree) : (t.leftSpine : Multiset Nat) ≤ t.occupied := by
  induction t with
  | leaf => exact le_refl 0
  | node slot y reach left right ihl _ =>
      have hspine : (left.leftSpine ++ [slot]).Perm (slot :: left.leftSpine) :=
        List.perm_append_singleton slot left.leftSpine
      rw [leftSpine, Multiset.coe_eq_coe.mpr hspine]
      exact cons_visited_le (le_add_of_le_of_nonneg ihl (Multiset.zero_le _))

variable {nodes : Array LinkedNode} {parent : Option Nat} {t : IntervalTree}

theorem LaidOut.visits_goLeft (h : t.LaidOut nodes parent) (passed : List Nat) :
    Visits (LinkedSet.goLeft nodes) t.slot?.toList passed t.leftSpine.reverse
      (t.leftSpine ++ passed) := by
  induction t generalizing parent passed with
  | leaf => exact .done passed
  | node slot y reach left right ihl _ =>
      obtain ⟨hslot, hleft, -⟩ := h
      have hbody : LinkedSet.goLeft nodes slot passed =
          some (left.slot?.toList, slot :: passed) := by simp [LinkedSet.goLeft, hslot]
      have hrest := Visits.single hbody (ihl hleft (slot :: passed))
      simpa [leftSpine] using hrest

theorem LaidOut.spine_eq (h : t.LaidOut nodes parent) (hnodup : t.occupied.Nodup) :
    LinkedSet.spine nodes t.slot? = some t.leftSpine := by
  have hlength : t.leftSpine.reverse.length ≤ nodes.size := by
    rw [List.length_reverse]
    exact h.length_le hnodup t.leftSpine_le
  simp [LinkedSet.spine, (h.visits_goLeft []).walk_eq hlength]

/-- The listing takes the nodes from the stack in ascending order. -/
theorem LaidOut.visits_listAt (h : t.LaidOut nodes parent) (hnodup : t.occupied.Nodup)
    (listed : List Interval) :
    ∃ visited : List Nat, (visited : Multiset Nat) ≤ t.occupied ∧
      Visits (LinkedSet.listAt nodes) t.leftSpine listed visited (listed ++ t.inOrder) := by
  induction t generalizing parent listed with
  | leaf =>
      refine ⟨[], le_refl 0, ?_⟩
      rw [inOrder_leaf, List.append_nil]
      exact .done listed
  | node slot y reach left right ihl ihr =>
      obtain ⟨hslot, hleft, hright⟩ := h
      obtain ⟨hl, hr⟩ := nodup_below hnodup
      obtain ⟨first, hfirst, hbefore⟩ := ihl hleft hl listed
      obtain ⟨last, hlast, hafter⟩ := ihr hright hr (listed ++ left.inOrder ++ [y])
      have hbody : LinkedSet.listAt nodes slot (listed ++ left.inOrder) =
          some (right.leftSpine, listed ++ left.inOrder ++ [y]) := by
        simp [LinkedSet.listAt, hslot, hright.spine_eq hr]
      refine ⟨first ++ slot :: last, ?_, ?_⟩
      · rw [Multiset.coe_eq_coe.mpr List.perm_middle]
        refine cons_visited_le ?_
        rw [← Multiset.coe_add]
        exact add_le_add hfirst hlast
      · have hrun := hbefore.append (.single hbody hafter)
        simpa [leftSpine] using hrun

theorem overlappingOnto_eq_append (query : Interval) (t : IntervalTree) (acc : List Interval) :
    t.overlappingOnto query acc = t.overlapping query ++ acc := by
  induction t generalizing acc with
  | leaf => rfl
  | node slot y reach left right ihl ihr =>
      simp only [overlapping, overlappingOnto]
      rw [ihr acc, ihr [], ihl, ihl (if y.start < query.stop then _ else _)]
      by_cases hskip : reach ≤ query.start
      · simp [hskip]
      · by_cases hright : y.start < query.stop <;> by_cases hroot : y.overlaps query = true <;>
          simp [hskip, hright, hroot]

theorem overlapping_node (query : Interval) (slot : Nat) (y : Interval) (reach : UInt64)
    (left right : IntervalTree) :
    (node slot y reach left right).overlapping query =
      if reach ≤ query.start then []
      else (if y.overlaps query then [y] else []) ++
        (left.overlapping query ++ if y.start < query.stop then right.overlapping query else []) := by
  rw [overlapping, overlappingOnto]
  simp only [overlappingOnto_eq_append]
  by_cases hskip : reach ≤ query.start
  · simp [hskip]
  · by_cases hright : y.start < query.stop <;> by_cases hroot : y.overlaps query = true <;>
      simp [hskip, hright, hroot]

/-- A query goes through a tree from the root downwards, the left side first. -/
theorem LaidOut.visits_overlapAt (h : t.LaidOut nodes parent) (query : Interval)
    (found : List Interval) :
    ∃ visited : List Nat, (visited : Multiset Nat) ≤ t.occupied ∧
      Visits (LinkedSet.overlapAt nodes query) t.slot?.toList found visited
        (found ++ t.overlapping query) := by
  induction t generalizing parent found with
  | leaf =>
      refine ⟨[], le_refl 0, ?_⟩
      simpa [overlapping, overlappingOnto] using Visits.done found
  | node slot y reach left right ihl ihr =>
      obtain ⟨hslot, hleft, hright⟩ := h
      rw [overlapping_node]
      by_cases hskip : reach ≤ query.start
      · -- nothing below ends after the query starts
        refine ⟨[slot], cons_visited_le (Multiset.zero_le _), ?_⟩
        have hbody : LinkedSet.overlapAt nodes query slot found = some ([], found) := by
          simp [LinkedSet.overlapAt, hslot, hskip]
        simpa [hskip] using Visits.single hbody (.done found)
      · let more := if y.overlaps query then [y] else []
        obtain ⟨first, hfirst, hbefore⟩ := ihl hleft (found ++ more)
        let onRight := if y.start < query.stop then right.slot?.toList else []
        have hafter : ∃ last : List Nat, (last : Multiset Nat) ≤ right.occupied ∧
            Visits (LinkedSet.overlapAt nodes query) onRight
              (found ++ more ++ left.overlapping query) last
              (found ++ more ++ left.overlapping query ++
                if y.start < query.stop then right.overlapping query else []) := by
          by_cases hon : y.start < query.stop
          · simpa [onRight, hon] using ihr hright (found ++ more ++ left.overlapping query)
          · refine ⟨[], Multiset.zero_le _, ?_⟩
            simpa [onRight, hon] using Visits.done (found ++ more ++ left.overlapping query)
        obtain ⟨last, hlast, hafter⟩ := hafter
        have hbody : LinkedSet.overlapAt nodes query slot found =
            some (left.slot?.toList ++ onRight, found ++ more) := by
          simp [LinkedSet.overlapAt, hslot, hskip, onRight, more]
        refine ⟨slot :: (first ++ last), cons_visited_le ?_, ?_⟩
        · rw [← Multiset.coe_add]
          exact add_le_add hfirst hlast
        · rw [if_neg hskip]
          simpa using Visits.single hbody (hbefore.append hafter)

/-- A measurement takes the depth of the deepest node, counted from above the root. -/
theorem LaidOut.visits_measureAt (h : t.LaidOut nodes parent) {depth height : Nat}
    (hdepth : depth ≤ height) :
    ∃ visited : List (Nat × Nat), (visited.map Prod.fst : Multiset Nat) ≤ t.occupied ∧
      Visits (LinkedSet.measureAt nodes) (t.slot?.toList.map (·, depth + 1)) height visited
        (max height (depth + t.height)) := by
  induction t generalizing parent depth height with
  | leaf =>
      refine ⟨[], le_refl 0, ?_⟩
      simpa [IntervalTree.height, hdepth] using Visits.done height
  | node slot y reach left right ihl ihr =>
      obtain ⟨hslot, hleft, hright⟩ := h
      obtain ⟨first, hfirst, hbefore⟩ := ihr hright (Nat.le_max_right height (depth + 1))
      obtain ⟨last, hlast, hafter⟩ := ihl hleft
        (show depth + 1 ≤ max (max height (depth + 1)) (depth + 1 + right.height) by omega)
      have hbody : LinkedSet.measureAt nodes (slot, depth + 1) height =
          some (right.slot?.toList.map (·, depth + 1 + 1) ++
            left.slot?.toList.map (·, depth + 1 + 1), max height (depth + 1)) := by
        simp [LinkedSet.measureAt, hslot]
      refine ⟨(slot, depth + 1) :: (first ++ last), ?_, ?_⟩
      · rw [List.map_cons, List.map_append]
        refine cons_visited_le ?_
        rw [← Multiset.coe_add, add_comm]
        exact add_le_add hlast hfirst
      · have hheight : max height (depth + (node slot y reach left right).height) =
            max (max (max height (depth + 1)) (depth + 1 + right.height))
              (depth + 1 + left.height) := by
          simp only [IntervalTree.height]
          omega
        rw [hheight]
        exact Visits.single hbody (hbefore.append hafter)

end IntervalTree

/-! ## Changes of one node -/

/-- The storage was changed in one slot. -/
structure Updated (nodes : Array LinkedNode) (slot : Nat) (node : LinkedNode)
    (nodes' : Array LinkedNode) : Prop where
  at_slot : nodes'[slot]? = some node
  elsewhere : ∀ k, k ≠ slot → nodes'[k]? = nodes[k]?
  size_eq : nodes'.size = nodes.size

theorem exists_update {nodes : Array LinkedNode} {slot : Nat} {node : LinkedNode}
    (h : nodes[slot]? = some node) (change : LinkedNode → LinkedNode) :
    ∃ nodes', LinkedSet.update nodes slot change = some nodes' ∧
      Updated nodes slot (change node) nodes' := by
  have hlt : slot < nodes.size := (Array.getElem?_eq_some_iff.mp h).1
  refine ⟨nodes.setIfInBounds slot (change node), by simp [LinkedSet.update, h], ?_, ?_, ?_⟩
  · simp [hlt]
  · intro k hk
    rw [Array.getElem?_setIfInBounds_ne (Ne.symm hk)]
  · exact Array.size_setIfInBounds

theorem Updated.laidOut {nodes nodes' : Array LinkedNode} {slot : Nat} {node : LinkedNode}
    (h : Updated nodes slot node nodes') {t : IntervalTree} {parent : Option Nat}
    (ht : t.LaidOut nodes parent) (hslot : slot ∉ t.occupied) : t.LaidOut nodes' parent := by
  refine ht.congr fun k hk => h.elsewhere k ?_
  rintro rfl
  exact hslot hk

end TaintFlow
