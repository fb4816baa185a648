import TaintFlow.Proofs.LinkedTree

/-!
# Changes of trees in linked storage

A change follows one way down a tree, and the links that it sets are those along this way. A
`Turn` is a node on the way, with the subtree that the way leaves behind; a tree is the turns
above a place, from the nearest to the root, filled with the subtree at the place. Both
directions are one case then: what a turn does with the link to the next node does not
depend on the side.

An addition goes down the way and changes the storage while it goes, so its proof is an
induction on the tree. A removal changes the links at one place, which leaves the turns above
laid out with stale records, and then goes up: the proof for the second half is an induction
on the turns, and ends in the tree that the recursion on the way back up builds.
-/

namespace TaintFlow

open IntervalTree

inductive Side where
  | left
  | right
deriving DecidableEq

/-- A node on a way down, with the subtree on its other side. -/
structure Turn where
  slot : Nat
  interval : Interval
  reach : UInt64
  /-- Where the way goes on. -/
  side : Side
  other : IntervalTree

namespace Turn

/-- The tree at the node, given the subtree that the way goes on into. -/
def fill (f : Turn) (t : IntervalTree) : IntervalTree :=
  match f.side with
  | .left => node f.slot f.interval f.reach t f.other
  | .right => node f.slot f.interval f.reach f.other t

/-- The record that the two subtrees ask for. -/
def fresh (f : Turn) (t : IntervalTree) : UInt64 :=
  match f.side with
  | .left => max f.interval.stop (max t.reach f.other.reach)
  | .right => max f.interval.stop (max f.other.reach t.reach)

/-- The tree at the node, whose record is taken anew. -/
def refill (f : Turn) (t : IntervalTree) : IntervalTree :=
  { f with reach := f.fresh t }.fill t

/-- The node in the storage. -/
def linked (f : Turn) (parent child : Option Nat) : LinkedNode :=
  match f.side with
  | .left => ⟨f.interval, f.reach, parent, child, f.other.slot?⟩
  | .right => ⟨f.interval, f.reach, parent, f.other.slot?, child⟩

variable {f : Turn} {t : IntervalTree} {nodes : Array LinkedNode} {parent child : Option Nat}

@[simp] theorem slot?_fill (f : Turn) (t : IntervalTree) : (f.fill t).slot? = some f.slot := by
  obtain ⟨slot, y, reach, side, other⟩ := f
  cases side <;> rfl

theorem laidOut_fill : (f.fill t).LaidOut nodes parent ↔
    nodes[f.slot]? = some (f.linked parent t.slot?) ∧
      f.other.LaidOut nodes (some f.slot) ∧ t.LaidOut nodes (some f.slot) := by
  obtain ⟨slot, y, reach, side, other⟩ := f
  cases side
  · simp only [fill, linked, LaidOut]
    rw [and_comm (a := t.LaidOut nodes (some slot))]
  · simp only [fill, linked, LaidOut]

theorem occupied_fill : (f.fill t).occupied = {f.slot} + f.other.occupied + t.occupied := by
  obtain ⟨slot, y, reach, side, other⟩ := f
  cases side
  · simp only [fill, occupied]
    ac_rfl
  · rfl

theorem occupied_refill : (f.refill t).occupied = (f.fill t).occupied := by
  rw [refill, occupied_fill, occupied_fill]

theorem apart (h : (f.fill t).occupied.Nodup) :
    f.slot ∉ f.other.occupied ∧ f.slot ∉ t.occupied ∧ ∀ k ∈ f.other.occupied, k ∉ t.occupied := by
  obtain ⟨slot, y, reach, side, other⟩ := f
  cases side
  · obtain ⟨ht, hother, hapart⟩ := IntervalTree.apart h
    exact ⟨hother, ht, fun k hk hkt => hapart k hkt hk⟩
  · exact IntervalTree.apart h

/-! ## Additions -/

/-- The way goes on to where a start belongs. -/
def Leads (f : Turn) (start : UInt64) : Prop :=
  match f.side with
  | .left => start < f.interval.start
  | .right => ¬ start < f.interval.start

theorem Leads.towards_eq {start : UInt64} (h : f.Leads start) :
    (f.linked parent child).towards start = child := by
  obtain ⟨slot, y, reach, side, other⟩ := f
  cases side
  · exact if_pos h
  · exact if_neg h

theorem Leads.attach_eq {start : UInt64} (h : f.Leads start) (new : Nat) :
    (f.linked parent child).attach start new = f.linked parent (some new) := by
  obtain ⟨slot, y, reach, side, other⟩ := f
  cases side
  · exact if_pos h
  · exact if_neg h

/-- The node after a descent to its far side, with another end in its record. -/
def raise (f : Turn) (stop : UInt64) : Turn := { f with reach := max f.reach stop }

theorem Leads.insert_eq {x : Interval} (h : f.Leads x.start) (new : Nat) :
    (f.fill t).insert new x = (f.raise x.stop).fill (t.insert new x) := by
  obtain ⟨slot, y, reach, side, other⟩ := f
  cases side
  · exact if_pos h
  · exact if_neg h

theorem exists_raised (h : nodes[f.slot]? = some (f.linked parent child)) (stop : UInt64) :
    ∃ nodes', LinkedSet.update nodes f.slot
        (fun node => { node with reach := max node.reach stop }) = some nodes' ∧
      Updated nodes f.slot ((f.raise stop).linked parent child) nodes' := by
  obtain ⟨nodes', hupdate, hraised⟩ := exists_update h
    fun node => { node with reach := max node.reach stop }
  refine ⟨nodes', hupdate, ?_⟩
  obtain ⟨slot, y, reach, side, other⟩ := f
  cases side
  · exact hraised
  · exact hraised

end Turn

theorem IntervalTree.slot?_insert {t : IntervalTree} (h : t ≠ leaf) (new : Nat) (x : Interval) :
    (t.insert new x).slot? = t.slot? := by
  cases t with
  | leaf => exact absurd rfl h
  | node slot y reach left right =>
      rw [IntervalTree.insert]
      split <;> rfl

/-- From the root of `t`, the descent for `x` links the node in slot `new` below `t`. -/
def Descends (x : Interval) (new : Nat) (nodes : Array LinkedNode) (parent : Option Nat)
    (t : IntervalTree) : Prop :=
  ∃ (visited : List Nat) (nodes' : Array LinkedNode),
    Visits (LinkedSet.descend x new) t.slot?.toList nodes visited nodes' ∧
      (visited : Multiset Nat) ≤ t.occupied ∧ (t.insert new x).LaidOut nodes' parent ∧
      (∀ k, k ∉ t.occupied → k ≠ new → nodes'[k]? = nodes[k]?) ∧ nodes'.size = nodes.size

section Descent

variable {f : Turn} {t : IntervalTree} {nodes : Array LinkedNode} {parent : Option Nat}
  {x : Interval} {new : Nat}

/-- The descent ends where there is no further node: the new one is linked here, both ways. -/
theorem Turn.Leads.descends_end (hleads : f.Leads x.start)
    (h : (f.fill leaf).LaidOut nodes parent) (hnodup : (f.fill leaf).occupied.Nodup)
    (hnew : new ∉ (f.fill leaf).occupied)
    (hnode : nodes[new]? = some { interval := x, reach := x.stop }) :
    Descends x new nodes parent (f.fill leaf) := by
  obtain ⟨hslot, hother, -⟩ := laidOut_fill.mp h
  rw [slot?_leaf] at hslot
  obtain ⟨hfo, -, -⟩ := apart hnodup
  have htowards : ((f.raise x.stop).linked parent none).towards x.start = none :=
    towards_eq (f := f.raise x.stop) hleads
  have hattach : ((f.raise x.stop).linked parent none).attach x.start new =
      (f.raise x.stop).linked parent (some new) := attach_eq (f := f.raise x.stop) hleads new
  simp only [occupied_fill, Multiset.mem_add, Multiset.mem_singleton, not_or] at hnew
  obtain ⟨⟨hnf, hno⟩, -⟩ := hnew
  obtain ⟨first, hfirst, hraised⟩ := exists_raised hslot x.stop
  obtain ⟨second, hsecond, hattached⟩ :=
    exists_update hraised.at_slot fun node => node.attach x.start new
  have hnode : second[new]? = some { interval := x, reach := x.stop } := by
    rw [hattached.elsewhere new hnf, hraised.elsewhere new hnf, hnode]
  obtain ⟨third, hthird, hhung⟩ :=
    exists_update hnode fun node => { node with parent := some f.slot }
  have hbody : LinkedSet.descend x new f.slot nodes = some ([], third) := by
    simp [LinkedSet.descend, hfirst, hraised.at_slot, htowards, hsecond, hthird]
  rw [Descends, slot?_fill, hleads.insert_eq, occupied_fill]
  refine ⟨[f.slot], third, .single hbody (.done third), ?_, laidOut_fill.mpr ⟨?_, ?_, ?_⟩, ?_, ?_⟩
  · rw [add_assoc]
    exact le_add_of_le_of_nonneg (le_refl {f.slot}) (Multiset.zero_le _)
  · show third[f.slot]? = some ((f.raise x.stop).linked parent (some new))
    rw [← hattach, ← hattached.at_slot]
    exact hhung.elsewhere f.slot (Ne.symm hnf)
  · exact hhung.laidOut (hattached.laidOut (hraised.laidOut hother hfo) hfo) hno
  · exact ⟨hhung.at_slot, trivial, trivial⟩
  · intro k hk hkn
    have hkf : k ≠ f.slot := fun hkf => hk (by simp [hkf])
    rw [hhung.elsewhere k hkn, hattached.elsewhere k hkf, hraised.elsewhere k hkf]
  · rw [hhung.size_eq, hattached.size_eq, hraised.size_eq]

/-- The descent goes on, with what it does further down. -/
theorem Turn.Leads.descends_on (hleads : f.Leads x.start) {child : Nat}
    (ht : t.slot? = some child) (h : (f.fill t).LaidOut nodes parent)
    (hnodup : (f.fill t).occupied.Nodup) (hnew : new ∉ (f.fill t).occupied)
    (ih : ∀ nodes', t.LaidOut nodes' (some f.slot) → nodes'[new]? = nodes[new]? →
      Descends x new nodes' (some f.slot) t) :
    Descends x new nodes parent (f.fill t) := by
  obtain ⟨hslot, hother, hlaid⟩ := laidOut_fill.mp h
  obtain ⟨hfo, hft, hot⟩ := apart hnodup
  have htowards : ((f.raise x.stop).linked parent t.slot?).towards x.start = t.slot? :=
    towards_eq (f := f.raise x.stop) hleads
  simp only [occupied_fill, Multiset.mem_add, Multiset.mem_singleton, not_or] at hnew
  obtain ⟨⟨hnf, hno⟩, hnt⟩ := hnew
  obtain ⟨first, hfirst, hraised⟩ := exists_raised hslot x.stop
  obtain ⟨visited, last, hrun, hvisited, hresult, hframe, hsize⟩ :=
    ih first (hraised.laidOut hlaid hft) (hraised.elsewhere new hnf)
  have hbody : LinkedSet.descend x new f.slot nodes = some (t.slot?.toList, first) := by
    rw [ht] at htowards hraised ⊢
    simp [LinkedSet.descend, hfirst, hraised.at_slot, htowards]
  have hne : t ≠ leaf := fun hleaf => by simp [hleaf] at ht
  rw [Descends, slot?_fill, hleads.insert_eq, occupied_fill]
  refine ⟨f.slot :: visited, last, .single hbody hrun, ?_,
    laidOut_fill.mpr ⟨?_, ?_, hresult⟩, ?_, hsize.trans hraised.size_eq⟩
  · rw [← Multiset.cons_coe, ← Multiset.singleton_add, add_assoc]
    exact add_le_add_right (le_add_of_nonneg_of_le (Multiset.zero_le _) hvisited) _
  · rw [slot?_insert hne, ← hraised.at_slot]
    exact hframe f.slot hft (Ne.symm hnf)
  · refine (hraised.laidOut hother hfo).congr fun k hk => hframe k (hot k hk) ?_
    rintro rfl
    exact hno hk
  · intro k hk hkn
    rw [Multiset.mem_add, Multiset.mem_add, Multiset.mem_singleton, not_or, not_or] at hk
    rw [hframe k hk.2 hkn, hraised.elsewhere k hk.1.1]

theorem Turn.Leads.descends (hleads : f.Leads x.start) (h : (f.fill t).LaidOut nodes parent)
    (hnodup : (f.fill t).occupied.Nodup) (hnew : new ∉ (f.fill t).occupied)
    (hnode : nodes[new]? = some { interval := x, reach := x.stop })
    (ih : t ≠ leaf → ∀ nodes', t.LaidOut nodes' (some f.slot) → nodes'[new]? = nodes[new]? →
      Descends x new nodes' (some f.slot) t) :
    Descends x new nodes parent (f.fill t) := by
  cases t with
  | leaf => exact hleads.descends_end h hnodup hnew hnode
  | node slot y reach left right =>
      exact hleads.descends_on rfl h hnodup hnew (ih fun hleaf => by cases hleaf)

theorem IntervalTree.LaidOut.descends (h : t.LaidOut nodes parent) (ht : t ≠ leaf)
    (hnodup : t.occupied.Nodup) (hnew : new ∉ t.occupied)
    (hnode : nodes[new]? = some { interval := x, reach := x.stop }) :
    Descends x new nodes parent t := by
  induction t generalizing nodes parent with
  | leaf => exact absurd rfl ht
  | node slot y reach left right ihl ihr =>
      obtain ⟨hl, hr⟩ := nodup_below hnodup
      have hnewBelow := hnew
      simp only [mem_occupied_node, not_or] at hnewBelow
      obtain ⟨-, hnewLeft, hnewRight⟩ := hnewBelow
      by_cases hside : x.start < y.start
      · have hleads : Turn.Leads ⟨slot, y, reach, .left, right⟩ x.start := hside
        exact hleads.descends (t := left) h hnodup hnew hnode fun hleft nodes' hlaid hsame =>
          ihl hlaid hleft hl hnewLeft (hsame.trans hnode)
      · have hleads : Turn.Leads ⟨slot, y, reach, .right, left⟩ x.start := hside
        exact hleads.descends (t := right) h hnodup hnew hnode fun hright nodes' hlaid hsame =>
          ihr hlaid hright hr hnewRight (hsame.trans hnode)

/-- In an empty tree the new node is the root. -/
theorem IntervalTree.LaidOut.descends_of_root (h : t.LaidOut nodes none)
    (hnodup : t.occupied.Nodup) (hnew : new ∉ t.occupied)
    (hnode : nodes[new]? = some { interval := x, reach := x.stop }) :
    Descends x new nodes none t := by
  cases t with
  | leaf =>
      exact ⟨[], nodes, .done nodes, Multiset.zero_le _, ⟨hnode, trivial, trivial⟩,
        fun _ _ _ => rfl, rfl⟩
  | node slot y reach left right =>
      exact h.descends (fun hleaf => by cases hleaf) hnodup hnew hnode

end Descent

/-! ## Places -/

/-- The tree around a place, from the nearest turn to the root. -/
def plug (turns : List Turn) (t : IntervalTree) : IntervalTree :=
  turns.foldl (fun t f => f.fill t) t

/-- The same with the records taken anew on the way up. -/
def replug (turns : List Turn) (t : IntervalTree) : IntervalTree :=
  turns.foldl (fun t f => f.refill t) t

/-- The slot of the node above a place. -/
def above (turns : List Turn) : Option Nat := turns.head?.map Turn.slot

/-- The slots around a place. -/
def around : List Turn → Multiset Nat
  | [] => 0
  | f :: turns => {f.slot} + f.other.occupied + around turns

/-- The turns above a place lie in the storage; `child` is the link to the place. -/
def Surrounds (nodes : Array LinkedNode) : List Turn → Option Nat → Prop
  | [], _ => True
  | f :: turns, child =>
      nodes[f.slot]? = some (f.linked (above turns) child) ∧
        f.other.LaidOut nodes (some f.slot) ∧ Surrounds nodes turns (some f.slot)

section Places

variable {turns : List Turn} {t u : IntervalTree} {nodes nodes' : Array LinkedNode}
  {child : Option Nat}

@[simp] theorem plug_cons (f : Turn) : plug (f :: turns) t = plug turns (f.fill t) := rfl

theorem occupied_plug : (plug turns t).occupied = around turns + t.occupied := by
  induction turns generalizing t with
  | nil => simp [plug, around]
  | cons f turns ih =>
      rw [plug_cons, ih, Turn.occupied_fill, around]
      ac_rfl

theorem laidOut_plug : (plug turns t).LaidOut nodes none ↔
    Surrounds nodes turns t.slot? ∧ t.LaidOut nodes (above turns) := by
  induction turns generalizing t with
  | nil => simp [plug, Surrounds, above]
  | cons f turns ih =>
      rw [plug_cons, ih, Turn.slot?_fill, Turn.laidOut_fill]
      simp only [Surrounds, above, List.head?_cons, Option.map_some]
      grind

theorem Surrounds.congr (h : Surrounds nodes turns child)
    (hsame : ∀ k ∈ around turns, nodes'[k]? = nodes[k]?) : Surrounds nodes' turns child := by
  induction turns generalizing child with
  | nil => trivial
  | cons f turns ih =>
      obtain ⟨hslot, hother, hturns⟩ := h
      simp only [around, Multiset.mem_add, Multiset.mem_singleton] at hsame
      refine ⟨?_, hother.congr fun k hk => hsame k (.inl (.inr hk)),
        ih hturns fun k hk => hsame k (.inr hk)⟩
      rw [hsame f.slot (.inl (.inl rfl)), hslot]

theorem Updated.surrounds {slot : Nat} {node : LinkedNode} (h : Updated nodes slot node nodes')
    (hturns : Surrounds nodes turns child) (hslot : slot ∉ around turns) :
    Surrounds nodes' turns child := by
  refine hturns.congr fun k hk => h.elsewhere k ?_
  rintro rfl
  exact hslot hk

/-- What is put into the place is seen at the root only where there is nothing above. -/
theorem slot?_replug (h : t.slot? = u.slot?) : (replug turns t).slot? = (plug turns u).slot? := by
  induction turns generalizing t u with
  | nil => exact h
  | cons f turns ih => exact ih (by simp [Turn.refill])

theorem slot?_plug (h : t.slot? = u.slot?) : (plug turns t).slot? = (plug turns u).slot? := by
  induction turns generalizing t u with
  | nil => exact h
  | cons f turns ih => exact ih (by simp)

/-- One step of the walk upwards takes the record of a node anew. -/
theorem IntervalTree.LaidOut.exists_refreshed {slot : Nat} {y : Interval} {reach : UInt64}
    {left right : IntervalTree} {parent : Option Nat}
    (h : (node slot y reach left right).LaidOut nodes parent)
    (hnodup : (node slot y reach left right).occupied.Nodup) :
    ∃ node' nodes', LinkedSet.refresh slot nodes = some (parent.toList, nodes') ∧
      Updated nodes slot node' nodes' ∧ (join slot y left right).LaidOut nodes' parent := by
  obtain ⟨hslot, hleft, hright⟩ := h
  obtain ⟨hslotLeft, hslotRight, -⟩ := apart hnodup
  obtain ⟨nodes', hupdate, hupdated⟩ := exists_update hslot fun node =>
    { node with reach := max node.interval.stop (max left.reach right.reach) }
  refine ⟨_, nodes', ?_, hupdated, hupdated.at_slot, hupdated.laidOut hleft hslotLeft,
    hupdated.laidOut hright hslotRight⟩
  simp [LinkedSet.refresh, hslot, hleft.reachAt_eq, hright.reachAt_eq, hupdate]

theorem Turn.exists_refreshed {f : Turn} {parent : Option Nat}
    (h : (f.fill t).LaidOut nodes parent) (hnodup : (f.fill t).occupied.Nodup) :
    ∃ node' nodes', LinkedSet.refresh f.slot nodes = some (parent.toList, nodes') ∧
      Updated nodes f.slot node' nodes' ∧ (f.refill t).LaidOut nodes' parent := by
  obtain ⟨slot, y, reach, side, other⟩ := f
  cases side
  · exact h.exists_refreshed hnodup
  · exact h.exists_refreshed hnodup

/-- The walk upwards takes the records of the turns anew, and visits each of them. -/
theorem Surrounds.visits_refresh (h : Surrounds nodes turns t.slot?)
    (ht : t.LaidOut nodes (above turns)) (hnodup : (plug turns t).occupied.Nodup) :
    ∃ nodes', Visits LinkedSet.refresh (above turns).toList nodes (turns.map Turn.slot) nodes' ∧
      (replug turns t).LaidOut nodes' none ∧ nodes'.size = nodes.size := by
  induction turns generalizing t nodes with
  | nil => exact ⟨nodes, .done nodes, ht, rfl⟩
  | cons f turns ih =>
      obtain ⟨hslot, hother, hturns⟩ := h
      rw [plug_cons, occupied_plug, Multiset.nodup_add, Multiset.disjoint_right] at hnodup
      obtain ⟨haround, hf, hapart⟩ := hnodup
      obtain ⟨node', first, hbody, hupdated, hlaid⟩ :=
        Turn.exists_refreshed (Turn.laidOut_fill.mpr ⟨hslot, hother, ht⟩) hf
      have hfTurns : f.slot ∉ around turns := hapart (by simp [Turn.occupied_fill])
      have hturns : Surrounds first turns (f.refill t).slot? := by
        rw [Turn.refill, Turn.slot?_fill]
        exact hupdated.surrounds hturns hfTurns
      have hnodup : (plug turns (f.refill t)).occupied.Nodup := by
        rw [occupied_plug, Turn.occupied_refill, Multiset.nodup_add, Multiset.disjoint_right]
        exact ⟨haround, hf, hapart⟩
      obtain ⟨nodes', hrun, hresult, hsize⟩ := ih hturns hlaid hnodup
      exact ⟨nodes', .single hbody hrun, hresult, hsize.trans hupdated.size_eq⟩

end Places

/-! ## Removals -/

section Removals

variable {turns : List Turn} {t : IntervalTree} {nodes : Array LinkedNode} {x : Interval}

theorem plug_append (turns₁ turns₂ : List Turn) :
    plug (turns₁ ++ turns₂) t = plug turns₂ (plug turns₁ t) := List.foldl_append

theorem replug_append (turns₁ turns₂ : List Turn) :
    replug (turns₁ ++ turns₂) t = replug turns₂ (replug turns₁ t) := List.foldl_append

theorem plug_append_turn (f : Turn) : plug (turns ++ [f]) t = f.fill (plug turns t) := by
  simp [plug]

theorem replug_append_turn (f : Turn) : replug (turns ++ [f]) t = f.refill (replug turns t) := by
  simp [replug]

/-- The search from the root of a tree ends where the recursive removal takes a node out, or
finds nothing where that finds nothing. -/
def Sought (x : Interval) (nodes : Array LinkedNode) (t : IntervalTree) : Prop :=
  ∃ visited : List Nat, (visited : Multiset Nat) ≤ t.occupied ∧
    (t.removeOne? x = none ∧ Visits (LinkedSet.compareAt nodes x) t.slot?.toList none visited none ∨
      ∃ turns slot y reach left right, t = plug turns (node slot y reach left right) ∧
        t.removeOne? x = some ((takeRoot slot left right).1,
          replug turns (takeRoot slot left right).2) ∧
        Visits (LinkedSet.compareAt nodes x) t.slot?.toList none visited (some slot))

theorem Turn.sought {f : Turn} (h : Sought x nodes t)
    (hbody : LinkedSet.compareAt nodes x f.slot none = some (t.slot?.toList, none))
    (hremove : (f.fill t).removeOne? x =
      (t.removeOne? x).map fun result => (result.1, f.refill result.2)) :
    Sought x nodes (f.fill t) := by
  obtain ⟨visited, hvisited, h⟩ := h
  refine ⟨f.slot :: visited, ?_, ?_⟩
  · rw [← Multiset.cons_coe, ← Multiset.singleton_add, occupied_fill, add_assoc]
    exact add_le_add_right (le_add_of_nonneg_of_le (Multiset.zero_le _) hvisited) _
  · rw [slot?_fill]
    rcases h with ⟨hnone, hrun⟩ | ⟨turns, slot, y, reach, left, right, rfl, hsome, hrun⟩
    · refine .inl ⟨?_, .single hbody hrun⟩
      rw [hremove, hnone, Option.map_none]
    · refine .inr ⟨turns ++ [f], slot, y, reach, left, right, (plug_append_turn f).symm, ?_,
        .single hbody hrun⟩
      rw [hremove, hsome, Option.map_some, replug_append_turn]

theorem IntervalTree.LaidOut.sought {parent : Option Nat} (h : t.LaidOut nodes parent)
    (x : Interval) : Sought x nodes t := by
  induction t generalizing parent with
  | leaf => exact ⟨[], Multiset.zero_le _, .inl ⟨rfl, .done none⟩⟩
  | node slot y reach left right ihl ihr =>
      obtain ⟨hslot, hleft, hright⟩ := h
      by_cases hless : x.start < y.start
      · refine Turn.sought (f := ⟨slot, y, reach, .left, right⟩) (ihl hleft) ?_ ?_
        · simp [LinkedSet.compareAt, hslot, hless]
        · show (node slot y reach left right).removeOne? x = _
          rw [removeOne?, if_pos hless]
          rfl
      · by_cases hsame : y = x
        · -- the node is here
          refine ⟨[slot], cons_visited_le (Multiset.zero_le _),
            .inr ⟨[], slot, y, reach, left, right, rfl, ?_, ?_⟩⟩
          · rw [removeOne?, if_neg hless, if_pos hsame]
            rfl
          · have hbody : LinkedSet.compareAt nodes x slot none = some ([], some slot) := by
              simp [LinkedSet.compareAt, hslot, hsame]
            exact .single hbody (.done (some slot))
        · refine Turn.sought (f := ⟨slot, y, reach, .right, left⟩) (ihr hright) ?_ ?_
          · simp [LinkedSet.compareAt, hslot, hless, hsame]
          · show (node slot y reach left right).removeOne? x = _
            rw [removeOne?, if_neg hless, if_neg hsame]
            rfl

/-- The first node of a tree is at the end of its left spine, and has no left child. -/
theorem exists_first (slot : Nat) (y : Interval) (reach : UInt64) (left right : IntervalTree) :
    ∃ turns freed first reach' rest,
      node slot y reach left right = plug turns (node freed first reach' leaf rest) ∧
      takeFirst slot y left right = (freed, first, replug turns rest) ∧
      (node slot y reach left right).leftSpine.head? = some freed := by
  induction left generalizing slot y reach right with
  | leaf => exact ⟨[], slot, y, reach, right, rfl, rfl, rfl⟩
  | node s z reachInner innerLeft innerRight ihl _ =>
      obtain ⟨turns, freed, first, reach', rest, htree, htake, hhead⟩ := ihl s z reachInner innerRight
      refine ⟨turns ++ [⟨slot, y, reach, .left, right⟩], freed, first, reach', rest, ?_, ?_, ?_⟩
      · rw [plug_append_turn, ← htree]
        rfl
      · rw [takeFirst, htake, replug_append_turn]
        rfl
      · rw [leftSpine, List.head?_append, hhead, Option.some_or]

/-- The tree of `s` was taken apart at a place: the slot `freed` is no longer in it, and the
records above are those from before. -/
structure Unlinks (s s' : LinkedSet) (freed : Nat) (turns : List Turn) (rest : IntervalTree) :
    Prop where
  laidOut : (plug turns rest).LaidOut s'.nodes none
  nodup : (plug turns rest).occupied.Nodup
  root_eq : s'.root = (plug turns rest).slot?
  free_eq : s'.free = freed :: s.free
  size_eq : s'.size = s.size - 1
  slots_eq : s'.nodes.size = s.nodes.size

theorem IntervalTree.LaidOut.exists_hang {parent : Option Nat} (h : t.LaidOut nodes parent)
    (hnodup : t.occupied.Nodup) (parent' : Option Nat) :
    ∃ nodes', LinkedSet.hang nodes t.slot? parent' = some nodes' ∧ t.LaidOut nodes' parent' ∧
      (∀ k, k ∉ t.occupied → nodes'[k]? = nodes[k]?) ∧ nodes'.size = nodes.size := by
  cases t with
  | leaf => exact ⟨nodes, rfl, trivial, fun _ _ => rfl, rfl⟩
  | node slot y reach left right =>
      obtain ⟨hslot, hleft, hright⟩ := h
      obtain ⟨hslotLeft, hslotRight, -⟩ := apart hnodup
      obtain ⟨nodes', hupdate, hupdated⟩ :=
        exists_update hslot fun node => { node with parent := parent' }
      refine ⟨nodes', hupdate, ⟨hupdated.at_slot, hupdated.laidOut hleft hslotLeft,
        hupdated.laidOut hright hslotRight⟩, ?_, hupdated.size_eq⟩
      intro k hk
      exact hupdated.elsewhere k fun hks => hk (mem_occupied_node.mpr (.inl hks))

/-- A node with a link to `old` has it replaced, if its other link is not the same. -/
theorem Turn.relink_linked {f : Turn} {parent : Option Nat} {old : Nat}
    (h : f.other.slot? ≠ some old) (new : Option Nat) :
    (f.linked parent (some old)).relink old new = f.linked parent new := by
  obtain ⟨slot, y, reach, side, other⟩ := f
  cases side
  · simp [linked, LinkedNode.relink]
  · simp [linked, LinkedNode.relink, h]

/-- The nearest node above a place is linked to another subtree. -/
theorem Surrounds.exists_relinked {f : Turn} {slot : Nat} {rest : IntervalTree}
    (h : Surrounds nodes (f :: turns) (some slot)) (hrest : rest.LaidOut nodes (some f.slot))
    (hnodup : (plug (f :: turns) rest).occupied.Nodup) (hslot : slot ∉ around (f :: turns)) :
    ∃ nodes', LinkedSet.update nodes f.slot (fun node => node.relink slot rest.slot?) =
        some nodes' ∧
      (plug (f :: turns) rest).LaidOut nodes' none ∧ nodes'.size = nodes.size := by
  obtain ⟨hf, hother, hturns⟩ := h
  obtain ⟨nodes', hrelink, hrelinked⟩ :=
    exists_update hf fun node => node.relink slot rest.slot?
  have hslotOther : f.other.slot? ≠ some slot := by
    intro hmem
    exact hslot (by simp [around, mem_occupied_of_slot? hmem])
  rw [Turn.relink_linked hslotOther] at hrelinked
  rw [plug_cons, occupied_plug, Multiset.nodup_add, Multiset.disjoint_right] at hnodup
  obtain ⟨-, hfill, hapart⟩ := hnodup
  obtain ⟨hfOther, hfRest, -⟩ := Turn.apart hfill
  have hfTurns : f.slot ∉ around turns := hapart (by simp [Turn.occupied_fill])
  exact ⟨nodes', hrelink, laidOut_plug.mpr ⟨⟨hrelinked.at_slot,
    hrelinked.laidOut hother hfOther, hrelinked.surrounds hturns hfTurns⟩,
    hrelinked.laidOut hrest hfRest⟩, hrelinked.size_eq⟩

/-- At most one of two subtrees has nodes, and `rest` is that one. -/
inductive OnlyBelow : IntervalTree → IntervalTree → IntervalTree → Prop where
  | left (t : IntervalTree) : OnlyBelow t leaf t
  | right (t : IntervalTree) : OnlyBelow leaf t t

namespace OnlyBelow

variable {left right rest : IntervalTree} {parent : Option Nat}

theorem slot?_or (h : OnlyBelow left right rest) : left.slot?.or right.slot? = rest.slot? := by
  cases h <;> simp

theorem occupied_node (h : OnlyBelow left right rest) (slot : Nat) (y : Interval)
    (reach : UInt64) : (node slot y reach left right).occupied = {slot} + rest.occupied := by
  cases h <;> simp [occupied]

theorem laidOut (h : OnlyBelow left right rest) (hleft : left.LaidOut nodes parent)
    (hright : right.LaidOut nodes parent) : rest.LaidOut nodes parent := by
  cases h
  · exact hleft
  · exact hright

end OnlyBelow

/-- A node without a child on one side is taken out; what is on its other side moves up. -/
theorem exists_unlink {s : LinkedSet} {slot : Nat} {y : Interval} {reach : UInt64}
    {left right rest : IntervalTree} (hrest : OnlyBelow left right rest)
    (hlaid : (plug turns (node slot y reach left right)).LaidOut s.nodes none)
    (hnodup : (plug turns (node slot y reach left right)).occupied.Nodup)
    (hroot : s.root = (plug turns (node slot y reach left right)).slot?) :
    ∃ s', s.unlink slot = some (above turns, s') ∧ Unlinks s s' slot turns rest := by
  obtain ⟨hturns, hslot, hleft, hright⟩ := laidOut_plug.mp hlaid
  have hchild := hrest.slot?_or
  rw [occupied_plug, hrest.occupied_node] at hnodup
  obtain ⟨-, hbelow, hapart⟩ := Multiset.nodup_add.mp hnodup
  rw [Multiset.disjoint_right] at hapart
  have hslotTurns : slot ∉ around turns := hapart (by simp)
  have hleft' : (plug turns rest).occupied.Nodup := by
    rw [occupied_plug]
    refine Multiset.nodup_of_le ?_ hnodup
    exact add_le_add_right (le_add_of_nonneg_of_le (Multiset.zero_le _) (le_refl _)) _
  -- what was below the node gets the parent of the node
  obtain ⟨first, hhang, hlaid, hframe, hsize⟩ :=
    (hrest.laidOut hleft hright).exists_hang (Multiset.nodup_add.mp hbelow).2.1 (above turns)
  have hturns : Surrounds first turns (some slot) := hturns.congr fun k hk =>
    hframe k fun hkr => hapart (Multiset.mem_add.mpr (.inr hkr)) hk
  cases turns with
  | nil =>
      rw [show above ([] : List Turn) = none from rfl] at hslot hhang hlaid
      refine ⟨{ s with nodes := first, free := slot :: s.free, size := s.size - 1,
                       root := rest.slot? }, ?_, ⟨hlaid, hleft', rfl, rfl, rfl, hsize⟩⟩
      simp [LinkedSet.unlink, hslot, hchild, hhang, above]
  | cons f turns =>
      rw [show above (f :: turns) = some f.slot from rfl] at hslot hhang hlaid
      obtain ⟨second, hrelink, hresult, hsize'⟩ := hturns.exists_relinked hlaid hleft' hslotTurns
      refine ⟨{ s with nodes := second, free := slot :: s.free, size := s.size - 1 }, ?_,
        ⟨hresult, hleft', ?_, rfl, rfl, hsize'.trans hsize⟩⟩
      · simp [LinkedSet.unlink, hslot, hchild, hhang, hrelink, above]
      · rw [hroot, plug_cons, plug_cons]
        exact slot?_plug (by simp)

/-- Another interval in a node leaves the layout as it is. -/
theorem exists_rewritten {slot : Nat} {y : Interval} {reach : UInt64} {left right : IntervalTree}
    (hlaid : (plug turns (node slot y reach left right)).LaidOut nodes none)
    (hnodup : (plug turns (node slot y reach left right)).occupied.Nodup) (z : Interval) :
    ∃ nodes', LinkedSet.update nodes slot (fun node => { node with interval := z }) = some nodes' ∧
      (plug turns (node slot z reach left right)).LaidOut nodes' none ∧
      nodes'.size = nodes.size := by
  obtain ⟨hturns, hslot, hleft, hright⟩ := laidOut_plug.mp hlaid
  rw [occupied_plug, Multiset.nodup_add, Multiset.disjoint_left] at hnodup
  obtain ⟨-, hnode, hapart⟩ := hnodup
  obtain ⟨hslotLeft, hslotRight, -⟩ := apart hnode
  obtain ⟨nodes', hupdate, hupdated⟩ :=
    exists_update hslot fun node => { node with interval := z }
  have hturns : Surrounds nodes' turns (some slot) :=
    hupdated.surrounds hturns fun hmem => hapart hmem (mem_occupied_node.mpr (.inl rfl))
  exact ⟨nodes', hupdate, laidOut_plug.mpr ⟨hturns, hupdated.at_slot,
    hupdated.laidOut hleft hslotLeft, hupdated.laidOut hright hslotRight⟩, hupdated.size_eq⟩

/-- Below two children the next interval moves up, and its node is taken out. -/
theorem exists_takeOut_successor {s : LinkedSet} {slot sr : Nat} {y yr : Interval}
    {reach reachr : UInt64} {left lr rr : IntervalTree} (hleft : left ≠ leaf)
    (hlaid : (plug turns (node slot y reach left (node sr yr reachr lr rr))).LaidOut s.nodes none)
    (hnodup : (plug turns (node slot y reach left (node sr yr reachr lr rr))).occupied.Nodup)
    (hroot : s.root = (plug turns (node slot y reach left (node sr yr reachr lr rr))).slot?) :
    ∃ turns' rest s', s.takeOut slot = some (above turns', s') ∧
      Unlinks s s' (takeFirst sr yr lr rr).1 turns' rest ∧
      replug turns' rest = replug turns (join slot (takeFirst sr yr lr rr).2.1 left
        (takeFirst sr yr lr rr).2.2) := by
  obtain ⟨below, freed, first, reach', rest, hright, htake, hhead⟩ := exists_first sr yr reachr lr rr
  obtain ⟨sl, hsl⟩ : ∃ sl, left.slot? = some sl :=
    Option.ne_none_iff_exists'.mp fun hnone => hleft (slot?_eq_none.mp hnone)
  obtain ⟨-, hslot, -, hlaidRight⟩ := laidOut_plug.mp hlaid
  have hnodupRight : (node sr yr reachr lr rr).occupied.Nodup := by
    rw [occupied_plug, Multiset.nodup_add] at hnodup
    exact (nodup_below hnodup.2.1).2
  have hspine := hlaidRight.spine_eq hnodupRight
  rw [slot?_node] at hslot hspine
  -- the place of the successor, seen from the root
  let place (z : Interval) : List Turn := below ++ ⟨slot, z, reach, .right, left⟩ :: turns
  have hplace (z : Interval) : plug (place z) (node freed first reach' leaf rest) =
      plug turns (node slot z reach left (node sr yr reachr lr rr)) := by
    rw [plug_append, ← hright]
    rfl
  have hnext : ∃ node, s.nodes[freed]? = some node ∧ node.interval = first := by
    rw [← hplace y] at hlaid
    obtain ⟨-, hfreed, -⟩ := laidOut_plug.mp hlaid
    exact ⟨_, hfreed, rfl⟩
  obtain ⟨next, hnext, rfl⟩ := hnext
  obtain ⟨nodes, hupdate, hlaid', hsize⟩ := exists_rewritten hlaid hnodup next.interval
  have hnodup' : (plug turns (node slot next.interval reach left
      (node sr yr reachr lr rr))).occupied.Nodup := by
    rwa [occupied_plug] at hnodup ⊢
  have hroot' : s.root = (plug turns (node slot next.interval reach left
      (node sr yr reachr lr rr))).slot? := by
    rw [hroot]
    exact slot?_plug rfl
  rw [← hplace] at hlaid' hnodup' hroot'
  obtain ⟨s', hunlink, hresult⟩ :=
    exists_unlink (s := { s with nodes }) (.right rest) hlaid' hnodup' hroot'
  rw [htake]
  refine ⟨place next.interval, rest, s', ?_, ⟨hresult.laidOut, hresult.nodup, hresult.root_eq,
    hresult.free_eq, hresult.size_eq, hresult.slots_eq.trans hsize⟩, ?_⟩
  · simp [LinkedSet.takeOut, hslot, hsl, hspine, hhead, hnext, hupdate, hunlink]
  · rw [replug_append]
    rfl

/-- The root of a subtree is taken out, in its own place or in that of the next interval. -/
theorem exists_takeOut {s : LinkedSet} {slot : Nat} {y : Interval} {reach : UInt64}
    {left right : IntervalTree}
    (hlaid : (plug turns (node slot y reach left right)).LaidOut s.nodes none)
    (hnodup : (plug turns (node slot y reach left right)).occupied.Nodup)
    (hroot : s.root = (plug turns (node slot y reach left right)).slot?) :
    ∃ turns' rest s', s.takeOut slot = some (above turns', s') ∧
      Unlinks s s' (takeRoot slot left right).1 turns' rest ∧
      replug turns' rest = replug turns (takeRoot slot left right).2 := by
  obtain ⟨-, hslot, -, -⟩ := laidOut_plug.mp hlaid
  cases left with
  | leaf =>
      obtain ⟨s', hunlink, hresult⟩ := exists_unlink (.right right) hlaid hnodup hroot
      exact ⟨turns, right, s', by simp [LinkedSet.takeOut, hslot, hunlink], hresult, rfl⟩
  | node sl yl reachl ll rl =>
      cases right with
      | leaf =>
          obtain ⟨s', hunlink, hresult⟩ := exists_unlink (.left _) hlaid hnodup hroot
          exact ⟨turns, _, s', by simp [LinkedSet.takeOut, hslot, hunlink], hresult, rfl⟩
      | node sr yr reachr lr rr =>
          exact exists_takeOut_successor (fun hleaf => by cases hleaf) hlaid hnodup hroot

theorem map_slot_le (turns : List Turn) :
    (turns.map Turn.slot : Multiset Nat) ≤ around turns := by
  induction turns with
  | nil => exact le_refl 0
  | cons f turns ih =>
      rw [List.map_cons, ← Multiset.cons_coe, ← Multiset.singleton_add, around]
      exact add_le_add (le_add_of_le_of_nonneg (le_refl _) (Multiset.zero_le _)) ih

end Removals

end TaintFlow
