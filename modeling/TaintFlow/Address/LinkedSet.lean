import TaintFlow.Address.IntervalSet

/-!
# Collections in linked storage

The collection of `IntervalSet` as it lies in memory: nodes in numbered slots, each with
links to the slots of its parent and its children. A slot that was given back keeps its old
node, links included, until it is taken again.

Every operation follows links in a loop, and some change nodes on the way. Nothing but the
state of the links makes these loops end and keeps them inside the storage. A loop is given a
turn for every slot: one that takes more visits a slot twice. `none` is the result of an
operation that would need more turns, or would look at a slot that was never opened.
-/

namespace TaintFlow

structure LinkedNode where
  interval : Interval
  /-- The largest end among this node and those below it. -/
  reach : UInt64
  parent : Option Nat := none
  left : Option Nat := none
  right : Option Nat := none
deriving DecidableEq

structure LinkedSet where
  nodes : Array LinkedNode := #[]
  /-- Slots given back, the latest first. -/
  free : List Nat := []
  root : Option Nat := none
  size : Nat := 0
deriving DecidableEq

/-! ## Loops -/

/-- Visits the entries of a stack from the top, until none is left. The body visits one: it
tells what takes the place of the entry on the stack, and changes a state. The result tells
which entries were visited, in order, and the final state; `none` when the turns run out. -/
def walk {τ σ : Type} (body : τ → σ → Option (List τ × σ)) :
    Nat → List τ → σ → Option (List τ × σ)
  | _, [], state => some ([], state)
  | 0, _ :: _, _ => none
  | turns + 1, entry :: stack, state => do
    let (next, state) ← body entry state
    let (visited, state) ← walk body turns (next ++ stack) state
    return (entry :: visited, state)

namespace LinkedNode

/-- The link to follow for a start: left of the node if it is smaller. -/
def towards (node : LinkedNode) (start : UInt64) : Option Nat :=
  if start < node.interval.start then node.left else node.right

/-- The node with `child` at the end of this link. -/
def attach (node : LinkedNode) (start : UInt64) (child : Nat) : LinkedNode :=
  if start < node.interval.start then { node with left := some child }
  else { node with right := some child }

def relink (node : LinkedNode) (old : Nat) (new : Option Nat) : LinkedNode :=
  if node.left = some old then { node with left := new } else { node with right := new }

end LinkedNode

namespace LinkedSet

def update (nodes : Array LinkedNode) (slot : Nat) (change : LinkedNode → LinkedNode) :
    Option (Array LinkedNode) := do
  let node ← nodes[slot]?
  return nodes.setIfInBounds slot (change node)

/-! ## Additions -/

/-- Puts a new node into the slot given back last, or else into a new slot. -/
def alloc (s : LinkedSet) (x : Interval) : Option (Nat × LinkedSet) :=
  match s.free with
  | slot :: free => do
    let nodes ← update s.nodes slot fun _ => { interval := x, reach := x.stop }
    return (slot, { s with nodes, free, size := s.size + 1 })
  | [] =>
    some (s.nodes.size,
      { s with nodes := s.nodes.push { interval := x, reach := x.stop }, size := s.size + 1 })

/-- Takes the end of `x` into the record of a node, and goes on or links the node `new`. -/
def descend (x : Interval) (new slot : Nat) (nodes : Array LinkedNode) :
    Option (List Nat × Array LinkedNode) := do
  let nodes ← update nodes slot fun node => { node with reach := max node.reach x.stop }
  let node ← nodes[slot]?
  match node.towards x.start with
  | some child => return ([child], nodes)
  | none =>
    let nodes ← update nodes slot (·.attach x.start new)
    let nodes ← update nodes new fun node => { node with parent := some slot }
    return ([], nodes)

def add (s : LinkedSet) (x : Interval) : Option LinkedSet := do
  let (new, s) ← s.alloc x
  match s.root with
  | none => return { s with root := some new }
  | some root =>
    let (_, nodes) ← walk (descend x new) s.nodes.size [root] s.nodes
    return { s with nodes }

/-! ## Removals -/

def compareAt (nodes : Array LinkedNode) (x : Interval) (slot : Nat) (_ : Option Nat) :
    Option (List Nat × Option Nat) := do
  let node ← nodes[slot]?
  if x.start < node.interval.start then return (node.left.toList, none)
  else if node.interval = x then return ([], some slot)
  else return (node.right.toList, none)

def find (s : LinkedSet) (x : Interval) : Option (Option Nat) := do
  let (_, found) ← walk (compareAt s.nodes x) s.nodes.size s.root.toList none
  return found

def goLeft (nodes : Array LinkedNode) (slot : Nat) (passed : List Nat) :
    Option (List Nat × List Nat) := do
  let node ← nodes[slot]?
  return (node.left.toList, slot :: passed)

/-- The slots from `link` on to the left, the last first. -/
def spine (nodes : Array LinkedNode) (link : Option Nat) : Option (List Nat) := do
  let (_, passed) ← walk (goLeft nodes) nodes.size link.toList []
  return passed

def hang (nodes : Array LinkedNode) (link parent : Option Nat) : Option (Array LinkedNode) :=
  match link with
  | some slot => update nodes slot fun node => { node with parent }
  | none => some nodes

/-- Takes a node with at most one child out of the tree, and gives its slot back. The result
begins with the node above, whose record is out of date. -/
def unlink (s : LinkedSet) (slot : Nat) : Option (Option Nat × LinkedSet) := do
  let node ← s.nodes[slot]?
  let child := node.left.or node.right
  let nodes ← hang s.nodes child node.parent
  let s := { s with free := slot :: s.free, size := s.size - 1 }
  match node.parent with
  | some above =>
    let nodes ← update nodes above (·.relink slot child)
    return (node.parent, { s with nodes })
  | none => return (node.parent, { s with nodes, root := child })

/-- Takes the interval in a slot out of the tree. Below two children it is the next interval
that leaves its node, and moves up. -/
def takeOut (s : LinkedSet) (slot : Nat) : Option (Option Nat × LinkedSet) := do
  let node ← s.nodes[slot]?
  match node.left, node.right with
  | some _, some right =>
    let successor ← (← spine s.nodes (some right)).head?
    let next ← s.nodes[successor]?
    let nodes ← update s.nodes slot fun node => { node with interval := next.interval }
    unlink { s with nodes } successor
  | _, _ => unlink s slot

/-- The record of the node that a link leads to; zero for none. -/
def reachAt (nodes : Array LinkedNode) : Option Nat → Option UInt64
  | none => some 0
  | some slot => nodes[slot]?.map LinkedNode.reach

/-- Computes the record of a node from those of its children, and goes up. -/
def refresh (slot : Nat) (nodes : Array LinkedNode) : Option (List Nat × Array LinkedNode) := do
  let node ← nodes[slot]?
  let left ← reachAt nodes node.left
  let right ← reachAt nodes node.right
  let nodes ← update nodes slot fun node =>
    { node with reach := max node.interval.stop (max left right) }
  return (node.parent.toList, nodes)

def removeOne (s : LinkedSet) (x : Interval) : Option (Option LinkedSet) := do
  match ← s.find x with
  | none => return none
  | some slot =>
    let (above, s) ← s.takeOut slot
    let (_, nodes) ← walk refresh s.nodes.size above.toList s.nodes
    return some { s with nodes }

/-! ## Queries -/

/-- Compares a node with a query, and goes on to its children where these can overlap it. -/
def overlapAt (nodes : Array LinkedNode) (query : Interval) (slot : Nat)
    (found : List Interval) : Option (List Nat × List Interval) := do
  let node ← nodes[slot]?
  if node.reach ≤ query.start then return ([], found)
  else
    let right := if node.interval.start < query.stop then node.right.toList else []
    let more := if node.interval.overlaps query then [node.interval] else []
    return (node.left.toList ++ right, found ++ more)

def overlapping (s : LinkedSet) (query : Interval) : Option (List Interval) := do
  let (_, found) ← walk (overlapAt s.nodes query) s.nodes.size s.root.toList []
  return found

/-- Lists a node, and goes on to the leftmost node on its right. -/
def listAt (nodes : Array LinkedNode) (slot : Nat) (listed : List Interval) :
    Option (List Nat × List Interval) := do
  let node ← nodes[slot]?
  return (← spine nodes node.right, listed ++ [node.interval])

def toList (s : LinkedSet) : Option (List Interval) := do
  let (_, listed) ← walk (listAt s.nodes) s.nodes.size (← spine s.nodes s.root) []
  return listed

/-- Measures the depth of a node, which stands beside its slot. -/
def measureAt (nodes : Array LinkedNode) (entry : Nat × Nat) (height : Nat) :
    Option (List (Nat × Nat) × Nat) := do
  let node ← nodes[entry.1]?
  let below := node.right.toList ++ node.left.toList
  return (below.map (·, entry.2 + 1), max height entry.2)

def height (s : LinkedSet) : Option Nat := do
  let (_, height) ← walk (measureAt s.nodes) s.nodes.size (s.root.toList.map (·, 1)) 0
  return height

end LinkedSet

/-! ## Changes

The changes that callers make are runs of additions and of removals of one node. A record is
kept of the storage that they leave behind one after the other; none of them reads it. -/

/-- A collection, with what it was before, back to when it was last cleared. -/
structure Timeline where
  present : LinkedSet := {}
  /-- The latest first. -/
  past : List LinkedSet := []

namespace Timeline

def advance (line : Timeline) (s : LinkedSet) : Timeline := ⟨s, line.present :: line.past⟩

def states (line : Timeline) : List LinkedSet := line.present :: line.past

def add (line : Timeline) (x : Interval) : Option Timeline := do
  return line.advance (← line.present.add x)

def removeOne (line : Timeline) (x : Interval) : Option (Option Timeline) := do
  return (← line.present.removeOne x).map line.advance

/-- One turn of a removal, which is the last when it finds nothing. -/
def removeTurn (x : Interval) (_ : Unit) (line : Timeline) : Option (List Unit × Timeline) := do
  match ← line.removeOne x with
  | some rest => return ([()], rest)
  | none => return ([], line)

def remove (line : Timeline) (x : Interval) : Option (Bool × Timeline) := do
  let (turns, rest) ← walk (removeTurn x) (line.present.size + 1) [()] line
  return (1 < turns.length, rest)

def addBetween (line : Timeline) (start stop : UInt64) : Option Timeline :=
  if h : start < stop then line.add ⟨start, stop, h⟩ else some line

def trim (line : Timeline) (query x : Interval) : Option Timeline := do
  let line := (← line.removeOne x).getD line
  let line ← line.addBetween x.start query.start
  line.addBetween query.stop x.stop

def subtract (line : Timeline) (query : Interval) : Option Timeline := do
  (← line.present.overlapping query).foldlM (fun line x => line.trim query x) line

end Timeline

end TaintFlow
