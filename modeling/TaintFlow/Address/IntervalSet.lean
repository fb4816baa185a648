import TaintFlow.Address.IntervalTree

/-!
# Collections of intervals

An `IntervalSet` keeps every interval that was added, also when it overlaps or
repeats one that is there. Only `merged` consolidates them, into the one
ascending list of separated intervals that covers the same addresses.

Nodes live in numbered storage slots. A slot given back by a removal is taken
again, the latest first, before a new slot is opened, so the storage is never
larger than the collection once was.
-/

namespace TaintFlow

structure IntervalSet where
  tree : IntervalTree
  size : Nat
  /-- Slots given back, the latest first. -/
  free : List Nat
  /-- Number of slots opened so far. -/
  slots : Nat
deriving DecidableEq

namespace IntervalSet

def empty : IntervalSet := ⟨.leaf, 0, [], 0⟩

def isEmpty (s : IntervalSet) : Bool :=
  match s.tree with
  | .leaf => true
  | .node .. => false

/-- Stores one more interval, without merging. -/
def add (s : IntervalSet) (x : Interval) : IntervalSet :=
  match s.free with
  | slot :: free => { s with tree := s.tree.insert slot x, size := s.size + 1, free }
  | [] => { s with tree := s.tree.insert s.slots x, size := s.size + 1, slots := s.slots + 1 }

def addAll (s : IntervalSet) (xs : List Interval) : IntervalSet :=
  xs.foldl add s

/-- Takes out one interval with exactly the bounds of `x`; `none` when there is none. -/
def removeOne? (s : IntervalSet) (x : Interval) : Option IntervalSet :=
  (s.tree.removeOne? x).map fun (freed, tree) =>
    { s with tree, size := s.size - 1, free := freed :: s.free }

theorem count_removeOne? {s t : IntervalSet} {x : Interval} (h : s.removeOne? x = some t) :
    t.tree.count < s.tree.count := by
  obtain ⟨⟨freed, tree⟩, htree, rfl⟩ := Option.map_eq_some_iff.mp h
  have := IntervalTree.count_removeOne? htree
  simp only
  omega

/-- Takes out every interval with exactly the bounds of `x`. -/
def erase (s : IntervalSet) (x : Interval) : IntervalSet :=
  match h : s.removeOne? x with
  | none => s
  | some rest =>
    have := count_removeOne? h
    rest.erase x
termination_by s.tree.count

/-- `erase`, or `none` when it would take nothing out. -/
def remove? (s : IntervalSet) (x : Interval) : Option IntervalSet :=
  (s.removeOne? x).map (·.erase x)

/-- The stored intervals that overlap `query`, unclipped, from the root downwards. -/
def overlapping (s : IntervalSet) (query : Interval) : List Interval :=
  s.tree.overlapping query

/-- The overlapping intervals, each clipped to `query`. They may overlap each other. -/
def intersection (s : IntervalSet) (query : Interval) : List Interval :=
  (s.overlapping query).filterMap (·.intersect query)

def intersects (s : IntervalSet) (query : Interval) : Bool :=
  !(s.overlapping query).isEmpty

/-- Whether some stored interval contains `point`. Ends are exclusive, so none holds the
last address. -/
def contains (s : IntervalSet) (point : UInt64) : Bool :=
  if h : point ≠ 0xffffffffffffffff then
    s.intersects ⟨point, point + 1, Interval.lt_succ_of_ne_last h⟩
  else false

/-- Replaces one stored copy of `x` by its parts before and after `query`. -/
def trim (s : IntervalSet) (query x : Interval) : IntervalSet :=
  let s := (s.removeOne? x).getD s
  let s := if h : x.start < query.start then s.add ⟨x.start, query.start, h⟩ else s
  if h : query.stop < x.stop then s.add ⟨query.stop, x.stop, h⟩ else s

/-- Takes the addresses of `query` out of every stored interval, which is trimmed
or split as needed. -/
def subtract (s : IntervalSet) (query : Interval) : IntervalSet :=
  (s.overlapping query).foldl (fun s x => s.trim query x) s

def toList (s : IntervalSet) : List Interval := s.tree.inOrder

def height (s : IntervalSet) : Nat := s.tree.height

/-- Joins `current` with the intervals that follow it as long as they touch or
overlap it. The list ascends by start. -/
def mergeFrom (current : Interval) : List Interval → List Interval
  | [] => [current]
  | x :: rest =>
    if x.start ≤ current.stop then mergeFrom (current.extend x.stop) rest
    else current :: mergeFrom x rest

def merge : List Interval → List Interval
  | [] => []
  | x :: rest => mergeFrom x rest

/-- The covered addresses as ascending intervals, each separated from the next. -/
def merged (s : IntervalSet) : List Interval := merge s.toList

end IntervalSet

end TaintFlow
