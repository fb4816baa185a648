import TaintFlow.Address.Interval

/-!
# Search trees of intervals

A binary tree keyed by interval start: smaller starts go left, equal and larger
starts go right, so that duplicates are kept. Every node records the largest end
below it, which lets a query for overlaps skip whole subtrees. The tree is never
rebalanced.

A node also carries the number of the storage slot that it occupies. Slots
follow the nodes and not the intervals: removing a node with two children moves
the next interval up into its slot and gives back the slot that this interval
had.
-/

namespace TaintFlow

inductive IntervalTree where
  | leaf
  | node (slot : Nat) (interval : Interval) (reach : UInt64) (left right : IntervalTree)
deriving DecidableEq

namespace IntervalTree

/-- The largest end in the tree, by the record of its root; zero for no interval. -/
def reach : IntervalTree → UInt64
  | leaf => 0
  | node _ _ reach _ _ => reach

/-- A node over two subtrees, its record taken from theirs. -/
def join (slot : Nat) (interval : Interval) (left right : IntervalTree) : IntervalTree :=
  node slot interval (max interval.stop (max left.reach right.reach)) left right

def count : IntervalTree → Nat
  | leaf => 0
  | node _ _ _ left right => left.count + right.count + 1

def height : IntervalTree → Nat
  | leaf => 0
  | node _ _ _ left right => max left.height right.height + 1

/-- Adds a node for `x` at the bottom. Equal starts keep the order of insertion. -/
def insert (slot : Nat) (x : Interval) : IntervalTree → IntervalTree
  | leaf => node slot x x.stop leaf leaf
  | node s y reach left right =>
    if x.start < y.start then node s y (max reach x.stop) (left.insert slot x) right
    else node s y (max reach x.stop) left (right.insert slot x)

/-- Takes the leftmost node out of the tree `node slot y _ left right`: the slot
that it gives back, its interval, and what remains. -/
def takeFirst (slot : Nat) (y : Interval) : IntervalTree → IntervalTree →
    Nat × Interval × IntervalTree
  | leaf, right => (slot, y, right)
  | node s z _ innerLeft innerRight, right =>
    let (freed, first, rest) := takeFirst s z innerLeft innerRight
    (freed, first, join slot y rest right)

/-- Takes the root out of the tree `node slot _ _ left right`: the slot that is
given back, and what remains. -/
def takeRoot (slot : Nat) : IntervalTree → IntervalTree → Nat × IntervalTree
  | leaf, right => (slot, right)
  | left, leaf => (slot, left)
  | left, node s y _ innerLeft innerRight =>
    let (freed, next, rest) := takeFirst s y innerLeft innerRight
    (freed, join slot next left rest)

/-- Takes out the first node with exactly the bounds of `x`, met on the way that
an insertion of `x` would go down. -/
def removeOne? (x : Interval) : IntervalTree → Option (Nat × IntervalTree)
  | leaf => none
  | node s y _ left right =>
    if x.start < y.start then
      (left.removeOne? x).map fun (freed, rest) => (freed, join s y rest right)
    else if y = x then some (takeRoot s left right)
    else (right.removeOne? x).map fun (freed, rest) => (freed, join s y left rest)

/-- The stored intervals from left to right, in front of `acc`. -/
def inOrderOnto : IntervalTree → List Interval → List Interval
  | leaf, acc => acc
  | node _ y _ left right, acc => left.inOrderOnto (y :: right.inOrderOnto acc)

def inOrder (t : IntervalTree) : List Interval := t.inOrderOnto []

/-- The intervals of a tree that overlap `query`, each before those below it, in
front of `acc`. A subtree that ends by the start of the query holds none, and
neither does the right of a node that starts at or after its end. -/
def overlappingOnto (query : Interval) : IntervalTree → List Interval → List Interval
  | leaf, acc => acc
  | node _ y reach left right, acc =>
    if reach ≤ query.start then acc
    else
      let acc := if y.start < query.stop then right.overlappingOnto query acc else acc
      let acc := left.overlappingOnto query acc
      if y.overlaps query then y :: acc else acc

def overlapping (t : IntervalTree) (query : Interval) : List Interval :=
  t.overlappingOnto query []

theorem count_takeFirst (slot : Nat) (y : Interval) (left right : IntervalTree) :
    (takeFirst slot y left right).2.2.count = left.count + right.count := by
  induction left generalizing slot y right with
  | leaf => simp [takeFirst, count]
  | node s z reach innerLeft innerRight ihl _ =>
    simp only [takeFirst, join, count, ihl]
    omega

theorem count_takeRoot (slot : Nat) (left right : IntervalTree) :
    (takeRoot slot left right).2.count = left.count + right.count := by
  cases left with
  | leaf => simp [takeRoot, count]
  | node s₁ y₁ reach₁ left₁ right₁ =>
    cases right with
    | leaf => simp [takeRoot, count]
    | node s y reach innerLeft innerRight =>
      simp only [takeRoot, join, count, count_takeFirst]
      omega

/-- A removal goes on to the side where an insertion of `x` would go, or takes the root out. -/
theorem removeOne?_cases {x y : Interval} {s freed : Nat} {reach : UInt64}
    {left right rest : IntervalTree}
    (h : (node s y reach left right).removeOne? x = some (freed, rest)) :
    (x.start < y.start ∧ ∃ l, left.removeOne? x = some (freed, l) ∧ rest = join s y l right) ∨
      (y = x ∧ takeRoot s left right = (freed, rest)) ∨
      (¬ x.start < y.start ∧ y ≠ x ∧
        ∃ r, right.removeOne? x = some (freed, r) ∧ rest = join s y left r) := by
  simp only [removeOne?] at h
  split at h
  · next hlt =>
    obtain ⟨⟨f, l⟩, hl, heq⟩ := Option.map_eq_some_iff.mp h
    cases heq
    exact .inl ⟨hlt, l, hl, rfl⟩
  · next hlt =>
    split at h
    · next heq => exact .inr (.inl ⟨heq, Option.some.inj h⟩)
    · next hne =>
      obtain ⟨⟨f, r⟩, hr, heq⟩ := Option.map_eq_some_iff.mp h
      cases heq
      exact .inr (.inr ⟨hlt, hne, r, hr, rfl⟩)

theorem count_removeOne? {x : Interval} {t rest : IntervalTree} {freed : Nat}
    (h : t.removeOne? x = some (freed, rest)) : t.count = rest.count + 1 := by
  induction t generalizing freed rest with
  | leaf => cases h
  | node s y reach left right ihl ihr =>
    rcases removeOne?_cases h with ⟨-, l, hl, rfl⟩ | ⟨-, hroot⟩ | ⟨-, -, r, hr, rfl⟩
    · simp only [join, count, ihl hl]
      omega
    · have hcount := count_takeRoot s left right
      rw [hroot] at hcount
      simp only [count] at hcount ⊢
      omega
    · simp only [join, count, ihr hr]
      omega

end IntervalTree

end TaintFlow
