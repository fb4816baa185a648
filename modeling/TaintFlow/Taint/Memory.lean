import TaintFlow.BitSet
import TaintFlow.Mutation
import TaintFlow.Address.IntervalSet

/-!
# Taint of memory

Tainted memory is a collection of address intervals, kept as they were added. A
range is given by its first address and its size. An empty range is ignored by
every change and is never tainted; a range that does not end below the last
address is refused.
-/

namespace TaintFlow

structure MemoryTaint where
  ranges : IntervalSet
deriving DecidableEq

namespace MemoryTaint

def clean : MemoryTaint := ⟨.empty⟩

/-- A change of the collection by one range, unless that is empty. -/
def update (address : UInt64) (size : Nat) (change : IntervalSet → Interval → IntervalSet) :
    Mutation MemoryTaint Unit := do
  match ← Interval.ofSize address size with
  | some range => modify fun m => ⟨change m.ranges range⟩
  | none => return

def taint (address : UInt64) (size : Nat) : Mutation MemoryTaint Unit :=
  update address size .add

/-- Takes the range out of the collection, if it is stored with exactly these
bounds. A part of a larger stored range stays tainted. -/
def untaint (address : UInt64) (size : Nat) : Mutation MemoryTaint Unit :=
  update address size .erase

/-- Untaints every address of the range, trimming or splitting what is stored. -/
def clear (address : UInt64) (size : Nat) : Mutation MemoryTaint Unit :=
  update address size .subtract

def addAll (m : MemoryTaint) (ranges : List Interval) : MemoryTaint :=
  ⟨m.ranges.addAll ranges⟩

def isTainted (m : MemoryTaint) (address : UInt64) (size : Nat) : Except Error Bool := do
  match ← Interval.ofSize address size with
  | some range => return m.ranges.intersects range
  | none => return false

/-- Whether exactly one stored range overlaps the given one, and has its bounds.
Neither several ranges that cover it together nor one that is larger will do. -/
def isFullyTainted (m : MemoryTaint) (address : UInt64) (size : Nat) : Except Error Bool := do
  match ← Interval.ofSize address size with
  | some range =>
    match m.ranges.overlapping range with
    | [only] => return only == range
    | _ => return false
  | none => return false

def merged (m : MemoryTaint) : List Interval := m.ranges.merged

/-- One flag for each address of the range, set where the address is tainted. -/
def bitmap (m : MemoryTaint) (address : UInt64) (size : Nat) : Except Error (BitSet size) := do
  match ← Interval.ofSize address size with
  | some range =>
    (m.ranges.intersection range).foldlM (fun flags part =>
      flags.overwrite (part.start - address).toNat (List.replicate part.size.toNat true)) .empty
  | none => return .empty

def pattern (m : MemoryTaint) (address : UInt64) (size : Nat) : Except Error (List Bool) := do
  return (← m.bitmap address size).toList

def stored (m : MemoryTaint) : Nat := m.ranges.size

def isEmpty (m : MemoryTaint) : Bool := m.ranges.isEmpty

end MemoryTaint

end TaintFlow
