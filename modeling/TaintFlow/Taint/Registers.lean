import TaintFlow.BitSet
import TaintFlow.Mutation
import TaintFlow.Address.Interval
import TaintFlow.Machine.Layout
import TaintFlow.Taint.Runs

/-!
# Taint of the register file

One flag for every byte of the register context. A register is a name for some
of these bytes, so registers that share bytes share taint. The taint of a single
register has one flag per byte, lowest byte first: a bitmap where it is loaded, and
a list, its pattern, where it is looked at.

Registers are changed byte by byte. Nothing takes back the bytes that are written
when a later one is refused, so the checks of a change come before its first byte.
-/

namespace TaintFlow

/-- Flags past the end of the context, which no register reaches. -/
def spareFlags : Nat := 32

structure RegisterTaint (L : Layout) where
  flags : BitSet (L.contextSize + spareFlags)
deriving DecidableEq

namespace RegisterTaint

variable {L : Layout}

def clean : RegisterTaint L := ⟨.empty⟩

def read (t : RegisterTaint L) (slot : Slot) : Except Error (List Bool) :=
  t.flags.slice slot.offset slot.width

/-- The flags of the bytes of a slot as a set of their own. -/
def bitmap (t : RegisterTaint L) (slot : Slot) : Except Error (BitSet slot.width) := do
  BitSet.empty.overwrite 0 (← t.read slot)

def pattern (t : RegisterTaint L) (register : String) : Except Error (List Bool) := do
  let slot ← L.slot register
  return (← t.bitmap slot).toList

/-- Whether some byte of the register is tainted. -/
def isTainted (t : RegisterTaint L) (register : String) : Except Error Bool := do
  let slot ← L.slot register
  return (← t.read slot).any id

def isFullyTainted (t : RegisterTaint L) (register : String) : Except Error Bool := do
  let slot ← L.slot register
  return (← t.read slot).all id

@[inline] def setFlag (offset : Nat) (value : Bool) : Mutation (RegisterTaint L) Unit := do
  let flags ← (← get).flags.set offset value
  set (⟨flags⟩ : RegisterTaint L)

def mark (register : String) (value : Bool) : Mutation (RegisterTaint L) Unit := do
  let slot ← L.slot register
  (List.range' slot.offset slot.width).forM (setFlag · value)

def taint (register : String) : Mutation (RegisterTaint L) Unit := mark register true

def untaint (register : String) : Mutation (RegisterTaint L) Unit := mark register false

/-- A move between registers: as many low bytes as both have are copied, and the
bytes of a wider destination past them keep their taint. The two may share bytes, so
all that is copied is read before any of it is written. -/
def copy (dest src : String) : Mutation (RegisterTaint L) Unit := do
  let dest ← L.slot dest
  let src ← L.slot src
  let flags ← (← get).read { src with width := min dest.width src.width }
  flags.zipIdx.forM fun (flag, i) => setFlag (dest.offset + i) flag

/-- Gives the register the taint that `bitmap` shows, which has a flag for each of its bytes
and perhaps more. -/
def load {n : Nat} (register : String) (bitmap : BitSet n) : Mutation (RegisterTaint L) Unit := do
  let slot ← L.slot register
  if n < slot.width then
    throw (.bitmapTooShort register slot.width n)
  (List.range slot.width).forM fun i => do
    setFlag (slot.offset + i) (← bitmap.get i)

/-- The tainted bytes of a register as addresses, when its first byte lies at
`base`: one interval for each run. -/
def intervals (t : RegisterTaint L) (register : String) (base : UInt64) :
    Except Error (List Interval) := do
  let slot ← L.slot register
  if UInt64.size ≤ base.toNat + slot.width then
    throw (.addressOverflow base slot.width)
  let pattern ← t.read slot
  (runs pattern).mapM fun (first, stop) =>
    Interval.ofBounds (base + UInt64.ofNat first) (base + UInt64.ofNat stop)

/-- The registers with a tainted byte and their patterns, by ascending name. Every
slot of a layout lies inside the context, so each of them can be read. -/
def tainted (t : RegisterTaint L) : List (String × List Bool) :=
  L.registers.entries.filterMap fun (register, slot) =>
    match t.read slot with
    | .ok pattern => if pattern.any id then some (register, pattern) else none
    | .error _ => none

def count (t : RegisterTaint L) : Nat := t.flags.count

end RegisterTaint

end TaintFlow
