import TaintFlow.Error

/-!
# Half-open address intervals

An interval `[start, stop)` of 64-bit addresses that holds at least one address.
Its end is exclusive, so the last address of the space lies in no interval.
-/

namespace TaintFlow

structure Interval where
  start : UInt64
  stop : UInt64
  start_lt_stop : start < stop
deriving DecidableEq

namespace Interval

/-- The interval between two bounds, refused when it would be empty. -/
def ofBounds (start stop : UInt64) : Except Error Interval :=
  if h : start < stop then .ok ⟨start, stop, h⟩ else .error (.emptyInterval start stop)

theorem lt_add_of_fits {address : UInt64} {size : Nat} (hpos : size ≠ 0)
    (hfits : address.toNat + size < UInt64.size) : address < address + UInt64.ofNat size := by
  rw [UInt64.lt_iff_toNat_lt, UInt64.toNat_add, UInt64.toNat_ofNat']
  simp only [UInt64.size] at hfits
  omega

theorem lt_succ_of_ne_last {point : UInt64} (h : point ≠ 0xffffffffffffffff) :
    point < point + 1 := by
  have hlast : point.toNat ≠ UInt64.size - 1 := fun heq => h (UInt64.toNat_inj.mp heq)
  have hlt : point.toNat < UInt64.size := point.toNat_lt
  have hfits : point.toNat + 1 < UInt64.size := by omega
  exact lt_add_of_fits Nat.one_ne_zero hfits

/-- The `size` addresses from `address` on: nothing when `size` is zero, and
refused when the end would lie past the last address. -/
def ofSize (address : UInt64) (size : Nat) : Except Error (Option Interval) :=
  if hpos : size = 0 then .ok none
  else if hfits : address.toNat + size < UInt64.size then
    .ok (some ⟨address, address + UInt64.ofNat size, lt_add_of_fits hpos hfits⟩)
  else .error (.addressOverflow address size)

def size (a : Interval) : UInt64 := a.stop - a.start

def contains (a : Interval) (point : UInt64) : Bool :=
  a.start ≤ point && point < a.stop

def overlaps (a b : Interval) : Bool :=
  a.start < b.stop && b.start < a.stop

def adjacent (a b : Interval) : Bool :=
  a.stop == b.start || b.stop == a.start

def intersect (a b : Interval) : Option Interval :=
  if h : max a.start b.start < min a.stop b.stop then
    some ⟨max a.start b.start, min a.stop b.stop, h⟩
  else none

/-- By start, and among equal starts by end. -/
protected def compare (a b : Interval) : Ordering :=
  (compare a.start b.start).then (compare a.stop b.stop)

protected def toString (a : Interval) : String :=
  s!"[{Hex.ofNat a.start.toNat}, {Hex.ofNat a.stop.toNat})"

/-- From the start of `a` to the farther of two ends. -/
def extend (a : Interval) (stop : UInt64) : Interval where
  start := a.start
  stop := max a.stop stop
  start_lt_stop := by
    have := a.start_lt_stop
    simp only [UInt64.lt_iff_toNat_lt] at this ⊢
    have hle : a.stop ≤ max a.stop stop := by
      rw [UInt64.le_iff_toNat_le]
      simp only [Max.max]
      split <;> simp_all [UInt64.le_iff_toNat_le]
    rw [UInt64.le_iff_toNat_le] at hle
    omega

end Interval

end TaintFlow
