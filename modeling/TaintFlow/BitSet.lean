import TaintFlow.Error

/-!
# Packed bit sets

A `BitSet n` holds `n` flags, eight to a byte: flag `i` is bit `i % 8` of byte
`i / 8`. Bits of the last byte past flag `n` are padding and stay clear, so that
counting and comparing may work on whole bytes.

`test` and `put` are total. `get`, `set`, `slice` and `overwrite` are their
checked forms, which refuse an offset that is not below `n`.
-/

namespace TaintFlow

/-- `n` flags in as few bytes as hold them. -/
structure BitSet (n : Nat) where
  bytes : Vector UInt8 ((n + 7) / 8)
deriving DecidableEq

def withBit (byte : UInt8) (k : Nat) (value : Bool) : UInt8 :=
  let mask := UInt8.ofNat (1 <<< k)
  if value then byte ||| mask else byte &&& ~~~mask

def bitCount (byte : UInt8) : Nat :=
  (List.range 8).countP byte.toBitVec.getLsbD

namespace BitSet

variable {n : Nat}

def empty : BitSet n := ⟨Vector.replicate _ 0⟩

/-- Every flag set. The last byte keeps its padding clear, if it has some. -/
def full : BitSet n :=
  let filled : Vector UInt8 ((n + 7) / 8) := Vector.replicate _ 0xff
  let tail := n % 8
  if tail ≠ 0 then
    ⟨filled.setIfInBounds ((n + 7) / 8 - 1) (UInt8.ofNat ((1 <<< tail) - 1))⟩
  else ⟨filled⟩

/-- Flag `i`; clear for an offset that has no byte. -/
def test (b : BitSet n) (i : Nat) : Bool :=
  (b.bytes[i / 8]?.getD 0).toBitVec.getLsbD (i % 8)

/-- Flag `i` set to `value`; nothing changes for an offset that has no byte. -/
def put (b : BitSet n) (i : Nat) (value : Bool) : BitSet n :=
  ⟨b.bytes.setIfInBounds (i / 8) (withBit (b.bytes[i / 8]?.getD 0) (i % 8) value)⟩

def get (b : BitSet n) (i : Nat) : Except Error Bool :=
  if i < n then .ok (b.test i) else .error (.bitOutOfRange i n)

-- inlined, so that a set that nobody else holds is changed in place
@[inline] def set (b : BitSet n) (i : Nat) (value : Bool) : Except Error (BitSet n) :=
  if i < n then .ok (b.put i value) else .error (.bitOutOfRange i n)

def slice (b : BitSet n) (offset count : Nat) : Except Error (List Bool) :=
  (List.range' offset count).mapM b.get

def overwrite (b : BitSet n) (offset : Nat) : List Bool → Except Error (BitSet n)
  | [] => .ok b
  | value :: values => do
    let b ← b.set offset value
    b.overwrite (offset + 1) values

def toList (b : BitSet n) : List Bool :=
  (List.range n).map b.test

/-- The flags from `offset` on replaced by `values`; those that have no byte are dropped. -/
def putAll (b : BitSet n) (offset : Nat) : List Bool → BitSet n
  | [] => b
  | value :: values => (b.put offset value).putAll (offset + 1) values

def ofList (values : List Bool) : BitSet values.length :=
  empty.putAll 0 values

def count (b : BitSet n) : Nat :=
  b.bytes.toList.foldl (fun total byte => total + bitCount byte) 0

def any (b : BitSet n) : Bool :=
  b.bytes.toList.any (· != 0)

/-- Whether two sets, perhaps of different lengths, have the same length and bytes. -/
def same {m : Nat} (a : BitSet n) (b : BitSet m) : Bool :=
  n == m && a.bytes.toList == b.bytes.toList

protected def toString (b : BitSet n) : String :=
  "BitSet[" ++ String.ofList (b.toList.map fun flag => if flag then '1' else '0') ++ "]"

end BitSet

end TaintFlow
