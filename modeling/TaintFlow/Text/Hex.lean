/-!
# Hexadecimal text

Addresses and sizes are shown with a leading `0x` and no padding, packed bytes
as two digits each. Both are written in lowercase, high half first.
-/

namespace TaintFlow.Hex

/-- A number with the marker `0x` and as few digits as it needs. -/
def ofNat (n : Nat) : String :=
  String.ofList ('0' :: 'x' :: Nat.toDigits 16 n)

def digitPair (byte : UInt8) : List Char :=
  [Nat.digitChar (byte.toNat / 16), Nat.digitChar (byte.toNat % 16)]

/-- A run of bytes, the first byte first, without marker or separator. -/
def ofBytes (bytes : List UInt8) : String :=
  String.ofList (bytes.flatMap digitPair)

end TaintFlow.Hex
