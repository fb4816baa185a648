import TaintFlow.Json.Token
import TaintFlow.Proofs.Flags
import TaintFlow.Replay.Report

/-!
# Bitmaps as text

A report shows the pattern of a register as hexadecimal digits: the flags are packed eight
to a byte, and a byte is two digits, its high half first. Reading goes the other way,
digits to bytes (`Hex.toBytes?`) and bytes to bits (`bitAt`), and what is read of a bitmap
is the pattern, followed by clear bits up to the end of the last byte.
-/

namespace TaintFlow

/-! ## Hexadecimal digits -/

namespace Hex

/-- The bytes that pairs of digits stand for. -/
def pairs? : List Char → Option (List UInt8)
  | [] => some []
  | [_] => none
  | high :: low :: rest => do
    let high ← Json.hexDigit? high
    let low ← Json.hexDigit? low
    let bytes ← pairs? rest
    return UInt8.ofNat (16 * high + low) :: bytes

/-- The bytes of a text of digits. -/
def toBytes? (text : String) : Option (List UInt8) := pairs? text.toList

theorem hexDigit?_digitChar : ∀ n < 16, Json.hexDigit? (Nat.digitChar n) = some n := by decide

theorem toBytes?_ofBytes (bytes : List UInt8) : toBytes? (ofBytes bytes) = some bytes := by
  rw [toBytes?, ofBytes, String.toList_ofList]
  induction bytes with
  | nil => rfl
  | cons byte bytes ih =>
      have hlt : byte.toNat < 256 := byte.toNat_lt
      have hhalves : UInt8.ofNat (16 * (byte.toNat / 16) + byte.toNat % 16) = byte := by
        rw [Nat.div_add_mod, UInt8.ofNat_toNat]
      have hhigh := hexDigit?_digitChar (byte.toNat / 16) (by omega)
      have hlow := hexDigit?_digitChar (byte.toNat % 16) (by omega)
      simp only [List.flatMap_cons, digitPair, List.cons_append, List.nil_append, pairs?, hhigh,
        hlow, ih, Option.bind_eq_bind, Option.bind_some, hhalves]
      rfl

end Hex

/-! ## Bitmaps -/

namespace Report

/-- The flags that a bitmap shows, as many as its bytes have bits. -/
def flags? (text : String) : Option (List Bool) :=
  (Hex.toBytes? text).map fun bytes => (List.range (8 * bytes.length)).map (bitAt bytes)

theorem exists_bytes_bitmapText (pattern : List Bool) :
    ∃ bytes, Hex.toBytes? (bitmapText pattern) = some bytes ∧
      bytes.length = (pattern.length + 7) / 8 ∧ ∀ i, bitAt bytes i = pattern.getD i false := by
  refine ⟨(BitSet.ofList pattern).bytes.toList, Hex.toBytes?_ofBytes _, Vector.length_toList, ?_⟩
  intro i
  rw [← BitSet.test_eq_bitAt, BitSet.test_ofList]

/-- What a bitmap shows begins with the pattern that was written. -/
theorem exists_flags_bitmapText (pattern : List Bool) :
    ∃ flags, flags? (bitmapText pattern) = some flags ∧ pattern.length ≤ flags.length ∧
      ∀ i < pattern.length, flags.getD i false = pattern.getD i false := by
  obtain ⟨bytes, hbytes, hlength, hbits⟩ := exists_bytes_bitmapText pattern
  have hle : pattern.length ≤ 8 * bytes.length := by omega
  refine ⟨_, by rw [flags?, hbytes, Option.map_some], by simpa using hle, fun i hi => ?_⟩
  rw [List.getD_eq_getElem?_getD, List.getElem?_map, List.getElem?_range (by omega), ← hbits]
  rfl

end Report

end TaintFlow
