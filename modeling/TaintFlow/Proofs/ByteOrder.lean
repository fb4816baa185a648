import TaintFlow.NameMap

/-!
# The order of names by their bytes

Names are compared code point by code point, and a collection that is sorted outside of this
library is sorted by the bytes of its names. The two orders are one (`lt_iff_utf8_lt`): an
encoding in UTF-8 that is longer begins with a larger byte, encodings of one length put the
high digits first, and no encoding continues another.
-/

namespace TaintFlow

/-- The bytes of a text in UTF-8. -/
def utf8 (text : String) : List UInt8 := text.toUTF8.data.toList

theorem utf8_eq_flatMap (text : String) :
    utf8 text = text.toList.flatMap String.utf8EncodeChar := by
  rw [utf8, String.toUTF8, ← String.utf8Encode_toList, List.utf8Encode, List.data_toByteArray]

/-- Bytes are compared by the first of them, and behind equal first bytes by the rest. -/
theorem ofNat_cons_lt {m n : Nat} {rest more : List UInt8} (hm : m < 256) (hn : n < 256)
    (hle : m ≤ n) (hrest : m = n → rest < more) :
    UInt8.ofNat m :: rest < UInt8.ofNat n :: more := by
  rw [List.cons_lt_cons_iff, UInt8.lt_iff_toNat_lt, ← UInt8.toNat_inj, UInt8.toNat_ofNat',
    UInt8.toNat_ofNat', Nat.mod_eq_of_lt hm, Nat.mod_eq_of_lt hn]
  by_cases heq : m = n
  · exact .inr ⟨heq, hrest heq⟩
  · exact .inl (by omega)

/-- The encoding of a smaller character is smaller, whatever follows. -/
theorem utf8EncodeChar_lt {c d : Char} (h : c < d) (rest more : List UInt8) :
    String.utf8EncodeChar c ++ rest < String.utf8EncodeChar d ++ more := by
  have hlt : c.val.toNat < d.val.toNat := h
  have hmax : d.val.toNat < 1114112 := by
    have hvalid := d.valid
    simp only [UInt32.isValidChar, Nat.isValidChar] at hvalid
    omega
  simp only [String.utf8EncodeChar]
  generalize c.val.toNat = m at hlt
  generalize d.val.toNat = n at hlt hmax
  -- by the length of the first encoding; where the second is longer, its first byte decides
  split
  · split
    · exact ofNat_cons_lt (by omega) (by omega) (by omega) fun _ => by omega
    · split
      · exact ofNat_cons_lt (by omega) (by omega) (by omega) fun _ => by omega
      · split
        · exact ofNat_cons_lt (by omega) (by omega) (by omega) fun _ => by omega
        · exact ofNat_cons_lt (by omega) (by omega) (by omega) fun _ => by omega
  · rw [if_neg (show ¬ n ≤ 127 by omega)]
    split
    · split
      · exact ofNat_cons_lt (by omega) (by omega) (by omega) fun _ =>
          ofNat_cons_lt (by omega) (by omega) (by omega) fun _ => by omega
      · split
        · exact ofNat_cons_lt (by omega) (by omega) (by omega) fun _ => by omega
        · exact ofNat_cons_lt (by omega) (by omega) (by omega) fun _ => by omega
    · rw [if_neg (show ¬ n ≤ 2047 by omega)]
      split
      · split
        · exact ofNat_cons_lt (by omega) (by omega) (by omega) fun _ =>
            ofNat_cons_lt (by omega) (by omega) (by omega) fun _ =>
              ofNat_cons_lt (by omega) (by omega) (by omega) fun _ => by omega
        · exact ofNat_cons_lt (by omega) (by omega) (by omega) fun _ => by omega
      · rw [if_neg (show ¬ n ≤ 65535 by omega)]
        exact ofNat_cons_lt (by omega) (by omega) (by omega) fun _ =>
          ofNat_cons_lt (by omega) (by omega) (by omega) fun _ =>
            ofNat_cons_lt (by omega) (by omega) (by omega) fun _ =>
              ofNat_cons_lt (by omega) (by omega) (by omega) fun _ => by omega

theorem flatMap_utf8EncodeChar_lt {a b : List Char} (h : a < b) :
    a.flatMap String.utf8EncodeChar < b.flatMap String.utf8EncodeChar := by
  induction a generalizing b with
  | nil =>
      cases b with
      | nil => exact absurd h (List.not_lt_nil [])
      | cons d b =>
          rw [List.flatMap_nil, List.flatMap_cons]
          cases hencoded : String.utf8EncodeChar d with
          | nil => exact absurd hencoded String.utf8EncodeChar_ne_nil
          | cons byte bytes => exact List.nil_lt_cons byte _
  | cons c a ih =>
      cases b with
      | nil => exact absurd h (List.not_lt_nil _)
      | cons d b =>
          rw [List.flatMap_cons, List.flatMap_cons]
          rcases List.cons_lt_cons_iff.mp h with hlt | ⟨rfl, hrest⟩
          · exact utf8EncodeChar_lt hlt _ _
          · exact List.append_left_lt (ih hrest)

/-- Names in order are names whose bytes are in order. -/
theorem lt_iff_utf8_lt {a b : String} : a < b ↔ utf8 a < utf8 b := by
  have hmono : ∀ {x y : String}, x < y → utf8 x < utf8 y := by
    intro x y h
    rw [utf8_eq_flatMap, utf8_eq_flatMap]
    exact flatMap_utf8EncodeChar_lt h
  constructor
  · exact hmono
  · intro h
    by_cases hlt : a < b
    · exact hlt
    · by_cases hgt : b < a
      · exact absurd (hmono hgt) (List.lt_asymm h)
      · have heq : a = b := String.le_antisymm (String.not_lt.mp hgt) (String.not_lt.mp hlt)
        rw [heq] at h
        exact absurd h (List.lt_irrefl _)

end TaintFlow
