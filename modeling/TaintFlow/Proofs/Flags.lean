import TaintFlow.BitSet

/-!
# The flags of a packed bit set

Packing is an affair of single bytes: setting a bit of a byte leaves its seven
neighbours alone (`getLsbD_withBit`), and two offsets with the same byte and the
same bit are the same offset. From `test_put` on no byte is mentioned any more.
A checked operation is then its total form under the condition that its offsets
are in range, which callers discharge once from the layout.

Flags are all that there is to a packed set. Two sets whose flags agree at every offset,
padding included, have the same bytes (`eq_of_test_eq`).
-/

namespace TaintFlow

theorem getLsbD_withBit (byte : UInt8) {k j : Nat} (hj : j < 8) (value : Bool) :
    (withBit byte k value).toBitVec.getLsbD j =
      if j = k then value else byte.toBitVec.getLsbD j := by
  have hmask : (UInt8.ofNat (1 <<< k)).toBitVec.getLsbD j = decide (j = k) := by
    show (BitVec.ofNat 8 (1 <<< k)).getLsbD j = _
    rw [BitVec.getLsbD_ofNat, Nat.one_shiftLeft, Nat.testBit_two_pow]
    simp [hj, eq_comm]
  unfold withBit
  cases value with
  | true =>
      show (byte.toBitVec ||| (UInt8.ofNat (1 <<< k)).toBitVec).getLsbD j = _
      rw [BitVec.getLsbD_or, hmask]
      by_cases h : j = k
      · simp [h]
      · simp [h]
  | false =>
      show (byte.toBitVec &&& ~~~(UInt8.ofNat (1 <<< k)).toBitVec).getLsbD j = _
      rw [BitVec.getLsbD_and, BitVec.getLsbD_not, hmask]
      by_cases h : j = k
      · simp [h]
      · simp [h, hj]

/-- Bit `i` of a run of bytes, the lowest bit of the first byte first. -/
def bitAt (bytes : List UInt8) (i : Nat) : Bool :=
  (bytes[i / 8]?.getD 0).toBitVec.getLsbD (i % 8)

namespace BitSet

variable {n : Nat}

theorem byte_lt {i : Nat} (h : i < n) : i / 8 < (n + 7) / 8 := by omega

@[simp] theorem test_empty (i : Nat) : (empty : BitSet n).test i = false := by
  rw [test, empty, Vector.getElem?_replicate]
  split
  · simp
  · simp

/-- A flag that is put is read back, and the other flags are as before. -/
theorem test_put (b : BitSet n) {i : Nat} (hi : i < n) (value : Bool) (j : Nat) :
    (b.put i value).test j = if j = i then value else b.test j := by
  have hbyte := byte_lt hi
  rw [test, put]
  simp only
  rw [Vector.getElem?_setIfInBounds]
  by_cases hsame : i / 8 = j / 8
  · rw [if_pos hsame, if_pos (hsame ▸ hbyte), Option.getD_some,
      getLsbD_withBit _ (Nat.mod_lt j (by omega)), test, hsame]
    by_cases hij : j = i
    · rw [if_pos hij, if_pos (by rw [hij])]
    · rw [if_neg hij, if_neg (by omega)]
  · rw [if_neg hsame, if_neg (by rintro rfl; exact hsame rfl), test]

theorem get_of_lt (b : BitSet n) {i : Nat} (hi : i < n) : b.get i = .ok (b.test i) :=
  if_pos hi

theorem set_of_lt (b : BitSet n) {i : Nat} (hi : i < n) (value : Bool) :
    b.set i value = .ok (b.put i value) := if_pos hi

/-- A range of flags that is in bounds is replaced by the values and nothing else. -/
theorem test_putAll (b : BitSet n) {offset : Nat} {values : List Bool}
    (h : offset + values.length ≤ n) (j : Nat) :
    (b.putAll offset values).test j =
      if offset ≤ j then values[j - offset]?.getD (b.test j) else b.test j := by
  induction values generalizing b offset with
  | nil => simp [putAll]
  | cons value values ih =>
      rw [List.length_cons] at h
      rw [putAll, ih _ (by omega), test_put b (by omega)]
      rcases Nat.lt_trichotomy j offset with hlt | rfl | hgt
      · rw [if_neg (by omega), if_neg (by omega), if_neg (by omega)]
      · rw [if_neg (by omega), if_pos rfl, if_pos (Nat.le_refl j), Nat.sub_self]
        rfl
      · rw [if_pos (show offset + 1 ≤ j from hgt), if_neg (by omega), if_pos (by omega),
          show j - offset = (j - (offset + 1)) + 1 by omega, List.getElem?_cons_succ]

theorem overwrite_of_le (b : BitSet n) {offset : Nat} {values : List Bool}
    (h : offset + values.length ≤ n) :
    b.overwrite offset values = .ok (b.putAll offset values) := by
  induction values generalizing b offset with
  | nil => rfl
  | cons value values ih =>
      rw [List.length_cons] at h
      rw [overwrite, set_of_lt b (by omega), putAll]
      exact ih _ (by omega)

theorem slice_of_le (b : BitSet n) {offset count : Nat} (h : offset + count ≤ n) :
    b.slice offset count = .ok ((List.range' offset count).map b.test) := by
  rw [slice]
  induction count generalizing offset with
  | zero => rfl
  | succ count ih =>
      rw [List.range'_succ, List.mapM_cons, get_of_lt b (by omega), ih (by omega)]
      rfl

/-! ## Flags and bytes -/

theorem test_eq_bitAt (b : BitSet n) (i : Nat) : b.test i = bitAt b.bytes.toList i := by
  rw [test, bitAt, Vector.getElem?_toList]

theorem eq_of_test_eq {a b : BitSet n} (h : a.test = b.test) : a = b := by
  obtain ⟨as⟩ := a
  obtain ⟨bs⟩ := b
  congr 1
  refine Vector.ext fun k hk => ?_
  refine UInt8.toBitVec_inj.mp (BitVec.eq_of_getLsbD_eq fun j hj => ?_)
  -- bit `j` of byte `k` is the flag with this number
  have hflag := congrFun h (8 * k + j)
  have hbyte : (8 * k + j) / 8 = k := by omega
  have hbit : (8 * k + j) % 8 = j := by omega
  simpa [test, hbyte, hbit, hk] using hflag

theorem getElem_toList (b : BitSet n) {i : Nat} (hi : i < b.toList.length) :
    b.toList[i] = b.test i := by
  simp [toList]

@[simp] theorem length_toList (b : BitSet n) : b.toList.length = n := by
  simp [toList]

theorem getD_toList (b : BitSet n) {i : Nat} (hi : i < n) : b.toList.getD i false = b.test i := by
  simp [toList, hi]

theorem test_ofList (values : List Bool) (i : Nat) :
    (ofList values).test i = values.getD i false := by
  rw [ofList, test_putAll _ (by omega), if_pos (Nat.zero_le i), test_empty, Nat.sub_zero,
    List.getD_eq_getElem?_getD]

theorem toList_ofList (values : List Bool) : (ofList values).toList = values := by
  refine List.ext_getElem (length_toList _) fun i _ hi => ?_
  rw [getElem_toList, test_ofList, List.getD_eq_getElem?_getD, List.getElem?_eq_getElem hi]
  rfl

/-- Written over all flags of a set, some values are its list. -/
theorem exists_overwrite_empty {values : List Bool} (h : values.length = n) :
    ∃ b : BitSet n, empty.overwrite 0 values = .ok b ∧ b.toList = values := by
  subst h
  exact ⟨ofList values, overwrite_of_le _ (by omega), toList_ofList values⟩

end BitSet

end TaintFlow
