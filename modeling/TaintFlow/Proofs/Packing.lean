import Mathlib.Data.Set.Card
import TaintFlow.Proofs.Flags

/-!
# What writes leave in a packed set

Comparing two sets, counting flags and looking for one all work on whole bytes, padding
included. That they speak of flags rests on the padding: it is clear at the start, and no write
touches it, neither one that sets a flag of the last byte nor one that fills all bytes at once.

`Shows` is what every write keeps: the flags below the length are those that were put there,
and every bit past them is clear. What a run of writes shows is then, at every offset, the value
that was written last. As the bits are all that there is to the bytes, two sets of one length
that show the same flags are the same.
-/

namespace TaintFlow

/-! ## Counting packed flags -/

theorem bitAt_cons_of_lt (byte : UInt8) (bytes : List UInt8) {i : Nat} (hi : i < 8) :
    bitAt (byte :: bytes) i = byte.toBitVec.getLsbD i := by
  simp [bitAt, Nat.div_eq_of_lt hi, Nat.mod_eq_of_lt hi]

theorem bitAt_cons_add (byte : UInt8) (bytes : List UInt8) (i : Nat) :
    bitAt (byte :: bytes) (8 + i) = bitAt bytes i := by
  rw [bitAt, show (8 + i) / 8 = i / 8 + 1 by omega, Nat.add_mod_left,
    List.getElem?_cons_succ, bitAt]

theorem foldl_bitCount (bytes : List UInt8) (start : Nat) :
    bytes.foldl (fun total byte => total + bitCount byte) start =
      start + (List.range (8 * bytes.length)).countP (bitAt bytes) := by
  induction bytes generalizing start with
  | nil => rfl
  | cons byte bytes ih =>
      -- the first eight offsets lie in the first byte, and the others are shifted by eight
      have hfirst : (List.range 8).countP (bitAt (byte :: bytes)) = bitCount byte := by
        refine List.countP_congr ?_
        intro i hi
        rw [bitAt_cons_of_lt byte bytes (List.mem_range.mp hi)]
      have hrest : ((List.range (8 * bytes.length)).map (8 + ·)).countP
          (bitAt (byte :: bytes)) = (List.range (8 * bytes.length)).countP (bitAt bytes) := by
        rw [List.countP_map]
        refine List.countP_congr ?_
        intro i _
        rw [Function.comp_apply, bitAt_cons_add]
      rw [List.foldl_cons, ih, List.length_cons, Nat.mul_succ, Nat.add_comm _ 8,
        List.range_add, List.countP_append, hfirst, hrest, Nat.add_assoc]

namespace BitSet

variable {n : Nat}

theorem count_eq_countP (b : BitSet n) :
    b.count = (List.range (8 * ((n + 7) / 8))).countP b.test := by
  have hlength : b.bytes.toList.length = (n + 7) / 8 := Vector.length_toList
  rw [count, foldl_bitCount, hlength, Nat.zero_add, ← funext b.test_eq_bitAt]

/-- Where no flag is set from an offset on, only those below it count. -/
theorem count_eq_of_clear {m : Nat} (b : BitSet n) (hm : m ≤ n)
    (hclear : ∀ i, b.test i = true → i < m) : b.count = (List.range m).countP b.test := by
  obtain ⟨k, hk⟩ := Nat.exists_eq_add_of_le (show m ≤ 8 * ((n + 7) / 8) by omega)
  have hrest : ((List.range k).map (m + ·)).countP b.test = 0 := by
    rw [List.countP_eq_zero]
    intro i hi hset
    obtain ⟨j, -, rfl⟩ := List.mem_map.mp hi
    have := hclear _ hset
    omega
  rw [count_eq_countP, hk, List.range_add, List.countP_append, hrest, Nat.add_zero]

/-! ## Whole bytes -/

theorem getLsbD_lowBits (count : Nat) {j : Nat} (hj : j < 8) :
    (UInt8.ofNat ((1 <<< count) - 1)).toBitVec.getLsbD j = decide (j < count) := by
  show (BitVec.ofNat 8 ((1 <<< count) - 1)).getLsbD j = _
  rw [BitVec.getLsbD_ofNat, Nat.one_shiftLeft, Nat.testBit_two_pow_sub_one, decide_eq_true hj,
    Bool.true_and]

/-- A byte of a filled set has as many low bits set as there are flags in it. -/
theorem getElem?_bytes_full {k : Nat} (hk : k < (n + 7) / 8) :
    (full : BitSet n).bytes[k]? = some (UInt8.ofNat ((1 <<< min 8 (n - 8 * k)) - 1)) := by
  rw [full]
  split
  · next htail =>
      rw [Vector.getElem?_setIfInBounds, Vector.getElem?_replicate, if_pos hk]
      by_cases hlast : (n + 7) / 8 - 1 = k
      · rw [if_pos hlast, if_pos (hlast ▸ hk), show min 8 (n - 8 * k) = n % 8 by omega]
      · rw [if_neg hlast, show min 8 (n - 8 * k) = 8 by omega]
        rfl
  · next hwhole =>
      rw [Vector.getElem?_replicate, if_pos hk, show min 8 (n - 8 * k) = 8 by omega]
      rfl

theorem test_full (i : Nat) : (full : BitSet n).test i = decide (i < n) := by
  have hbit : i % 8 < 8 := Nat.mod_lt i (by omega)
  rw [test]
  by_cases hi : i / 8 < (n + 7) / 8
  · rw [getElem?_bytes_full hi, Option.getD_some, getLsbD_lowBits _ hbit, decide_eq_decide]
    omega
  · have hpast : ¬ i < n := by omega
    rw [Vector.getElem?_eq_none (by omega), decide_eq_false hpast]
    simp

theorem exists_bit_of_ne_zero {byte : UInt8} (h : byte ≠ 0) :
    ∃ j < 8, byte.toBitVec.getLsbD j = true := by
  by_contra hnone
  push Not at hnone
  refine h (UInt8.toBitVec_inj.mp (BitVec.eq_of_getLsbD_eq fun j hj => ?_))
  simpa using hnone j hj

/-- Some byte is not zero where some bit is set, padding included. -/
theorem any_iff (b : BitSet n) : b.any = true ↔ ∃ i, b.test i = true := by
  simp only [any, List.any_eq_true, bne_iff_ne, test_eq_bitAt, bitAt]
  constructor
  · rintro ⟨byte, hmem, hbyte⟩
    obtain ⟨k, hk⟩ := List.mem_iff_getElem?.mp hmem
    obtain ⟨j, hj, hset⟩ := exists_bit_of_ne_zero hbyte
    refine ⟨8 * k + j, ?_⟩
    rwa [show (8 * k + j) / 8 = k by omega, show (8 * k + j) % 8 = j by omega, hk,
      Option.getD_some]
  · rintro ⟨i, hset⟩
    cases hbyte : b.bytes.toList[i / 8]? with
    | none => simp [hbyte] at hset
    | some byte =>
        rw [hbyte, Option.getD_some] at hset
        refine ⟨byte, List.mem_of_getElem? hbyte, ?_⟩
        rintro rfl
        simp at hset

/-- A flag is a bit of a byte that is there. -/
theorem exists_byte (b : BitSet n) {i : Nat} (hi : i < n) :
    ∃ byte, b.bytes.toList[i / 8]? = some byte ∧
      b.get i = .ok (byte.toNat.testBit (i % 8)) := by
  have hlt : i / 8 < b.bytes.toList.length := by
    rw [Vector.length_toList]
    exact byte_lt hi
  refine ⟨b.bytes.toList[i / 8], List.getElem?_eq_getElem hlt, ?_⟩
  rw [get_of_lt b hi, test_eq_bitAt, bitAt, List.getElem?_eq_getElem hlt]
  rfl

/-- Sets of one length and with the same bits have the same bytes. -/
theorem same_iff {m : Nat} (a : BitSet n) (b : BitSet m) :
    a.same b = true ↔ n = m ∧ a.test = b.test := by
  simp only [same, Bool.and_eq_true, beq_iff_eq]
  constructor
  · rintro ⟨hlength, hbytes⟩
    refine ⟨hlength, funext fun i => ?_⟩
    rw [test_eq_bitAt, test_eq_bitAt, hbytes]
  · rintro ⟨rfl, htest⟩
    rw [eq_of_test_eq htest]
    exact ⟨rfl, rfl⟩

/-! ## What a set shows -/

/-- The flags below the length are these, and every bit past them is clear. -/
def Shows (b : BitSet n) (flags : Nat → Bool) : Prop :=
  ∀ i, b.test i = (decide (i < n) && flags i)

namespace Shows

variable {b : BitSet n} {flags : Nat → Bool}

theorem get_eq (h : b.Shows flags) {i : Nat} (hi : i < n) : b.get i = .ok (flags i) := by
  rw [get_of_lt b hi, h i, decide_eq_true hi, Bool.true_and]

theorem lt_of_test (h : b.Shows flags) {i : Nat} (hset : b.test i = true) : i < n := by
  rw [h i, Bool.and_eq_true, decide_eq_true_iff] at hset
  exact hset.1

theorem count_eq_ncard (h : b.Shows flags) :
    b.count = {i | i < n ∧ b.get i = .ok true}.ncard := by
  have hset : {i | i < n ∧ b.get i = .ok true} =
      ↑((Finset.range n).filter fun i => b.test i = true) := by
    ext i
    simp only [Set.mem_ofPred_eq, Finset.coe_filter, Finset.mem_range]
    refine and_congr_right fun hi => ?_
    rw [get_of_lt b hi, Except.ok.injEq]
  have hcard : ((Finset.range n).filter fun i => b.test i = true).card =
      (List.range n).countP b.test := by
    rw [List.countP_eq_length_filter, Finset.card, Finset.filter_val, Finset.range_val]
    simp [Multiset.range]
  rw [hset, Set.ncard_coe_finset, hcard]
  exact b.count_eq_of_clear (Nat.le_refl n) fun _ => h.lt_of_test

theorem any_eq_true_iff (h : b.Shows flags) :
    b.any = true ↔ ∃ i < n, b.get i = .ok true := by
  rw [any_iff]
  constructor
  · rintro ⟨i, hset⟩
    have hi := h.lt_of_test hset
    exact ⟨i, hi, by rw [get_of_lt b hi, hset]⟩
  · rintro ⟨i, hi, hget⟩
    rw [get_of_lt b hi, Except.ok.injEq] at hget
    exact ⟨i, hget⟩

/-- A bit past the flags is clear. -/
theorem padding_clear (h : b.Shows flags) {k j : Nat} {byte : UInt8} (hj : j < 8)
    (hbyte : b.bytes.toList[k]? = some byte) (hpast : n ≤ 8 * k + j) :
    byte.toNat.testBit j = false := by
  have hclear := h (8 * k + j)
  rw [decide_eq_false (by omega), Bool.false_and, test_eq_bitAt, bitAt,
    show (8 * k + j) / 8 = k by omega, show (8 * k + j) % 8 = j by omega, hbyte] at hclear
  exact hclear

theorem same_iff {m : Nat} {b' : BitSet m} {flags' : Nat → Bool} (h : b.Shows flags)
    (h' : b'.Shows flags') : b.same b' = true ↔ n = m ∧ ∀ i < n, b.get i = b'.get i := by
  rw [BitSet.same_iff]
  refine and_congr_right ?_
  rintro rfl
  constructor
  · intro htest i hi
    rw [get_of_lt b hi, get_of_lt b' hi, htest]
  · intro hget
    funext i
    by_cases hi : i < n
    · have hflag := hget i hi
      rwa [get_of_lt b hi, get_of_lt b' hi, Except.ok.injEq] at hflag
    · rw [h i, h' i, decide_eq_false hi, Bool.false_and, Bool.false_and]

end Shows

/-! ## Runs of writes -/

/-- A change of a packed set. -/
inductive Write where
  | set (offset : Nat) (value : Bool)
  | fill
  | clear

/-- The flag that a write sets lies among `n`. -/
def Write.Fits (n : Nat) : Write → Prop
  | .set offset _ => offset < n
  | .fill => True
  | .clear => True

/-- What a write puts at offset `i`, if it reaches there. -/
def Write.valueAt (i : Nat) : Write → Option Bool
  | .set offset value => if i = offset then some value else none
  | .fill => some true
  | .clear => some false

def write (b : BitSet n) : Write → Except Error (BitSet n)
  | .set offset value => b.set offset value
  | .fill => .ok full
  | .clear => .ok empty

/-- What some writes make of the set without flags. -/
def ofWrites (writes : List Write) : Except Error (BitSet n) := writes.foldlM write empty

/-- The value that was written last at offset `i`, clear where none was. -/
def lastWritten (writes : List Write) (i : Nat) : Bool :=
  (writes.reverse.findSome? (·.valueAt i)).getD false

theorem shows_empty : (empty : BitSet n).Shows fun _ => false := by
  intro i
  rw [test_empty, Bool.and_false]

theorem exists_write (b : BitSet n) {w : Write} (hw : w.Fits n) :
    ∃ next, b.write w = .ok next := by
  cases w with
  | set offset value => exact ⟨_, b.set_of_lt hw value⟩
  | fill => exact ⟨full, rfl⟩
  | clear => exact ⟨empty, rfl⟩

/-- A write replaces what it reaches, and leaves the other flags and the padding as they are. -/
theorem Shows.write {b next : BitSet n} {flags : Nat → Bool} (h : b.Shows flags) {w : Write}
    (hw : b.write w = .ok next) : next.Shows fun i => (w.valueAt i).getD (flags i) := by
  cases w with
  | set offset value =>
      rw [BitSet.write, set] at hw
      split at hw
      · next hlt =>
          cases hw
          intro i
          rw [test_put b hlt, h i]
          by_cases hi : i = offset
          · simp [Write.valueAt, hi, hlt]
          · simp [Write.valueAt, hi]
      · cases hw
  | fill =>
      cases hw
      intro i
      simp [test_full, Write.valueAt]
  | clear =>
      cases hw
      intro i
      simp [Write.valueAt]

theorem Shows.foldlM_write {b last : BitSet n} {flags : Nat → Bool} (h : b.Shows flags)
    {writes : List Write} (hrun : writes.foldlM BitSet.write b = .ok last) :
    last.Shows fun i => (writes.reverse.findSome? (·.valueAt i)).getD (flags i) := by
  induction writes generalizing b flags with
  | nil =>
      cases hrun
      exact h
  | cons w writes ih =>
      rw [List.foldlM_cons] at hrun
      cases hw : b.write w with
      | error e =>
          rw [hw] at hrun
          cases hrun
      | ok next =>
          rw [hw] at hrun
          intro i
          simp only [ih (h.write hw) hrun i, List.reverse_cons, List.findSome?_append]
          -- the first write counts where no later one reaches
          cases hvalue : w.valueAt i <;> simp [hvalue]

theorem exists_foldlM_write (b : BitSet n) {writes : List Write}
    (h : ∀ w ∈ writes, w.Fits n) : ∃ last, writes.foldlM write b = .ok last := by
  induction writes generalizing b with
  | nil => exact ⟨b, rfl⟩
  | cons w writes ih =>
      obtain ⟨next, hw⟩ := b.exists_write (h w List.mem_cons_self)
      rw [List.foldlM_cons, hw]
      exact ih next fun w' hw' => h w' (List.mem_cons_of_mem w hw')

/-- A run of writes in range is never refused, and leaves a set in as few bytes as hold its
flags. Flag `i` is bit `i % 8` of byte `i / 8` and has the value that was written to it last;
the bits past the flags are clear. Counting and looking for a set flag agree with reading the
flags one by one, and sets that writes lead to are the same exactly when they have one length
and are read alike. -/
theorem canonical_ofWrites {writes : List Write} (h : ∀ w ∈ writes, w.Fits n) :
    ∃ b : BitSet n, ofWrites writes = .ok b ∧
      b.bytes.toList.length = (n + 7) / 8 ∧
      (∀ i < n, ∃ byte, b.bytes.toList[i / 8]? = some byte ∧
        b.get i = .ok (byte.toNat.testBit (i % 8))) ∧
      (∀ k byte, b.bytes.toList[k]? = some byte →
        ∀ j < 8, n ≤ 8 * k + j → byte.toNat.testBit j = false) ∧
      (∀ i < n, b.get i = .ok (lastWritten writes i)) ∧
      b.count = {i | i < n ∧ b.get i = .ok true}.ncard ∧
      (b.any = true ↔ ∃ i < n, b.get i = .ok true) ∧
      ∀ (m : Nat) (writes' : List Write) (b' : BitSet m), ofWrites writes' = .ok b' →
        (b.same b' = true ↔ n = m ∧ ∀ i < n, b.get i = b'.get i) := by
  obtain ⟨b, hb⟩ := (empty : BitSet n).exists_foldlM_write h
  have hshows := shows_empty.foldlM_write hb
  refine ⟨b, hb, Vector.length_toList, fun i hi => b.exists_byte hi,
    fun k byte hbyte j hj hpast => hshows.padding_clear hj hbyte hpast,
    fun i hi => hshows.get_eq hi, hshows.count_eq_ncard, hshows.any_eq_true_iff, ?_⟩
  intro m writes' b' hb'
  exact hshows.same_iff (shows_empty.foldlM_write hb')

/-- A filling sets four flags of the second byte, and leaves its other bits clear. -/
theorem canonical_ofWrites_padded :
    ∃ b : BitSet 12, ofWrites [.set 5 true, .fill, .set 3 false] = .ok b ∧
      b.bytes.toList = [0xf7, 0x0f] ∧ b.get 3 = .ok false ∧ b.get 11 = .ok true ∧
      b.count = 11 ∧ {i | i < 12 ∧ b.get i = .ok true}.ncard = 11 := by
  have hfits : ∀ w ∈ [Write.set 5 true, .fill, .set 3 false], w.Fits 12 := by
    simp [Write.Fits]
  obtain ⟨b, hb, -, -, -, hget, hcount, -⟩ := canonical_ofWrites hfits
  have hbits : b = ⟨#v[0xf7, 0x0f]⟩ := by
    rw [show ofWrites [.set 5 true, .fill, .set 3 false] = .ok (⟨#v[0xf7, 0x0f]⟩ : BitSet 12)
      from rfl] at hb
    cases hb
    rfl
  have h11 : b.count = 11 := by
    rw [hbits]
    rfl
  exact ⟨b, hb, by rw [hbits]; rfl, hget 3 (by decide), hget 11 (by decide), h11,
    hcount.symm.trans h11⟩

end BitSet

end TaintFlow
