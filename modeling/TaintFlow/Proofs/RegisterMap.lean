import TaintFlow.Proofs.Registers

/-!
# One map for all registers

The taint of the register file is a map from offsets to flags, and registers are windows
on it. A change writes one stretch of offsets and keeps the others (`Writes`), whatever
register it was asked of. What any register shows afterwards follows from this alone: for
each of its bytes, the flag that was written if its offset lies in the stretch, and the
old flag if it does not. So nothing needs to be said about which registers share bytes.

A copy reads all that it copies before it writes. Its values are therefore those of the
map before the change, also where the two registers overlap and the write goes over bytes
that were still to be read.
-/

namespace TaintFlow

open ByteState

namespace ByteState

theorem setBytes_add {bytes : Nat → Bool} {offset width : Nat} {value : Nat → Bool} {i : Nat}
    (hi : i < width) : setBytes bytes offset width value (offset + i) = value i := by
  rw [setBytes, if_pos (by omega), Nat.add_sub_cancel_left]

end ByteState

namespace RegisterTaint

variable {L : Layout} {t u : RegisterTaint L}

/-- As many flags as `width` says, from `offset` on, have become `value 0`, `value 1` and
so on. -/
structure Writes (before after : RegisterTaint L) (offset width : Nat)
    (value : Nat → Bool) : Prop where
  written : ∀ i < width, after.flags.test (offset + i) = value i
  kept : ∀ x, ¬ (offset ≤ x ∧ x < offset + width) →
    after.flags.test x = before.flags.test x
  /-- A register shows the change in those of its bytes that were written. -/
  shown : ∀ register slot, L.slot register = .ok slot →
    before.pattern register = .ok (before.patternAt slot) ∧
      after.pattern register = .ok (after.patternAt slot) ∧
      ∀ j < slot.width, (after.patternAt slot).getD j false =
        if offset ≤ slot.offset + j ∧ slot.offset + j < offset + width then
          value (slot.offset + j - offset)
        else (before.patternAt slot).getD j false

theorem writes_of_setBytes {offset width : Nat} {value : Nat → Bool}
    (h : u.flags.test = setBytes t.flags.test offset width value) :
    t.Writes u offset width value where
  written i hi := by rw [h, setBytes_add hi]
  kept x hx := by rw [h, setBytes, if_neg hx]
  shown register slot hslot := by
    refine ⟨t.pattern_eq_ok hslot, u.pattern_eq_ok hslot, fun j hj => ?_⟩
    rw [u.getD_patternAt slot hj, t.getD_patternAt slot hj, h, setBytes]

theorem eq_of_test_eq (h : t.flags.test = u.flags.test) : t = u :=
  congrArg RegisterTaint.mk (BitSet.eq_of_test_eq h)

/-! ## The three changes -/

variable (t) {register dest src : String} {slot d s : Slot}

theorem exists_mark (hslot : L.slot register = .ok slot) (value : Bool) :
    ∃ after, (mark register value).run t = (.ok (), after) ∧
      t.Writes after slot.offset slot.width fun _ => value := by
  obtain ⟨after, hmark, hbytes⟩ := t.mark_eq_ok hslot value
  exact ⟨after, hmark, writes_of_setBytes hbytes⟩

theorem exists_load (hslot : L.slot register = .ok slot) {n : Nat} (bitmap : BitSet n)
    (hlength : slot.width ≤ n) :
    ∃ after, (load register bitmap).run t = (.ok (), after) ∧
      t.Writes after slot.offset slot.width bitmap.test := by
  obtain ⟨after, hload, hbytes⟩ := t.load_eq_ok hslot bitmap (Nat.not_lt.mpr hlength)
  exact ⟨after, hload, writes_of_setBytes hbytes⟩

theorem exists_copy (hdest : L.slot dest = .ok d) (hsrc : L.slot src = .ok s) :
    ∃ after, (copy dest src).run t = (.ok (), after) ∧
      t.Writes after d.offset (min d.width s.width) fun i =>
        t.flags.test (s.offset + i) := by
  obtain ⟨after, hcopy, hbytes⟩ := t.copy_eq_ok hdest hsrc
  exact ⟨after, hcopy, writes_of_setBytes hbytes⟩

/-! ## Changes that change nothing -/

/-- A register file after which the written flags are as they were is the same file. -/
theorem Writes.eq_self {t u : RegisterTaint L} {offset width : Nat} {value : Nat → Bool}
    (h : t.Writes u offset width value)
    (hvalue : ∀ i < width, value i = t.flags.test (offset + i)) : u = t := by
  refine eq_of_test_eq (funext fun x => ?_)
  by_cases hx : offset ≤ x ∧ x < offset + width
  · obtain ⟨i, rfl⟩ := Nat.exists_eq_add_of_le hx.1
    rw [h.written i (by omega), hvalue i (by omega)]
  · exact h.kept x hx

theorem load_bitmap (hslot : L.slot register = .ok slot) :
    ∃ bitmap, t.bitmap slot = .ok bitmap ∧ t.pattern register = .ok bitmap.toList ∧
      (load register bitmap).run t = (.ok (), t) := by
  obtain ⟨bitmap, hbitmap, hlist⟩ := t.exists_bitmap hslot
  obtain ⟨after, hload, hwrites⟩ := t.exists_load hslot bitmap (Nat.le_refl _)
  have hvalue : ∀ i < slot.width, bitmap.test i = t.flags.test (slot.offset + i) := by
    intro i hi
    rw [← bitmap.getD_toList hi, hlist, t.getD_patternAt slot hi]
  refine ⟨bitmap, hbitmap, ?_, ?_⟩
  · rw [hlist, t.pattern_eq_ok hslot]
  · rw [hload, hwrites.eq_self hvalue]

theorem copy_self (hslot : L.slot register = .ok slot) :
    (copy register register).run t = (.ok (), t) := by
  obtain ⟨after, hcopy, hwrites⟩ := t.exists_copy hslot hslot
  rw [hcopy, hwrites.eq_self fun _ _ => rfl]

/-- On a layout whose registers may overlap in any way, every change of a register writes
the flags of its bytes and no others. A copy writes the flags that its source had before,
a bitmap that is too short is refused and nothing written, and a register that takes its own
bitmap, or a copy of itself, leaves everything as it was. -/
theorem changes_write {r : String} {rs : Slot} (hr : L.slot r = .ok rs)
    (hdest : L.slot dest = .ok d) (hsrc : L.slot src = .ok s) :
    (∃ after, (taint r).run t = (.ok (), after) ∧
        t.Writes after rs.offset rs.width fun _ => true) ∧
      (∃ after, (untaint r).run t = (.ok (), after) ∧
        t.Writes after rs.offset rs.width fun _ => false) ∧
      (∀ (n : Nat) (bitmap : BitSet n), rs.width ≤ n →
        ∃ after, (load r bitmap).run t = (.ok (), after) ∧
          t.Writes after rs.offset rs.width bitmap.test) ∧
      (∀ (n : Nat) (bitmap : BitSet n), n < rs.width →
        (load r bitmap).run t = (.error (.bitmapTooShort r rs.width n), t)) ∧
      (∃ after, (copy dest src).run t = (.ok (), after) ∧
        t.Writes after d.offset (min d.width s.width) fun i =>
          t.flags.test (s.offset + i)) ∧
      (∃ bitmap, t.bitmap rs = .ok bitmap ∧ t.pattern r = .ok bitmap.toList ∧
        (load r bitmap).run t = (.ok (), t)) ∧
      (copy r r).run t = (.ok (), t) :=
  ⟨t.exists_mark hr true, t.exists_mark hr false, fun _ => t.exists_load hr,
    fun _ => t.load_of_short hr, t.exists_copy hdest hsrc, t.load_bitmap hr, t.copy_self hr⟩

/-- Two registers of four bytes each, of which two are the same. -/
def staggered : Layout where
  name := "staggered"
  contextSize := 6
  pointerWidth := 4
  stackPointer := "low"
  programCounter := "high"
  registers := .ofList [("low", ⟨0, 4⟩), ("high", ⟨2, 4⟩)]
  wellFormed := by decide

/-- The first two bytes are tainted. -/
def halfLow : RegisterTaint staggered := ⟨(BitSet.empty.put 0 true).put 1 true⟩

/-- The copy writes over the two bytes of its source that it is still to read. -/
theorem changes_write_staggered :
    staggered.slot "low" = .ok ⟨0, 4⟩ ∧ staggered.slot "high" = .ok ⟨2, 4⟩ ∧
      ∃ after, (copy "high" "low").run halfLow = (.ok (), after) ∧
        after.patternAt ⟨2, 4⟩ = [true, true, false, false] ∧
        after.patternAt ⟨0, 4⟩ = [true, true, true, true] := by
  have hlow : staggered.slot "low" = .ok ⟨0, 4⟩ := by decide
  have hhigh : staggered.slot "high" = .ok ⟨2, 4⟩ := by decide
  obtain ⟨-, -, -, -, ⟨after, hcopy, hwrites⟩, -⟩ := halfLow.changes_write hlow hhigh hlow
  have hbefore : halfLow.flags.test 0 = true ∧ halfLow.flags.test 1 = true ∧
      halfLow.flags.test 2 = false ∧ halfLow.flags.test 3 = false := by decide
  have hfirst := hwrites.written 0 (by decide)
  have hsecond := hwrites.written 1 (by decide)
  have hthird := hwrites.written 2 (by decide)
  have hfourth := hwrites.written 3 (by decide)
  have hkept := hwrites.kept 0 (by decide)
  have hkept' := hwrites.kept 1 (by decide)
  refine ⟨hlow, hhigh, after, hcopy, ?_, ?_⟩
  · simp_all [patternAt, List.range']
  · simp_all [patternAt, List.range']

end RegisterTaint

end TaintFlow
