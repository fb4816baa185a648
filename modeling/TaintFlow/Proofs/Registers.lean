import TaintFlow.Machine.Amd64
import TaintFlow.Proofs.ByteMachine
import TaintFlow.Proofs.Flags

/-!
# Registers as bytes

A layout that passed its check keeps every slot inside the context, so no access
to a flag is ever out of range: an operation on registers is refused for what its
caller can see, the name or the length of a bitmap, and otherwise it writes one
stretch of the context. Slots may overlap in any way, and nothing here asks
whether they do.
-/

namespace TaintFlow

open ByteState

theorem NameMap.mem_of_get? {α : Type} {map : NameMap α} {name : String} {value : α}
    (h : map.get? name = some value) : (name, value) ∈ map.entries := by
  obtain ⟨before, after, hentries, -⟩ := List.lookup_eq_some_iff.mp h
  rw [hentries]
  simp

/-- Names are in ascending order, so that an entry is not hidden by an earlier one. -/
theorem NameMap.get?_of_mem {α : Type} {map : NameMap α} {name : String} {value : α}
    (h : (name, value) ∈ map.entries) : map.get? name = some value := by
  obtain ⟨before, after, hentries⟩ := List.append_of_mem h
  refine List.lookup_eq_some_iff.mpr ⟨before, after, hentries, ?_⟩
  intro entry hbefore
  have hascending := map.ascending
  rw [hentries, List.pairwise_append] at hascending
  have hlt : entry.1 < name := hascending.2.2 entry hbefore _ List.mem_cons_self
  rw [bne_iff_ne]
  rintro rfl
  exact String.lt_irrefl _ hlt

theorem Layout.slot_eq_ok {L : Layout} {register : String} {slot : Slot}
    (h : L.slot register = .ok slot) : L.registers.get? register = some slot := by
  rw [LayoutDescription.slot] at h
  split at h
  · next found hfound =>
      cases h
      exact hfound
  · cases h

theorem Layout.slot_fits {L : Layout} {register : String} {slot : Slot}
    (h : L.slot register = .ok slot) :
    0 < slot.width ∧ slot.offset + slot.width ≤ L.contextSize :=
  L.wellFormed.slots_fit _ (NameMap.mem_of_get? (Layout.slot_eq_ok h))

/-- The program counter is there and as wide as a pointer. -/
theorem Layout.exists_programCounter (L : Layout) :
    ∃ slot, L.slot L.programCounter = .ok slot ∧ slot.width = L.pointerWidth := by
  have h := L.wellFormed.programCounter_width
  obtain ⟨slot, hslot, hwidth⟩ := Option.map_eq_some_iff.mp h
  refine ⟨slot, ?_, hwidth⟩
  rw [LayoutDescription.slot, hslot]

/-- Registers of x86-64 are found in the list that describes them. -/
theorem Layout.slot_amd64 {register : String} {slot : Slot}
    (h : Layout.amd64Registers.reverse.lookup register = some slot) :
    Layout.amd64.slot register = .ok slot := by
  have hget : Layout.amd64.registers.get? register = some slot :=
    (NameMap.get?_ofList _ _).trans h
  rw [LayoutDescription.slot, hget]

/-! ## Stretches of flags -/

namespace ByteState

variable {bytes : Nat → Bool} {offset width : Nat} {value value' : Nat → Bool}

theorem setBytes_congr (h : ∀ i < width, value i = value' i) :
    setBytes bytes offset width value = setBytes bytes offset width value' := by
  funext j
  rw [setBytes, setBytes]
  split
  · next hj => exact h _ (by omega)
  · rfl

@[simp] theorem setBytes_zero : setBytes bytes offset 0 value = bytes := by
  funext j
  rw [setBytes, if_neg (by omega)]

/-- The first flag can be set before the others. -/
theorem setBytes_succ : setBytes bytes offset (width + 1) value =
    setBytes (fun j => if j = offset then value 0 else bytes j) (offset + 1) width
      fun i => value (i + 1) := by
  funext j
  rw [setBytes, setBytes]
  rcases Nat.lt_trichotomy j offset with hlt | rfl | hgt
  · rw [if_neg (by omega), if_neg (by omega), if_neg (by omega)]
  · rw [if_pos (by omega), if_neg (by omega), if_pos rfl, Nat.sub_self]
  · by_cases hj : j < offset + (width + 1)
    · rw [if_pos (by omega), if_pos (by omega), show j - offset = j - (offset + 1) + 1 by omega]
    · rw [if_neg (by omega), if_neg (by omega), if_neg (by omega)]

/-- A pattern is written as the flags that it has. -/
theorem setBytes_pattern {pattern : List Bool} (hlength : pattern.length = width)
    (h : ∀ i < width, pattern.getD i false = value i) :
    setBytes bytes offset pattern.length (fun i => pattern.getD i false) =
      setBytes bytes offset width value := by
  subst hlength
  exact setBytes_congr h

end ByteState

namespace RegisterTaint

variable {L : Layout}

/-! ## Reading -/

/-- The flags of the bytes of a slot, lowest byte first. -/
def patternAt (t : RegisterTaint L) (slot : Slot) : List Bool :=
  (List.range' slot.offset slot.width).map t.flags.test

@[simp] theorem length_patternAt (t : RegisterTaint L) (slot : Slot) :
    (t.patternAt slot).length = slot.width := by
  simp [patternAt]

@[simp] theorem getElem_patternAt (t : RegisterTaint L) (slot : Slot) {i : Nat}
    (hi : i < (t.patternAt slot).length) :
    (t.patternAt slot)[i] = t.flags.test (slot.offset + i) := by
  simp [patternAt]

theorem getD_patternAt (t : RegisterTaint L) (slot : Slot) {i : Nat} (hi : i < slot.width) :
    (t.patternAt slot).getD i false = t.flags.test (slot.offset + i) := by
  simp [patternAt, hi]

theorem read_of_le (t : RegisterTaint L) (slot : Slot)
    (h : slot.offset + slot.width ≤ L.contextSize) : t.read slot = .ok (t.patternAt slot) :=
  BitSet.slice_of_le _ (by omega)

theorem read_slot (t : RegisterTaint L) {register : String} {slot : Slot}
    (hslot : L.slot register = .ok slot) : t.read slot = .ok (t.patternAt slot) :=
  t.read_of_le slot (Layout.slot_fits hslot).2

theorem exists_bitmap (t : RegisterTaint L) {register : String} {slot : Slot}
    (hslot : L.slot register = .ok slot) :
    ∃ bitmap, t.bitmap slot = .ok bitmap ∧ bitmap.toList = t.patternAt slot := by
  rw [bitmap, t.read_slot hslot]
  exact BitSet.exists_overwrite_empty (t.length_patternAt slot)

/-- A register that is known can be read. -/
theorem pattern_eq_ok (t : RegisterTaint L) {register : String} {slot : Slot}
    (hslot : L.slot register = .ok slot) : t.pattern register = .ok (t.patternAt slot) := by
  obtain ⟨bitmap, hbitmap, hlist⟩ := t.exists_bitmap hslot
  rw [pattern, hslot]
  simp only [bind, Except.bind, hbitmap, hlist]
  rfl

/-! ## Writing -/

theorem run_setFlag (t : RegisterTaint L) {offset : Nat} (h : offset < L.contextSize)
    (value : Bool) :
    (setFlag offset value).run t = (.ok (), ⟨t.flags.put offset value⟩) := by
  rw [setFlag, Mutation.run_bind, Mutation.run_get]
  exact Mutation.run_bind_of_ok (t.flags.set_of_lt (by omega) value) _ t

/-- A loop that sets the flags from `offset` on, one in each turn. -/
theorem run_forM_setFlag {α : Type} {items : List α}
    {turn : α → Mutation (RegisterTaint L) Unit} {offset width : Nat} {value : Nat → Bool}
    (hlength : items.length = width) (hfits : offset + width ≤ L.contextSize)
    (hturn : ∀ i (hi : i < items.length), turn items[i] = setFlag (offset + i) (value i))
    (t : RegisterTaint L) :
    ∃ after, Mutation.run (items.forM turn) t = (.ok (), after) ∧
      after.flags.test = setBytes t.flags.test offset width value := by
  subst hlength
  induction items generalizing offset value t with
  | nil => exact ⟨t, rfl, setBytes_zero.symm⟩
  | cons item items ih =>
      rw [List.length_cons] at hfits
      have hfirst : turn item = setFlag offset (value 0) := hturn 0 (Nat.succ_pos _)
      have hlater : ∀ i (hi : i < items.length),
          turn items[i] = setFlag (offset + 1 + i) (value (i + 1)) := by
        intro i hi
        rw [Nat.add_assoc, Nat.add_comm 1 i]
        exact hturn (i + 1) (Nat.succ_lt_succ hi)
      obtain ⟨after, hrest, hbytes⟩ := ih hlater ⟨t.flags.put offset (value 0)⟩
        (by omega)
      refine ⟨after, ?_, ?_⟩
      · show Mutation.run (turn item >>= fun _ => items.forM turn) t = _
        rw [Mutation.run_bind, hfirst, t.run_setFlag (by omega)]
        exact hrest
      · have hput : (t.flags.put offset (value 0)).test =
            fun j => if j = offset then value 0 else t.flags.test j :=
          funext (t.flags.test_put (by omega) (value 0))
        rw [hbytes, List.length_cons, setBytes_succ, hput]

section

variable (t : RegisterTaint L) {register dest src : String} {slot d s : Slot}

theorem mark_eq_ok (hslot : L.slot register = .ok slot) (value : Bool) :
    ∃ after, (mark register value).run t = (.ok (), after) ∧ after.flags.test =
      setBytes t.flags.test slot.offset slot.width fun _ => value := by
  rw [mark, Mutation.run_bind_of_ok hslot]
  refine run_forM_setFlag List.length_range' (Layout.slot_fits hslot).2 ?_ t
  simp

theorem load_eq_ok {n : Nat} (hslot : L.slot register = .ok slot) (bitmap : BitSet n)
    (hlength : ¬ n < slot.width) :
    ∃ after, (load register bitmap).run t = (.ok (), after) ∧ after.flags.test =
      setBytes t.flags.test slot.offset slot.width bitmap.test := by
  rw [load, Mutation.run_bind_of_ok hslot, if_neg hlength]
  refine run_forM_setFlag List.length_range (Layout.slot_fits hslot).2 ?_ t
  intro i hi
  -- the check of the length is what makes the flag of the bitmap exist
  rw [List.length_range] at hi
  rw [List.getElem_range, bitmap.get_of_lt (by omega)]
  rfl

theorem load_of_short {n : Nat} (hslot : L.slot register = .ok slot) (bitmap : BitSet n)
    (hlength : n < slot.width) :
    (load register bitmap).run t = (.error (.bitmapTooShort register slot.width n), t) := by
  rw [load, Mutation.run_bind_of_ok hslot, if_pos hlength]
  rfl

theorem copy_eq_ok (hdest : L.slot dest = .ok d) (hsrc : L.slot src = .ok s) :
    ∃ after, (copy dest src).run t = (.ok (), after) ∧ after.flags.test =
      setBytes t.flags.test d.offset (min d.width s.width)
        fun i => t.flags.test (s.offset + i) := by
  have hd := (Layout.slot_fits hdest).2
  have hs := (Layout.slot_fits hsrc).2
  -- the bytes are read before any of them is written
  have hread := t.read_of_le { s with width := min d.width s.width } (by simp only; omega)
  rw [copy, Mutation.run_bind_of_ok hdest, Mutation.run_bind_of_ok hsrc, Mutation.run_bind,
    Mutation.run_get]
  simp only [Mutation.run_bind_of_ok hread]
  refine run_forM_setFlag (by simp) (by omega) ?_ t
  simp

theorem copy_of_unknown (hdest : L.slot dest = .ok d) {e : Error} (hsrc : L.slot src = .error e) :
    (copy dest src).run t = (.error e, t) := by
  rw [copy, Mutation.run_bind_of_ok hdest]
  exact Mutation.run_bind_of_error hsrc _ t

end

end RegisterTaint

end TaintFlow
