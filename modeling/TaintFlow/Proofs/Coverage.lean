import TaintFlow.Proofs.Collection
import TaintFlow.Proofs.Registers

/-!
# Between registers and memory

Taint crosses over in two ways. A load paints the stored intervals into a
bitmap, each clipped to the range that is loaded, and the bitmap ends up with
a flag set exactly where the address is covered: painting is a union, so order
and repetitions do not show. A store goes the other way and cuts the pattern of
a register into its maximal runs. Neither can fail for a reason of its own; the
end of the address space is the only refusal there is.
-/

namespace TaintFlow

open ByteState

/-! ## From memory to a bitmap -/

theorem Interval.toNat_size (a : Interval) :
    a.size.toNat = a.stop.toNat - a.start.toNat :=
  UInt64.toNat_sub_of_le _ _ (UInt64.le_of_lt a.start_lt_stop)

/-- The clipped intervals hold the covered addresses of the query. -/
theorem IntervalSet.Sound.exists_mem_intersection {s : IntervalSet} (h : s.Sound)
    {query : Interval} {x : Nat} :
    (∃ p ∈ s.intersection query, x ∈ p) ↔ Covered s.stored x ∧ x ∈ query := by
  constructor
  · rintro ⟨p, hp, hx⟩
    obtain ⟨a, ha, hclip⟩ := List.mem_filterMap.mp hp
    have hmem := (Interval.mem_of_intersect hclip).mp hx
    exact ⟨⟨a, (h.mem_overlapping.mp ha).1, hmem.1⟩, hmem.2⟩
  · rintro ⟨⟨a, ha, hxa⟩, hxq⟩
    have hover : a.overlaps query = true :=
      Interval.overlaps_iff_exists_mem.mpr ⟨x, hxa, hxq⟩
    cases hclip : a.intersect query with
    | none => exact absurd hover (Interval.intersect_eq_none_iff.mp hclip)
    | some p =>
        refine ⟨p, List.mem_filterMap.mpr ⟨a, h.mem_overlapping.mpr ⟨ha, hover⟩, hclip⟩, ?_⟩
        exact (Interval.mem_of_intersect hclip).mpr ⟨hxa, hxq⟩

theorem IntervalSet.bounds_of_mem_intersection {s : IntervalSet} {query p : Interval}
    (h : p ∈ s.intersection query) :
    query.start.toNat ≤ p.start.toNat ∧ p.stop.toNat ≤ query.stop.toNat := by
  obtain ⟨a, -, hclip⟩ := List.mem_filterMap.mp h
  exact Interval.bounds_of_forall_mem fun x hx => ((Interval.mem_of_intersect hclip).mp hx).2

/-- Painting intervals into the flags of a range sets the flags of their addresses. -/
theorem paint_eq_ok {address : UInt64} {size : Nat} (flags : BitSet size)
    {parts : List Interval}
    (hparts : ∀ p ∈ parts, address.toNat ≤ p.start.toNat ∧
      p.stop.toNat ≤ address.toNat + size) :
    ∃ after, parts.foldlM (fun (flags : BitSet size) part =>
        flags.overwrite (part.start - address).toNat
          (List.replicate part.size.toNat true)) flags = Except.ok after ∧
      ∀ j, after.test j = true ↔
        flags.test j = true ∨ ∃ p ∈ parts, address.toNat + j ∈ p := by
  induction parts generalizing flags with
  | nil => exact ⟨flags, rfl, by simp⟩
  | cons part parts ih =>
      have hpart := hparts part List.mem_cons_self
      have hlt := part.toNat_start_lt
      have hoffset : (part.start - address).toNat = part.start.toNat - address.toNat :=
        UInt64.toNat_sub_of_le _ _ (UInt64.le_iff_toNat_le.mpr hpart.1)
      have hsize := part.toNat_size
      have hfits : (part.start - address).toNat +
          (List.replicate part.size.toNat true).length ≤ size := by
        rw [List.length_replicate, hoffset, hsize]
        omega
      obtain ⟨after, hfold, htest⟩ := ih
        (flags.putAll (part.start - address).toNat (List.replicate part.size.toNat true))
        fun p hp => hparts p (List.mem_cons_of_mem _ hp)
      refine ⟨after, ?_, fun j => ?_⟩
      · rw [List.foldlM_cons, BitSet.overwrite_of_le _ hfits]
        exact hfold
      · have hhere : part.start.toNat - address.toNat ≤ j ∧
            j - (part.start.toNat - address.toNat) < part.stop.toNat - part.start.toNat ↔
            address.toNat + j ∈ part := by
          rw [Interval.mem_iff]
          omega
        rw [htest, BitSet.test_putAll _ hfits, List.getElem?_replicate, hoffset, hsize]
        by_cases hin : address.toNat + j ∈ part
        · obtain ⟨hfrom, hto⟩ := hhere.mpr hin
          rw [if_pos hfrom, if_pos hto]
          simp [hin]
        · by_cases hfrom : part.start.toNat - address.toNat ≤ j
          · rw [if_pos hfrom, if_neg fun hto => hin (hhere.mp ⟨hfrom, hto⟩)]
            simp [hin]
          · rw [if_neg hfrom]
            simp [hin]

namespace MemoryTaint

/-- The bitmap of a range that fits shows the clipped intervals, whatever is stored. -/
theorem bitmap_of_fits (m : MemoryTaint) {address : UInt64} {size : Nat}
    (hpos : size ≠ 0) (hfits : address.toNat + size < UInt64.size) :
    ∃ range : Interval, range.start = address ∧ range.stop.toNat = address.toNat + size ∧
      ∃ bitmap, m.bitmap address size = .ok bitmap ∧ ∀ j, bitmap.test j = true ↔
        ∃ p ∈ m.ranges.intersection range, address.toNat + j ∈ p := by
  obtain ⟨range, hrange, hstart, hstop⟩ := Interval.exists_ofSize hpos hfits
  have hparts : ∀ p ∈ m.ranges.intersection range, address.toNat ≤ p.start.toNat ∧
      p.stop.toNat ≤ address.toNat + size := by
    intro p hp
    have := IntervalSet.bounds_of_mem_intersection hp
    rwa [hstart, hstop] at this
  obtain ⟨flags, hfold, htest⟩ := paint_eq_ok (BitSet.empty : BitSet size) hparts
  refine ⟨range, hstart, hstop, flags, ?_, fun j => ?_⟩
  · rw [bitmap, hrange]
    exact hfold
  · rw [htest]
    simp

theorem exists_bitmap (m : MemoryTaint) {address : UInt64} {size : Nat}
    (hfits : address.toNat + size < UInt64.size) :
    ∃ bitmap, m.bitmap address size = .ok bitmap := by
  by_cases hpos : size = 0
  · subst hpos
    exact ⟨.empty, rfl⟩
  · obtain ⟨range, -, -, bitmap, hbitmap, -⟩ := m.bitmap_of_fits hpos hfits
    exact ⟨bitmap, hbitmap⟩

/-- The bitmap of a range tells of every address whether it is covered. -/
theorem exists_bitmap_covered {m : MemoryTaint} (h : m.ranges.Sound) {address : UInt64}
    {size : Nat} (hfits : address.toNat + size < UInt64.size) :
    ∃ bitmap, m.bitmap address size = .ok bitmap ∧ ∀ i < size,
      bitmap.test i = decide (Covered m.ranges.stored (address.toNat + i)) := by
  by_cases hpos : size = 0
  · subst hpos
    exact ⟨.empty, rfl, by simp⟩
  · obtain ⟨range, hstart, hstop, bitmap, hbitmap, htest⟩ := m.bitmap_of_fits hpos hfits
    refine ⟨bitmap, hbitmap, fun i hi => ?_⟩
    have hquery : address.toNat + i ∈ range := by
      rw [Interval.mem_iff, hstart, hstop]
      omega
    rw [Bool.eq_iff_iff, htest, decide_eq_true_iff, h.exists_mem_intersection]
    simp [hquery]

theorem pattern_eq_ok {m : MemoryTaint} (h : m.ranges.Sound) {address : UInt64}
    {size : Nat} (hfits : address.toNat + size < UInt64.size) :
    m.pattern address size = .ok ((List.range size).map fun i =>
      decide (Covered m.ranges.stored (address.toNat + i))) := by
  obtain ⟨bitmap, hbitmap, htest⟩ := exists_bitmap_covered h hfits
  rw [pattern, hbitmap]
  refine congrArg Except.ok (List.map_congr_left ?_)
  intro i hi
  exact htest i (List.mem_range.mp hi)

theorem bitmap_of_not_fits (m : MemoryTaint) {address : UInt64} {size : Nat}
    (h : ¬ address.toNat + size < UInt64.size) :
    m.bitmap address size = .error (.addressOverflow address size) := by
  rw [bitmap, Interval.ofSize_of_not_fits h]
  rfl

theorem pattern_of_not_fits (m : MemoryTaint) {address : UInt64} {size : Nat}
    (h : ¬ address.toNat + size < UInt64.size) :
    m.pattern address size = .error (.addressOverflow address size) := by
  rw [pattern, m.bitmap_of_not_fits h]
  rfl

end MemoryTaint

/-! ## From a pattern to ranges -/

/-- Where every element has an outcome that a partial function also gives, mapping
the checked form collects what the partial one does. -/
theorem mapM_eq_ok_filterMap {α β ε : Type} {f : α → Except ε β} {g : α → Option β}
    {xs : List α} (h : ∀ x ∈ xs, ∃ y, f x = .ok y ∧ g x = some y) :
    xs.mapM f = .ok (xs.filterMap g) := by
  induction xs with
  | nil => rfl
  | cons x xs ih =>
      obtain ⟨y, hf, hg⟩ := h x List.mem_cons_self
      rw [List.mapM_cons, hf, ih fun z hz => h z (List.mem_cons_of_mem _ hz),
        List.filterMap_cons_some hg]
      rfl

theorem RegisterTaint.runsOf_patternAt {L : Layout} (t : RegisterTaint L) (slot : Slot) :
    RunsOf (fun i => t.flags.test (slot.offset + i)) 0 slot.width
      (runs (t.patternAt slot)) := by
  have h : RunsOf (fun i => t.flags.test (slot.offset + i)) 0
      (t.patternAt slot).length _ :=
    runsOf_runs fun i hi => (t.getElem_patternAt slot hi).symm
  rwa [length_patternAt] at h

/-- Stretches of a register as address ranges, when its first byte lies at `base`. -/
def placeRuns (base : UInt64) (rs : List (Nat × Nat)) : List Interval :=
  rs.filterMap fun r =>
    Interval.between? (base + UInt64.ofNat r.1) (base + UInt64.ofNat r.2)

/-- The runs that a scan finds, placed at an address, are the runs of the bytes there. -/
theorem RunsOf.coe_placeRuns {bytes : Nat → Bool} {slot : Slot} {rs : List (Nat × Nat)}
    (h : RunsOf (fun i => bytes (slot.offset + i)) 0 slot.width rs) (base : UInt64) :
    (placeRuns base rs : Multiset Interval) = runsAt bytes slot base := by
  rw [runsAt, placeRuns, ← Multiset.filterMap_coe]
  congr 1
  rw [Multiset.Nodup.ext (Multiset.coe_nodup.mpr h.nodup) (Finset.nodup _)]
  intro r
  rw [Multiset.mem_coe, h.mem_iff, Finset.mem_val, Finset.mem_filter, Finset.mem_product,
    Finset.mem_range, Finset.mem_range]
  refine ⟨fun hr => ⟨?_, hr⟩, fun hr => hr.2⟩
  have hlt := hr.first_lt
  have hle := hr.stop_le
  omega

/-- The ranges of a register are the runs of its pattern, in their order. -/
theorem RegisterTaint.intervals_eq_placeRuns {L : Layout} (t : RegisterTaint L)
    {register : String} {slot : Slot} (hslot : L.slot register = .ok slot) {base : UInt64}
    (hfits : base.toNat + slot.width < UInt64.size) :
    t.intervals register base = .ok (placeRuns base (runs (t.patternAt slot))) := by
  have hruns := t.runsOf_patternAt slot
  rw [intervals, hslot]
  simp only [bind, Except.bind, if_neg (Nat.not_le.mpr hfits),
    t.read_slot hslot]
  refine mapM_eq_ok_filterMap ?_
  intro r hr
  have hlt := (hruns.sound r hr).first_lt
  have hle := (hruns.sound r hr).stop_le
  have hbounds : base + UInt64.ofNat r.1 < base + UInt64.ofNat r.2 := by
    rw [UInt64.lt_iff_toNat_lt, toNat_add_ofNat (by omega), toNat_add_ofNat (by omega)]
    omega
  exact ⟨_, Interval.ofBounds_of_lt hbounds, Interval.between?_of_lt hbounds⟩

theorem RegisterTaint.intervals_eq_ok {L : Layout} (t : RegisterTaint L) {register : String}
    {slot : Slot} (hslot : L.slot register = .ok slot) {base : UInt64}
    (hfits : base.toNat + slot.width < UInt64.size) :
    ∃ ranges, t.intervals register base = .ok ranges ∧
      (ranges : Multiset Interval) = runsAt t.flags.test slot base :=
  ⟨_, t.intervals_eq_placeRuns hslot hfits, (t.runsOf_patternAt slot).coe_placeRuns base⟩

theorem RegisterTaint.intervals_of_unknown {L : Layout} (t : RegisterTaint L)
    {register : String} {e : Error} (hslot : L.slot register = .error e) (base : UInt64) :
    t.intervals register base = .error e := by
  rw [intervals, hslot]
  rfl

theorem RegisterTaint.intervals_of_not_fits {L : Layout} (t : RegisterTaint L)
    {register : String} {slot : Slot} (hslot : L.slot register = .ok slot) {base : UInt64}
    (h : ¬ base.toNat + slot.width < UInt64.size) :
    t.intervals register base = .error (.addressOverflow base slot.width) := by
  rw [intervals, hslot]
  simp only [bind, Except.bind, if_pos (Nat.not_lt.mp h)]
  rfl

end TaintFlow
