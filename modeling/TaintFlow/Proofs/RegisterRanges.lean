import TaintFlow.Proofs.Coverage
import TaintFlow.Proofs.Merged
import TaintFlow.Proofs.RegisterMap

/-!
# The tainted bytes of a register as ranges

Placed at an address, the tainted bytes of a register are a set of addresses, and the
ranges that are made of them are its canonical form: the maximal runs, in ascending order,
with at least one clean address between two of them (`Spans`). The scan already finds the
runs in this order, and placing a run moves both of its ends by the same amount. As the
range of the register ends in the address space, nothing wraps around.

A memory that takes these ranges in shows the register again in both of its views. The
pattern is painted from the ranges, and the merged view has nothing left to merge.
-/

namespace TaintFlow

open ByteState

/-! ## Runs at addresses -/

theorem Interval.between?_eq_some_iff {start stop : UInt64} {p : Interval} :
    between? start stop = some p ↔ p.start = start ∧ p.stop = stop := by
  constructor
  · intro h
    rw [between?] at h
    split at h
    · cases h
      exact ⟨rfl, rfl⟩
    · cases h
  · rintro ⟨rfl, rfl⟩
    exact between?_bounds p

section

variable {flag : Nat → Bool} {width : Nat} {rs : List (Nat × Nat)} {base : UInt64}

/-- A placed run has the bounds of the run, counted from the base. -/
theorem IsRun.between?_eq_some_iff {first stop : Nat} (h : IsRun flag 0 width first stop)
    (hfits : base.toNat + width < UInt64.size) {p : Interval} :
    Interval.between? (base + UInt64.ofNat first) (base + UInt64.ofNat stop) = some p ↔
      p.start.toNat = base.toNat + first ∧ p.stop.toNat = base.toNat + stop := by
  have hlt := h.first_lt
  have hle := h.stop_le
  rw [Interval.between?_eq_some_iff, ← UInt64.toNat_inj, ← UInt64.toNat_inj,
    toNat_add_ofNat (by omega), toNat_add_ofNat (by omega)]

theorem RunsOf.mem_placeRuns (h : RunsOf flag 0 width rs)
    (hfits : base.toNat + width < UInt64.size) {p : Interval} :
    p ∈ placeRuns base rs ↔ ∃ first stop, IsRun flag 0 width first stop ∧
      p.start.toNat = base.toNat + first ∧ p.stop.toNat = base.toNat + stop := by
  rw [placeRuns, List.mem_filterMap]
  constructor
  · rintro ⟨r, hr, hplace⟩
    have hrun := h.sound r hr
    exact ⟨r.1, r.2, hrun, (hrun.between?_eq_some_iff hfits).mp hplace⟩
  · rintro ⟨first, stop, hrun, hbounds⟩
    exact ⟨(first, stop), h.mem_iff.mpr hrun, (hrun.between?_eq_some_iff hfits).mpr hbounds⟩

theorem RunsOf.separated_placeRuns (h : RunsOf flag 0 width rs)
    (hfits : base.toNat + width < UInt64.size) :
    IntervalSet.Separated (placeRuns base rs) := by
  rw [IntervalSet.Separated, placeRuns, List.pairwise_filterMap]
  refine h.ascending.imp_of_mem ?_
  intro r r' hr hr' hgap p hp q hq
  have hpbounds := ((h.sound r hr).between?_eq_some_iff hfits).mp hp
  have hqbounds := ((h.sound r' hr').between?_eq_some_iff hfits).mp hq
  rw [UInt64.lt_iff_toNat_lt]
  omega

end

/-! ## Registers -/

namespace RegisterTaint

variable {L : Layout}

/-- What the ranges of a register are, when its first byte lies at `base`. -/
structure Spans (t : RegisterTaint L) (slot : Slot) (base : UInt64)
    (ranges : List Interval) : Prop where
  nonempty : ∀ p ∈ ranges, p.start < p.stop
  /-- Each ends before the next one begins. -/
  separated : ranges.IsChain fun a b => a.stop < b.start
  inside : ∀ p ∈ ranges, base.toNat ≤ p.start.toNat ∧
    p.stop.toNat ≤ base.toNat + slot.width
  covered_iff : ∀ i < slot.width,
    (∃ p ∈ ranges, base.toNat + i ∈ p) ↔ t.flags.test (slot.offset + i) = true
  /-- They are the runs of tainted bytes that cannot be made longer. -/
  mem_iff : ∀ p, p ∈ ranges ↔ ∃ first stop,
    IsRun (fun i => t.flags.test (slot.offset + i)) 0 slot.width first stop ∧
      p.start.toNat = base.toNat + first ∧ p.stop.toNat = base.toNat + stop

/-- The ranges hold the addresses of the tainted bytes. -/
theorem exists_mem_placeRuns (t : RegisterTaint L) (slot : Slot) {base : UInt64}
    (hfits : base.toNat + slot.width < UInt64.size) {x : Nat} :
    (∃ p ∈ placeRuns base (runs (t.patternAt slot)), x ∈ p) ↔
      ∃ i < slot.width, t.flags.test (slot.offset + i) = true ∧ x = base.toNat + i := by
  rw [← covered_runsAt hfits, ← (t.runsOf_patternAt slot).coe_placeRuns base]
  rfl

theorem spans_placeRuns (t : RegisterTaint L) (slot : Slot) {base : UInt64}
    (hfits : base.toNat + slot.width < UInt64.size) :
    t.Spans slot base (placeRuns base (runs (t.patternAt slot))) where
  nonempty p _ := p.start_lt_stop
  separated := IntervalSet.separated_iff_isChain.mp
    ((t.runsOf_patternAt slot).separated_placeRuns hfits)
  inside p hp := by
    obtain ⟨first, stop, hrun, hstart, hstop⟩ :=
      ((t.runsOf_patternAt slot).mem_placeRuns hfits).mp hp
    have hle := hrun.stop_le
    omega
  covered_iff i hi := by
    rw [t.exists_mem_placeRuns slot hfits]
    constructor
    · rintro ⟨j, -, hset, heq⟩
      obtain rfl : i = j := Nat.add_left_cancel heq
      exact hset
    · intro hset
      exact ⟨i, hi, hset, rfl⟩
  mem_iff p := (t.runsOf_patternAt slot).mem_placeRuns hfits

/-- Of a memory with nothing but the ranges of a register, the pattern at their place is
that of the register, and the merged view is the ranges themselves. -/
theorem Spans.shown {t : RegisterTaint L} {slot : Slot} {base : UInt64}
    {ranges : List Interval} (h : t.Spans slot base ranges)
    (hfits : base.toNat + slot.width < UInt64.size) :
    (MemoryTaint.clean.addAll ranges).pattern base slot.width = .ok (t.patternAt slot) ∧
      (MemoryTaint.clean.addAll ranges).merged = ranges := by
  have hsound : (MemoryTaint.clean.addAll ranges).ranges.Sound :=
    IntervalSet.sound_empty.addAll ranges
  have hcovered : ∀ x, Covered (MemoryTaint.clean.addAll ranges).ranges.stored x ↔
      ∃ p ∈ ranges, x ∈ p := by
    intro x
    show Covered (IntervalSet.empty.addAll ranges).stored x ↔ _
    rw [IntervalSet.sound_empty.stored_addAll, covered_add]
    exact or_iff_right (not_covered_zero x)
  constructor
  · rw [MemoryTaint.pattern_eq_ok hsound hfits]
    refine congrArg Except.ok (List.ext_getElem (by simp) fun i hi _ => ?_)
    have hlt : i < slot.width := by simpa using hi
    rw [Bool.eq_iff_iff, List.getElem_map, List.getElem_range, decide_eq_true_iff, hcovered,
      h.covered_iff i hlt]
    simp
  · refine hsound.separated_merged.eq_of_mem_iff
      (IntervalSet.separated_iff_isChain.mpr h.separated) ?_
    intro x
    exact hsound.exists_mem_merged.trans (hcovered x)

/-- The ranges of a register are refused just if the register does not end in the address
space from its base on. Otherwise they are the maximal runs of its tainted bytes, and a
clean memory that takes them in has the pattern of the register at the base, and the
ranges themselves as its merged view. -/
theorem intervals_canonical (t : RegisterTaint L) {register : String} {slot : Slot}
    (hslot : L.slot register = .ok slot) (base : UInt64) :
    (t.intervals register base = .error (.addressOverflow base slot.width) ↔
        UInt64.size ≤ base.toNat + slot.width) ∧
      (base.toNat + slot.width < UInt64.size → ∃ ranges pattern,
        t.intervals register base = .ok ranges ∧ t.Spans slot base ranges ∧
        t.pattern register = .ok pattern ∧
        (MemoryTaint.clean.addAll ranges).pattern base slot.width = .ok pattern ∧
        (MemoryTaint.clean.addAll ranges).merged = ranges) := by
  refine ⟨⟨fun herror => ?_, fun hover => ?_⟩, fun hfits => ?_⟩
  · refine Nat.not_lt.mp fun hfits => ?_
    rw [t.intervals_eq_placeRuns hslot hfits] at herror
    cases herror
  · exact t.intervals_of_not_fits hslot (Nat.not_lt.mpr hover)
  · have hspans := t.spans_placeRuns slot hfits
    obtain ⟨hpattern, hmerged⟩ := hspans.shown hfits
    exact ⟨_, _, t.intervals_eq_placeRuns hslot hfits, hspans, t.pattern_eq_ok hslot,
      hpattern, hmerged⟩

/-- The first and the last byte of a register are tainted. -/
def outerLow : RegisterTaint staggered := ⟨(BitSet.empty.put 0 true).put 3 true⟩

/-- The register ends where the address space does, and so does its second run. -/
theorem intervals_canonical_outerLow :
    staggered.slot "low" = .ok ⟨0, 4⟩ ∧
      (0xfffffffffffffffb : UInt64).toNat + 4 < UInt64.size ∧
      outerLow.intervals "low" 0xfffffffffffffffb =
        .ok [⟨0xfffffffffffffffb, 0xfffffffffffffffc, by decide⟩,
          ⟨0xfffffffffffffffe, 0xffffffffffffffff, by decide⟩] ∧
      ∃ ranges pattern, outerLow.intervals "low" 0xfffffffffffffffb = .ok ranges ∧
        outerLow.Spans ⟨0, 4⟩ 0xfffffffffffffffb ranges ∧
        outerLow.pattern "low" = .ok pattern ∧
        (MemoryTaint.clean.addAll ranges).pattern 0xfffffffffffffffb 4 = .ok pattern ∧
        (MemoryTaint.clean.addAll ranges).merged = ranges := by
  have hslot : staggered.slot "low" = .ok ⟨0, 4⟩ := by decide
  have hfits : (0xfffffffffffffffb : UInt64).toNat + 4 < UInt64.size := by decide
  exact ⟨hslot, hfits, by decide, (outerLow.intervals_canonical hslot _).2 hfits⟩

end RegisterTaint

end TaintFlow
