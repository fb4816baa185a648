import TaintFlow.Proofs.ByteMachine

/-!
# Propagation distributes over unions of taint

Two byte states can be joined: a byte is tainted in the union if it is in one of
the two, and so is an address. The union is a relation and not a function,
because it says which addresses are covered and not by which ranges: the ranges
that a store adds to a union are not the ones that it adds to its parts.

`Propagates` lists the moves that a transfer can lead to, with what is known of
their parameters, and `Transfer.resolve_cases` is the inversion that everything
here rests on. All of them act on a union as they act on its parts. The one
transfer that does not is the clearing of memory, which takes a range away where it
is stored with exactly the same bounds: it may find the range in a part and not
in the union, or the other way around. It is left out of `Propagates`. `Marks` are
the moves of seeds; they act on one part of a union as they act on the union.
-/

namespace TaintFlow

open ByteState

/-! ## What is covered -/

namespace ByteState

theorem not_covered_zero (x : Nat) : ¬ Covered 0 x := by
  rintro ⟨a, ha, -⟩
  exact Multiset.notMem_zero a ha

theorem covered_add {ranges more : Multiset Interval} {x : Nat} :
    Covered (ranges + more) x ↔ Covered ranges x ∨ Covered more x := by
  simp only [Covered, Multiset.mem_add, or_and_right, exists_or]

theorem covered_cutOut {ranges : Multiset Interval} {range : Option Interval} {x : Nat} :
    Covered (cutOut ranges range) x ↔ Covered ranges x ∧ ∀ query ∈ range, x ∉ query := by
  cases range with
  | none =>
      rw [cutOut]
      simp
  | some query =>
      rw [cutOut]
      constructor
      · rintro ⟨p, hp, hx⟩
        obtain ⟨a, ha, hpa⟩ := Multiset.mem_bind.mp hp
        obtain ⟨hxa, hxq⟩ := Interval.exists_mem_outside.mp ⟨p, Multiset.mem_coe.mp hpa, hx⟩
        refine ⟨⟨a, ha, hxa⟩, ?_⟩
        intro q hq
        rwa [← Option.mem_some.mp hq]
      · rintro ⟨⟨a, ha, hxa⟩, hxq⟩
        obtain ⟨p, hp, hx⟩ := Interval.exists_mem_outside.mpr
          ⟨hxa, hxq query (Option.mem_some.mpr rfl)⟩
        exact ⟨p, Multiset.mem_bind.mpr ⟨a, ha, Multiset.mem_coe.mpr hp⟩, hx⟩

/-- A stretch of a register, placed at addresses that do not wrap around. -/
theorem exists_mem_placed {address : UInt64} {first stop x : Nat}
    (hfirst : address.toNat + first < UInt64.size)
    (hstop : address.toNat + stop < UInt64.size) :
    (∃ p ∈ Interval.between? (address + UInt64.ofNat first) (address + UInt64.ofNat stop),
      x ∈ p) ↔ address.toNat + first ≤ x ∧ x < address.toNat + stop := by
  rw [← toNat_add_ofNat hfirst, ← toNat_add_ofNat hstop, ← Interval.exists_mem_between?]
  simp only [Option.mem_toList, Option.mem_def]

/-- The runs of a register cover the addresses of its tainted bytes, where all of its
bytes have an address. -/
theorem covered_runsAt {bytes : Nat → Bool} {src : Slot} {address : UInt64}
    (hfits : address.toNat + src.width < UInt64.size) {x : Nat} :
    Covered (runsAt bytes src address) x ↔
      ∃ i < src.width, bytes (src.offset + i) = true ∧ x = address.toNat + i := by
  constructor
  · rintro ⟨p, hp, hx⟩
    obtain ⟨r, hr, hbetween⟩ := (Multiset.mem_filterMap (b := p) _ _).mp hp
    have hrun := (Finset.mem_filter.mp hr).2
    have hlt := hrun.first_lt
    have hle := hrun.stop_le
    have hmem := (exists_mem_placed (by omega) (by omega)).mp ⟨p, hbetween, hx⟩
    have hset := hrun.set (x - address.toNat) (by omega) (by omega)
    exact ⟨x - address.toNat, by omega, hset, by omega⟩
  · rintro ⟨i, hi, hset, rfl⟩
    obtain ⟨f, s, hrun, hfi, his⟩ :
        ∃ f s, IsRun (fun i => bytes (src.offset + i)) 0 src.width f s ∧ f ≤ i ∧ i < s :=
      IsRun.exists_of_set hi hset
    have hle := hrun.stop_le
    have hin : address.toNat + f ≤ address.toNat + i ∧ address.toNat + i < address.toNat + s := by
      omega
    obtain ⟨p, hp, hx⟩ := (exists_mem_placed (by omega) (by omega)).mpr hin
    refine ⟨p, (Multiset.mem_filterMap _ _).mpr ⟨(f, s), ?_, hp⟩, hx⟩
    rw [Finset.mem_val, Finset.mem_filter, Finset.mem_product, Finset.mem_range,
      Finset.mem_range]
    exact ⟨by omega, hrun⟩

/-! ## Unions -/

/-- The taint of the first state is that of the other two together. -/
structure IsUnion (t t₁ t₂ : ByteState) : Prop where
  bytes : ∀ x, t.bytes x = (t₁.bytes x || t₂.bytes x)
  covered : ∀ x, Covered t.ranges x ↔ Covered t₁.ranges x ∨ Covered t₂.ranges x

theorem IsUnion.symm {t t₁ t₂ : ByteState} (h : IsUnion t t₁ t₂) : IsUnion t t₂ t₁ := by
  refine ⟨fun x => ?_, fun x => ?_⟩
  · rw [h.bytes x, Bool.or_comm]
  · rw [h.covered x, or_comm]

theorem isUnion_clean : IsUnion clean clean clean :=
  ⟨fun _ => rfl, fun _ => (or_self_iff).symm⟩

theorem setBytes_or {b b₁ b₂ : Nat → Bool} (hb : ∀ x, b x = (b₁ x || b₂ x))
    {width : Nat} {v v₁ v₂ : Nat → Bool} (hv : ∀ i < width, v i = (v₁ i || v₂ i))
    (offset x : Nat) :
    setBytes b offset width v x =
      (setBytes b₁ offset width v₁ x || setBytes b₂ offset width v₂ x) := by
  simp only [setBytes]
  split
  · next h => exact hv _ (by omega)
  · exact hb x

theorem IsUnion.runsAt {t t₁ t₂ : ByteState} (h : IsUnion t t₁ t₂) {src : Slot}
    {address : UInt64} (hfits : address.toNat + src.width < UInt64.size) (x : Nat) :
    Covered (runsAt t.bytes src address) x ↔
      Covered (runsAt t₁.bytes src address) x ∨ Covered (runsAt t₂.bytes src address) x := by
  rw [covered_runsAt hfits, covered_runsAt hfits, covered_runsAt hfits]
  simp only [h.bytes, Bool.or_eq_true, or_and_right, and_or_left, exists_or]

theorem runsAt_of_clear (src : Slot) (address : UInt64) :
    ByteState.runsAt (fun _ => false) src address = 0 := by
  have hnone : ∀ r : Nat × Nat, ¬ IsRun (fun _ => false) 0 src.width r.1 r.2 := by
    intro r hr
    have hset := hr.set r.1 hr.first_lt (Nat.le_refl _)
    cases hset
  rw [ByteState.runsAt, Finset.filter_false_of_mem fun r _ => hnone r]
  rfl

end ByteState

/-! ## The moves of transfers -/

/-- The moves of transfers that do not clear memory. -/
inductive Move.Propagates : Move → Prop where
  | load (dest : Slot) (address : UInt64) : Propagates (.load dest address)
  | store (src : Slot) (address : UInt64) (cleared : Option Interval)
      (hfits : address.toNat + src.width < UInt64.size) :
      Propagates (.store src address cleared)
  | copy (dest src : Slot) : Propagates (.copy dest src)
  | erase (offset width : Nat) : Propagates (.write offset (List.replicate width false))
  | skip : Propagates .skip

/-- The moves of seeds. -/
inductive Move.Marks : Move → Prop where
  | register (offset width : Nat) : Marks (.write offset (List.replicate width true))
  | memory (ranges : List Interval) : Marks (.add ranges)

theorem getD_replicate {width i : Nat} (hi : i < width) (value default : Bool) :
    (List.replicate width value).getD i default = value := by
  rw [List.getD_eq_getElem?_getD, List.getElem?_replicate_of_lt hi]
  rfl

theorem Move.Propagates.isUnion {move : Move} (h : move.Propagates) {t t₁ t₂ : ByteState}
    (hu : IsUnion t t₁ t₂) : IsUnion (move.act t) (move.act t₁) (move.act t₂) := by
  cases h with
  | load dest address =>
      have hcover : ∀ i < dest.width, decide (Covered t.ranges (address.toNat + i)) =
          (decide (Covered t₁.ranges (address.toNat + i)) ||
            decide (Covered t₂.ranges (address.toNat + i))) := by
        intro i _
        rw [Bool.eq_iff_iff, Bool.or_eq_true, decide_eq_true_iff, decide_eq_true_iff,
          decide_eq_true_iff]
        exact hu.covered _
      exact ⟨setBytes_or hu.bytes hcover dest.offset, hu.covered⟩
  | store src address cleared hfits =>
      refine ⟨hu.bytes, ?_⟩
      intro x
      simp only [Move.act, covered_add, covered_cutOut, hu.covered x, hu.runsAt hfits x,
        or_and_right]
      exact or_or_or_comm
  | copy dest src =>
      exact ⟨setBytes_or hu.bytes (fun i _ => hu.bytes _) dest.offset, hu.covered⟩
  | erase offset width =>
      have herased : ∀ i < (List.replicate width false).length,
          (List.replicate width false).getD i false =
            ((List.replicate width false).getD i false ||
              (List.replicate width false).getD i false) := fun _ _ => (Bool.or_self _).symm
      exact ⟨setBytes_or hu.bytes herased offset, hu.covered⟩
  | skip => exact hu

/-- A seed of one part of a union is a seed of the union. -/
theorem Move.Marks.isUnion {move : Move} (h : move.Marks) {t t₁ t₂ : ByteState}
    (hu : IsUnion t t₁ t₂) : IsUnion (move.act t) (move.act t₁) t₂ := by
  cases h with
  | register offset width =>
      refine ⟨?_, hu.covered⟩
      intro x
      simp only [Move.act, setBytes, List.length_replicate]
      split
      · next hx =>
          rw [getD_replicate (by omega)]
          rfl
      · exact hu.bytes x
  | memory ranges =>
      refine ⟨hu.bytes, ?_⟩
      intro x
      simp only [Move.act, covered_add, hu.covered x]
      exact or_right_comm

/-- Without taint there is nothing to propagate. -/
theorem Move.Propagates.act_clean {move : Move} (h : move.Propagates) :
    move.act .clean = .clean := by
  cases h with
  | load dest address =>
      refine congrArg (ByteState.mk · 0) (funext ?_)
      intro x
      simp [setBytes, clean, not_covered_zero]
  | store src address cleared hfits =>
      refine congrArg (ByteState.mk fun _ => false) ?_
      rw [clean, runsAt_of_clear]
      cases cleared <;> rfl
  | copy dest src =>
      refine congrArg (ByteState.mk · 0) (funext ?_)
      intro x
      simp [setBytes, clean]
  | erase offset width =>
      refine congrArg (ByteState.mk · 0) (funext ?_)
      intro x
      simp only [setBytes, clean, List.length_replicate]
      split
      · exact getD_replicate (by omega) _ _
      · rfl
  | skip => rfl

theorem Move.act_forget_clean (range : Option Interval) :
    (Move.forget range).act .clean = .clean := by
  cases range <;> rfl

/-! ## What a transfer resolves to -/

theorem exists_of_bind_eq_ok {α β ε : Type} {x : Except ε α} {f : α → Except ε β} {b : β}
    (h : x >>= f = .ok b) : ∃ a, x = .ok a ∧ f a = .ok b := by
  cases x with
  | error e => cases h
  | ok a => exact ⟨a, rfl, h⟩

theorem Interval.fits_of_ofSize {address : UInt64} {size : Nat} {range : Option Interval}
    (h : Interval.ofSize address size = .ok range) : address.toNat + size < UInt64.size := by
  by_contra hover
  rw [Interval.ofSize_of_not_fits hover] at h
  cases h

section

variable {L : Layout} {options : PropagationOptions} {context : RegisterContext} {move : Move}

theorem Move.exists_of_ofLoad {dest : String} {address : UInt64}
    (h : Move.ofLoad L dest address = .ok move) :
    ∃ slot, L.slot dest = .ok slot ∧ move = .load slot address := by
  obtain ⟨slot, hslot, h⟩ := exists_of_bind_eq_ok h
  obtain ⟨range, -, h⟩ := exists_of_bind_eq_ok h
  cases h
  exact ⟨slot, hslot, rfl⟩

theorem Move.exists_of_ofStore {address : UInt64} {src : String}
    (h : Move.ofStore L options address src = .ok move) :
    ∃ slot range, L.slot src = .ok slot ∧ Interval.ofSize address slot.width = .ok range ∧
      move = .store slot address (if options.overwriteOnStore then range else none) := by
  obtain ⟨slot, hslot, h⟩ := exists_of_bind_eq_ok h
  obtain ⟨range, hrange, h⟩ := exists_of_bind_eq_ok h
  cases h
  exact ⟨slot, range, hslot, hrange, rfl⟩

theorem Move.exists_of_ofMark {register : String} {value : Bool}
    (h : Move.ofMark L register value = .ok move) :
    ∃ slot, L.slot register = .ok slot ∧
      move = .write slot.offset (List.replicate slot.width value) := by
  obtain ⟨slot, hslot, h⟩ := exists_of_bind_eq_ok h
  cases h
  exact ⟨slot, hslot, rfl⟩

theorem Move.exists_of_copy {dest src : String}
    (h : (do
      let d ← L.slot dest
      let s ← L.slot src
      return Move.copy d s) = .ok move) :
    ∃ d s, L.slot dest = .ok d ∧ L.slot src = .ok s ∧ move = .copy d s := by
  obtain ⟨d, hdest, h⟩ := exists_of_bind_eq_ok h
  obtain ⟨s, hsrc, h⟩ := exists_of_bind_eq_ok h
  cases h
  exact ⟨d, s, hdest, hsrc, rfl⟩

theorem Move.propagates_ofLoad {dest : String} {address : UInt64}
    (h : Move.ofLoad L dest address = .ok move) : move.Propagates := by
  obtain ⟨slot, -, rfl⟩ := exists_of_ofLoad h
  exact .load slot address

theorem Move.propagates_ofStore {address : UInt64} {src : String}
    (h : Move.ofStore L options address src = .ok move) : move.Propagates := by
  obtain ⟨slot, range, -, hrange, rfl⟩ := exists_of_ofStore h
  exact .store slot address _ (Interval.fits_of_ofSize hrange)

theorem Move.propagates_ofMark {register : String}
    (h : Move.ofMark L register false = .ok move) : move.Propagates := by
  obtain ⟨slot, -, rfl⟩ := exists_of_ofMark h
  exact .erase slot.offset slot.width

theorem Move.marks_ofMark {register : String}
    (h : Move.ofMark L register true = .ok move) : move.Marks := by
  obtain ⟨slot, -, rfl⟩ := exists_of_ofMark h
  exact .register slot.offset slot.width

/-- An operand that denotes no address leads to no move. -/
theorem Move.atAddress_cases {operand : MemoryOperand} {f : UInt64 → Except Error Move}
    (h : Move.atAddress context operand f = .ok move) :
    move = .skip ∨ ∃ address, f address = .ok move := by
  rw [Move.atAddress] at h
  obtain ⟨address?, -, h⟩ := exists_of_bind_eq_ok h
  cases address? with
  | none =>
      cases h
      exact .inl rfl
  | some address => exact .inr ⟨address, h⟩

/-- A transfer that is not refused propagates taint, or clears memory. -/
theorem Transfer.resolve_cases {transfer : Transfer}
    (h : transfer.resolve L options context = .ok move) :
    move.Propagates ∨
      (∃ dest size, transfer = .clearMemory dest size) ∧ ∃ range, move = .forget range := by
  cases transfer with
  | load dest src =>
      left
      rcases Move.atAddress_cases h with rfl | ⟨address, h⟩
      · exact .skip
      · exact Move.propagates_ofLoad h
  | store dest src =>
      left
      rcases Move.atAddress_cases h with rfl | ⟨address, h⟩
      · exact .skip
      · exact Move.propagates_ofStore h
  | copy dest src =>
      left
      obtain ⟨d, s, -, -, rfl⟩ := Move.exists_of_copy h
      exact .copy d s
  | zero dest => exact .inl (Move.propagates_ofMark h)
  | clear dest => exact .inl (Move.propagates_ofMark h)
  | clearMemory dest size =>
      rcases Move.atAddress_cases h with rfl | ⟨address, h⟩
      · exact .inl .skip
      · obtain ⟨range, -, h⟩ := exists_of_bind_eq_ok h
        cases h
        exact .inr ⟨⟨dest, size, rfl⟩, range, rfl⟩
  | push src =>
      left
      obtain ⟨address, -, h⟩ := exists_of_bind_eq_ok h
      exact Move.propagates_ofStore h
  | pop dest =>
      left
      obtain ⟨top, -, h⟩ := exists_of_bind_eq_ok h
      exact Move.propagates_ofLoad h
  | ret =>
      left
      obtain ⟨top, -, h⟩ := exists_of_bind_eq_ok h
      exact Move.propagates_ofLoad h
  | untracked =>
      cases h
      exact .inl .skip

theorem Transfer.act_clean {transfer : Transfer}
    (h : transfer.resolve L options context = .ok move) : move.act .clean = .clean := by
  rcases Transfer.resolve_cases h with hmove | ⟨-, range, rfl⟩
  · exact hmove.act_clean
  · exact Move.act_forget_clean range

end

end TaintFlow
