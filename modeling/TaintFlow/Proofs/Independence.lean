import Mathlib.Data.Set.Operations
import TaintFlow.Proofs.Atomicity
import TaintFlow.Proofs.Merged
import TaintFlow.Proofs.Outcomes
import TaintFlow.Proofs.Overwriting

/-!
# Independent instructions commute

A place is a byte of the register context or an address of memory. The footprint of a
transfer tells which places it reads and which it writes, from the layout and the register
values alone. Registers that share bytes share places, so nothing has to be said about names.

A move acts within a footprint if it leaves every other place alone (`frame`), and if what
becomes of a place depends on that place and on those that are read (`determined`). A place
need not be overwritten to count as written: a store that unites keeps what was there, and
for this reason the place itself is among the things that its taint is determined by.
These two properties are all that is used of a move. If neither of two moves writes
what the other reads or writes, both orders taint the same places (`comm`), although the
ranges that they leave in memory may be cut and stored differently.
-/

namespace TaintFlow

open ByteState

variable {L : Layout}

/-! ## Places -/

/-- A byte of the register context, or an address of memory. -/
inductive Place where
  | byte (offset : Nat)
  | address (x : Nat)

def ByteState.Taints (t : ByteState) : Place → Prop
  | .byte offset => t.bytes offset = true
  | .address x => Covered t.ranges x

/-- The bytes of a register. -/
def Slot.places (slot : Slot) : Set Place :=
  {p | ∃ x, p = .byte x ∧ slot.offset ≤ x ∧ x < slot.stop}

/-- As many addresses as `size` says, from `address` on. -/
def placesFrom (address : UInt64) (size : Nat) : Set Place :=
  {p | ∃ x, p = .address x ∧ address.toNat ≤ x ∧ x < address.toNat + size}

@[simp] theorem Slot.byte_mem_places {slot : Slot} {x : Nat} :
    Place.byte x ∈ slot.places ↔ slot.offset ≤ x ∧ x < slot.stop := by
  simp [places]

@[simp] theorem Slot.address_notMem_places {slot : Slot} {x : Nat} :
    Place.address x ∉ slot.places := by
  simp [places]

@[simp] theorem address_mem_placesFrom {address : UInt64} {size x : Nat} :
    Place.address x ∈ placesFrom address size ↔
      address.toNat ≤ x ∧ x < address.toNat + size := by
  simp [placesFrom]

@[simp] theorem byte_notMem_placesFrom {address : UInt64} {size x : Nat} :
    Place.byte x ∉ placesFrom address size := by
  simp [placesFrom]

/-- States that taint the same places have the same flags. -/
theorem ByteState.bytes_eq_of_taints {t u : ByteState} (h : ∀ p, t.Taints p ↔ u.Taints p) :
    t.bytes = u.bytes := by
  funext x
  exact Bool.eq_iff_iff.mpr (h (.byte x))

/-! ## Footprints -/

structure Footprint where
  reads : Set Place
  writes : Set Place

/-- Neither writes what the other reads or writes. -/
structure Footprint.Independent (f g : Footprint) : Prop where
  left : ∀ p ∈ f.writes, p ∉ g.reads ∧ p ∉ g.writes
  right : ∀ p ∈ g.writes, p ∉ f.reads ∧ p ∉ f.writes

/-- The footprint of an access through an operand, which is not made without a base. -/
def MemoryOperand.guard (operand : MemoryOperand) (f : Footprint) : Footprint :=
  if operand.base.isSome then f else ⟨∅, ∅⟩

/-- What a transfer reads and writes. Of a copy these are the low bytes that both registers
have. -/
def Transfer.footprint (L : Layout) (pushSlot : PushSlot) (context : RegisterContext) :
    Transfer → Footprint
  | .load dest src =>
      src.guard ⟨placesFrom (src.location context) (L.bytes dest).width, (L.bytes dest).places⟩
  | .store dest src =>
      dest.guard ⟨(L.bytes src).places, placesFrom (dest.location context) (L.bytes src).width⟩
  | .copy dest src =>
      ⟨Slot.places ⟨(L.bytes src).offset, min (L.bytes dest).width (L.bytes src).width⟩,
        Slot.places ⟨(L.bytes dest).offset, min (L.bytes dest).width (L.bytes src).width⟩⟩
  | .zero dest | .clear dest => ⟨∅, (L.bytes dest).places⟩
  | .clearMemory dest size =>
      dest.guard ⟨placesFrom (dest.location context) size.toNat,
        placesFrom (dest.location context) size.toNat⟩
  | .push src =>
      ⟨(L.bytes src).places, placesFrom (pushSlot.location L context src) (L.bytes src).width⟩
  | .pop dest =>
      ⟨placesFrom (context.value L.stackPointer) (L.bytes dest).width, (L.bytes dest).places⟩
  | .ret =>
      ⟨placesFrom (context.value L.stackPointer) L.pointerWidth,
        (L.bytes L.programCounter).places⟩
  | .untracked => ⟨∅, ∅⟩

/-- A store and a copy meet only where the copy writes what is stored. -/
theorem Footprint.independent_store_copy {stored dest src : Slot} {address : UInt64}
    {size : Nat} (h : ∀ p ∈ dest.places, p ∉ stored.places) :
    Independent ⟨stored.places, placesFrom address size⟩ ⟨src.places, dest.places⟩ where
  left := by
    rintro (x | x) hp
    · exact absurd hp byte_notMem_placesFrom
    · exact ⟨Slot.address_notMem_places, Slot.address_notMem_places⟩
  right := by
    rintro (x | x) hp
    · exact ⟨h _ hp, byte_notMem_placesFrom⟩
    · exact absurd hp Slot.address_notMem_places

/-! ## Moves within a footprint -/

structure Move.ActsWithin (move : Move) (f : Footprint) : Prop where
  frame : ∀ {t p}, p ∉ f.writes → ((move.act t).Taints p ↔ t.Taints p)
  determined : ∀ {t u p}, (∀ q ∈ f.reads, t.Taints q ↔ u.Taints q) →
    (t.Taints p ↔ u.Taints p) → ((move.act t).Taints p ↔ (move.act u).Taints p)

namespace Move.ActsWithin

/-- Moves with independent footprints taint the same places in either order. -/
theorem comm {m₁ m₂ : Move} {f₁ f₂ : Footprint} (h₁ : m₁.ActsWithin f₁)
    (h₂ : m₂.ActsWithin f₂) (h : f₁.Independent f₂) (t : ByteState) (p : Place) :
    (m₂.act (m₁.act t)).Taints p ↔ (m₁.act (m₂.act t)).Taints p := by
  by_cases hp : p ∈ f₂.writes
  · -- the first move does not touch what the second one sees
    have hp₁ : p ∉ f₁.writes := (h.right p hp).2
    have hreads : ∀ q ∈ f₂.reads, (m₁.act t).Taints q ↔ t.Taints q := fun q hq =>
      h₁.frame fun hwritten => (h.left q hwritten).1 hq
    exact (h₂.determined hreads (h₁.frame hp₁)).trans (h₁.frame hp₁).symm
  · have hreads : ∀ q ∈ f₁.reads, t.Taints q ↔ (m₂.act t).Taints q := fun q hq =>
      (h₂.frame fun hwritten => (h.right q hwritten).1 hq).symm
    exact (h₂.frame hp).trans (h₁.determined hreads (h₂.frame hp).symm)

theorem skip : Move.skip.ActsWithin ⟨∅, ∅⟩ where
  frame _ := Iff.rfl
  determined _ h := h

/-- A move that sets the bytes of a slot to what it reads. -/
theorem of_setBytes {move : Move} {reads : Set Place} {slot : Slot}
    {value : ByteState → Nat → Bool}
    (hact : ∀ t, move.act t =
      { t with bytes := setBytes t.bytes slot.offset slot.width (value t) })
    (hvalue : ∀ {t u : ByteState}, (∀ q ∈ reads, t.Taints q ↔ u.Taints q) →
      ∀ i < slot.width, value t i = value u i) :
    move.ActsWithin ⟨reads, slot.places⟩ where
  frame {t p} hp := by
    rw [hact]
    cases p with
    | byte x =>
        rw [Slot.byte_mem_places, Slot.stop] at hp
        simp only [Taints, setBytes, if_neg hp]
    | address x => exact Iff.rfl
  determined {t u p} hreads hp := by
    rw [hact, hact]
    cases p with
    | byte x =>
        simp only [Taints, setBytes]
        split
        · next hin => rw [hvalue hreads _ (by omega)]
        · exact hp
    | address x => exact hp

theorem load (dest : Slot) (address : UInt64) :
    (Move.load dest address).ActsWithin ⟨placesFrom address dest.width, dest.places⟩ := by
  refine of_setBytes (fun _ => rfl) ?_
  intro t u hreads i hi
  rw [decide_eq_decide]
  exact hreads (.address (address.toNat + i)) (by simp [hi])

theorem copy (dest src : Slot) :
    (Move.copy dest src).ActsWithin ⟨Slot.places ⟨src.offset, min dest.width src.width⟩,
      Slot.places ⟨dest.offset, min dest.width src.width⟩⟩ := by
  refine of_setBytes (fun _ => rfl) ?_
  intro t u hreads i hi
  exact Bool.eq_iff_iff.mpr (hreads (.byte (src.offset + i)) (by simpa [Slot.stop] using hi))

theorem erase (slot : Slot) :
    (Move.write slot.offset (List.replicate slot.width false)).ActsWithin
      ⟨∅, slot.places⟩ := by
  have hact : ∀ t, (Move.write slot.offset (List.replicate slot.width false)).act t =
      { t with bytes := setBytes t.bytes slot.offset slot.width fun i =>
        (List.replicate slot.width false).getD i false } := by
    intro t
    rw [Move.act, List.length_replicate]
  exact of_setBytes hact fun _ _ _ => rfl

/-- Of what a store cuts out and of what it adds, all lies in the range that it writes. -/
theorem store {src : Slot} {address : UInt64} {cleared : Option Interval}
    (hfits : address.toNat + src.width < UInt64.size)
    (hcleared : ∀ query ∈ cleared, ∀ x ∈ query,
      address.toNat ≤ x ∧ x < address.toNat + src.width) :
    (Move.store src address cleared).ActsWithin
      ⟨src.places, placesFrom address src.width⟩ where
  frame {t p} hp := by
    cases p with
    | byte x => exact Iff.rfl
    | address x =>
        rw [address_mem_placesFrom] at hp
        simp only [Taints, Move.act, covered_add, covered_cutOut, covered_runsAt hfits]
        constructor
        · rintro (⟨hcovered, -⟩ | ⟨i, hi, -, rfl⟩)
          · exact hcovered
          · exact absurd ⟨by omega, by omega⟩ hp
        · intro hcovered
          exact .inl ⟨hcovered, fun query hquery hx => hp (hcleared query hquery x hx)⟩
  determined {t u p} hreads hp := by
    cases p with
    | byte x => exact hp
    | address x =>
        have hbytes : ∀ i < src.width,
            (t.bytes (src.offset + i) = true ↔ u.bytes (src.offset + i) = true) :=
          fun i hi => hreads (.byte (src.offset + i)) (by simp [Slot.stop, hi])
        simp only [Taints, Move.act, covered_add, covered_cutOut, covered_runsAt hfits]
        rw [show Covered t.ranges x ↔ Covered u.ranges x from hp]
        refine or_congr_right ⟨?_, ?_⟩
        · rintro ⟨i, hi, hset, hx⟩
          exact ⟨i, hi, (hbytes i hi).mp hset, hx⟩
        · rintro ⟨i, hi, hset, hx⟩
          exact ⟨i, hi, (hbytes i hi).mpr hset, hx⟩

end Move.ActsWithin

/-! ## Transfers -/

section

variable {options : PropagationOptions} {context : RegisterContext} {move : Move}

theorem Yields.eq_of_ok {α : Type} {x : Except Error α} {checks : List Check} {a b : α}
    (h : Yields x checks a) (hx : x = .ok b) : b = a := by
  rw [Yields, hx] at h
  cases hchecks : Check.verdict checks with
  | error e =>
      rw [hchecks] at h
      cases h
  | ok _ =>
      rw [hchecks] at h
      exact Except.ok.inj h

theorem Layout.bytes_of_slot {register : String} {slot : Slot}
    (h : L.slot register = .ok slot) : L.bytes register = slot :=
  ((L.yields_slot register).eq_of_ok h).symm

theorem Move.actsWithin_ofLoad {dest : String} {address : UInt64}
    (h : Move.ofLoad L dest address = .ok move) :
    move.ActsWithin ⟨placesFrom address (L.bytes dest).width, (L.bytes dest).places⟩ := by
  obtain ⟨slot, hslot, rfl⟩ := exists_of_ofLoad h
  rw [Layout.bytes_of_slot hslot]
  exact .load slot address

theorem Move.actsWithin_ofStore {address : UInt64} {src : String}
    (h : Move.ofStore L options address src = .ok move) :
    move.ActsWithin ⟨(L.bytes src).places, placesFrom address (L.bytes src).width⟩ := by
  obtain ⟨slot, range, hslot, hrange, rfl⟩ := exists_of_ofStore h
  rw [Layout.bytes_of_slot hslot]
  refine .store (Interval.fits_of_ofSize hrange) ?_
  intro query hquery x hx
  split at hquery
  · obtain rfl : range = some query := hquery
    obtain ⟨hstart, hstop⟩ := Interval.bounds_of_ofSize hrange
    rw [Interval.mem_iff, hstart, hstop] at hx
    exact hx
  · cases hquery

theorem Move.actsWithin_ofMark {register : String}
    (h : Move.ofMark L register false = .ok move) :
    move.ActsWithin ⟨∅, (L.bytes register).places⟩ := by
  obtain ⟨slot, hslot, rfl⟩ := exists_of_ofMark h
  rw [Layout.bytes_of_slot hslot]
  exact .erase slot

theorem Move.actsWithin_atAddress {operand : MemoryOperand} {f : UInt64 → Except Error Move}
    {g : Footprint} (hf : f (operand.location context) = .ok move → move.ActsWithin g)
    (h : Move.atAddress context operand f = .ok move) : move.ActsWithin (operand.guard g) := by
  obtain ⟨address, haddress, h⟩ := exists_of_bind_eq_ok h
  obtain rfl := (operand.yields_effectiveAddress context).eq_of_ok haddress
  rw [MemoryOperand.guard]
  cases hbase : operand.base with
  | none =>
      rw [hbase] at h
      cases h
      exact .skip
  | some base =>
      rw [hbase] at h
      exact hf h

/-- A transfer that does not clear memory acts within its footprint. -/
theorem Transfer.actsWithin {transfer : Transfer}
    (hclear : ∀ dest size, transfer ≠ .clearMemory dest size)
    (h : transfer.resolve L options context = .ok move) :
    move.ActsWithin (transfer.footprint L options.pushSlot context) := by
  cases transfer with
  | load dest src => exact Move.actsWithin_atAddress Move.actsWithin_ofLoad h
  | store dest src => exact Move.actsWithin_atAddress Move.actsWithin_ofStore h
  | copy dest src =>
      obtain ⟨d, s, hdest, hsrc, rfl⟩ := Move.exists_of_copy h
      rw [footprint, Layout.bytes_of_slot hdest, Layout.bytes_of_slot hsrc]
      exact .copy d s
  | zero dest => exact Move.actsWithin_ofMark h
  | clear dest => exact Move.actsWithin_ofMark h
  | clearMemory dest size => exact absurd rfl (hclear dest size)
  | push src =>
      obtain ⟨address, haddress, h⟩ := exists_of_bind_eq_ok h
      obtain rfl := (yields_pushTarget L options context src).eq_of_ok haddress
      exact Move.actsWithin_ofStore h
  | pop dest =>
      obtain ⟨top, htop, h⟩ := exists_of_bind_eq_ok h
      obtain rfl := (context.yields_read L.stackPointer).eq_of_ok htop
      exact Move.actsWithin_ofLoad h
  | ret =>
      obtain ⟨top, htop, h⟩ := exists_of_bind_eq_ok h
      obtain rfl := (context.yields_read L.stackPointer).eq_of_ok htop
      obtain ⟨slot, hslot, hwidth⟩ := L.exists_programCounter
      rw [footprint, ← hwidth, ← Layout.bytes_of_slot hslot]
      exact Move.actsWithin_ofLoad h
  | untracked =>
      cases h
      exact .skip

end

/-! ## Sessions -/

namespace Session

/-- An instruction is refused with its transfer, or moves the view of the session. -/
theorem execute_cases {s : Session L} (hs : s.Sound) (instruction : Instruction)
    (context : RegisterContext) :
    (∃ e, (Transfer.classify instruction).resolve L s.options context = .error e ∧
        s.execute instruction context = (.error e, s)) ∨
      ∃ move after, (Transfer.classify instruction).resolve L s.options context = .ok move ∧
        s.execute instruction context = (.ok (Transfer.classify instruction), after) ∧
        after.Sound ∧ after.options = s.options ∧ after.view = move.act s.view := by
  have h := follows_run hs (realises_apply s.options context (Transfer.classify instruction))
  rw [execute_eq]
  cases hmove : (Transfer.classify instruction).resolve L s.options context with
  | error e =>
      rw [hmove] at h
      rw [show s.run _ = (.error e, s) from h]
      exact .inl ⟨e, rfl, rfl⟩
  | ok move =>
      rw [hmove] at h
      obtain ⟨after, hrun, hafter⟩ := h
      rw [hrun]
      exact .inr ⟨move, after, rfl, rfl, hafter⟩

theorem resolve_of_execute {s : Session L} (hs : s.Sound) {instruction : Instruction}
    {context : RegisterContext} {transfer : Transfer}
    (h : (s.execute instruction context).1 = .ok transfer) :
    Transfer.classify instruction = transfer ∧
      ∃ move, transfer.resolve L s.options context = .ok move := by
  rcases execute_cases hs instruction context with
    ⟨e, -, hexecute⟩ | ⟨move, after, hmove, hexecute, -⟩
  · rw [hexecute] at h
    cases h
  · rw [hexecute] at h
    cases h
    exact ⟨rfl, move, hmove⟩

theorem execute_of_resolve {s : Session L} (hs : s.Sound) {instruction : Instruction}
    {context : RegisterContext} {move : Move}
    (h : (Transfer.classify instruction).resolve L s.options context = .ok move) :
    ∃ after, s.execute instruction context = (.ok (Transfer.classify instruction), after) ∧
      after.Sound ∧ after.options = s.options ∧ after.view = move.act s.view := by
  rcases execute_cases hs instruction context with
    ⟨e, herror, -⟩ | ⟨found, after, hfound, hexecute⟩
  · rw [h] at herror
    cases herror
  · rw [h] at hfound
    cases hfound
    exact ⟨after, hexecute⟩

/-- Whether an instruction is refused does not depend on taint, so the second of two
instructions succeeds after the first if it does without it. -/
theorem execute_execute {s : Session L} (hs : s.Sound) {i₁ i₂ : Instruction}
    {c₁ c₂ : RegisterContext} {m₁ m₂ : Move}
    (h₁ : (Transfer.classify i₁).resolve L s.options c₁ = .ok m₁)
    (h₂ : (Transfer.classify i₂).resolve L s.options c₂ = .ok m₂) :
    ∃ after, (s.execute i₁ c₁).2.execute i₂ c₂ = (.ok (Transfer.classify i₂), after) ∧
      after.Sound ∧ after.view = m₂.act (m₁.act s.view) := by
  obtain ⟨between, hfirst, hbetween, hoptions, hview⟩ := execute_of_resolve hs h₁
  rw [← hoptions] at h₂
  obtain ⟨after, hsecond, hafter, -, hview'⟩ := execute_of_resolve hbetween h₂
  rw [hfirst]
  exact ⟨after, hsecond, hafter, by rw [hview', hview]⟩

/-- Two instructions that succeed, do not clear memory and are independent of each other
succeed in either order, and leave the same registers and the same tainted memory. -/
theorem Reachable.execute_comm {s : Session L} (hs : s.Reachable) {i₁ i₂ : Instruction}
    {c₁ c₂ : RegisterContext} {t₁ t₂ : Transfer} (h₁ : (s.execute i₁ c₁).1 = .ok t₁)
    (h₂ : (s.execute i₂ c₂).1 = .ok t₂) (hclear₁ : ∀ dest size, t₁ ≠ .clearMemory dest size)
    (hclear₂ : ∀ dest size, t₂ ≠ .clearMemory dest size)
    (hindependent : (t₁.footprint L s.options.pushSlot c₁).Independent
      (t₂.footprint L s.options.pushSlot c₂)) :
    ∃ first second, (s.execute i₁ c₁).2.execute i₂ c₂ = (.ok t₂, first) ∧
      (s.execute i₂ c₂).2.execute i₁ c₁ = (.ok t₁, second) ∧
      first.state.registers = second.state.registers ∧
      (∀ x, Covered first.view.ranges x ↔ Covered second.view.ranges x) ∧
      first.taintedMemory = second.taintedMemory := by
  obtain ⟨rfl, m₁, hm₁⟩ := resolve_of_execute hs.sound h₁
  obtain ⟨rfl, m₂, hm₂⟩ := resolve_of_execute hs.sound h₂
  obtain ⟨first, hfirst, hsound₁, hview₁⟩ := execute_execute hs.sound hm₁ hm₂
  obtain ⟨second, hsecond, hsound₂, hview₂⟩ := execute_execute hs.sound hm₂ hm₁
  have htaints : ∀ p, first.view.Taints p ↔ second.view.Taints p := by
    rw [hview₁, hview₂]
    exact (Transfer.actsWithin hclear₁ hm₁).comm (Transfer.actsWithin hclear₂ hm₂)
      hindependent s.view
  have hflags : first.state.registers.flags = second.state.registers.flags :=
    BitSet.eq_of_test_eq (bytes_eq_of_taints htaints)
  have hcovered : ∀ x, Covered first.view.ranges x ↔ Covered second.view.ranges x :=
    fun x => htaints (.address x)
  exact ⟨first, second, hfirst, hsecond, congrArg RegisterTaint.mk hflags, hcovered,
    IntervalSet.Sound.merged_eq hsound₁ hsound₂ hcovered⟩

/-- The instruction `mov ecx, edx`. -/
def moveLow : Instruction where
  address := 4100
  mnemonic := "mov"
  operands := [⟨.register "ecx", 4⟩, ⟨.register "edx", 4⟩]

theorem exists_resolve_moveLow (options : PropagationOptions) (context : RegisterContext)
    {dest src : Slot} (hdest : L.slot "ecx" = .ok dest) (hsrc : L.slot "edx" = .ok src) :
    ∃ move, (Transfer.classify moveLow).resolve L options context = .ok move := by
  refine ⟨.copy dest src, ?_⟩
  rw [show Transfer.classify moveLow = .copy "ecx" "edx" by decide, Transfer.resolve, hdest,
    hsrc]
  rfl

theorem independent_spill_moveLow {dest src : Slot} (hrax : L.slot "rax" = .ok ⟨16, 8⟩)
    (hdest : L.slot "ecx" = .ok dest) (hsrc : L.slot "edx" = .ok src) (hgap : 24 ≤ dest.offset)
    (pushSlot : PushSlot) (c₁ c₂ : RegisterContext) :
    ((Transfer.store { base := some "rbx" } "rax").footprint L pushSlot c₁).Independent
      ((Transfer.copy "ecx" "edx").footprint L pushSlot c₂) := by
  rw [Transfer.footprint, Transfer.footprint, Layout.bytes_of_slot hrax,
    Layout.bytes_of_slot hdest, Layout.bytes_of_slot hsrc]
  refine Footprint.independent_store_copy ?_
  rintro (x | x) hdest hsrc
  · rw [Slot.byte_mem_places] at hdest hsrc
    have hlt : x < 24 := hsrc.2
    have hle : dest.offset ≤ x := hdest.1
    omega
  · exact Slot.address_notMem_places hdest

/-- `mov [rbx], rax` and `mov ecx, edx` with `ax` tainted. -/
theorem Reachable.execute_comm_marked :
    ∃ first second,
      (marked.execute spill.instruction (spill.context Layout.amd64)).2.execute moveLow
          (fun _ => none) = (.ok (.copy "ecx" "edx"), first) ∧
      (marked.execute moveLow fun _ => none).2.execute spill.instruction
          (spill.context Layout.amd64) =
        (.ok (.store { base := some "rbx" } "rax"), second) ∧
      first.state.registers = second.state.registers ∧
      first.taintedMemory = second.taintedMemory := by
  have hmarked : marked.Reachable := .perform (.start {}) _
  have hrax : Layout.amd64.slot "rax" = .ok ⟨16, 8⟩ := Layout.slot_amd64 (by decide +kernel)
  have hecx : Layout.amd64.slot "ecx" = .ok ⟨24, 4⟩ := Layout.slot_amd64 (by decide +kernel)
  have hedx : Layout.amd64.slot "edx" = .ok ⟨32, 4⟩ := Layout.slot_amd64 (by decide +kernel)
  have hspill : Transfer.classify spill.instruction = .store { base := some "rbx" } "rax" := by
    decide
  have hmove : Transfer.classify moveLow = .copy "ecx" "edx" := by decide
  obtain ⟨store, hresolve⟩ := Event.exists_resolve_spill marked.options hrax
  have hstore := Event.transfer_resolve hresolve
  obtain ⟨copy, hcopy⟩ := exists_resolve_moveLow marked.options (fun _ => none) hecx hedx
  obtain ⟨_, hfirst, -⟩ := execute_of_resolve hmarked.sound hstore
  obtain ⟨_, hsecond, -⟩ := execute_of_resolve hmarked.sound hcopy
  rw [hspill] at hfirst
  rw [hmove] at hsecond
  obtain ⟨first, second, h₁, h₂, hregisters, -, hmemory⟩ := Reachable.execute_comm hmarked
    (congrArg Prod.fst hfirst) (congrArg Prod.fst hsecond) (fun _ _ h => by cases h)
    (fun _ _ h => by cases h)
    (independent_spill_moveLow hrax hecx hedx (Nat.le_refl _) marked.options.pushSlot _ _)
  exact ⟨first, second, h₁, h₂, hregisters, hmemory⟩

end Session

end TaintFlow
