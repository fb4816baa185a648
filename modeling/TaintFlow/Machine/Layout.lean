import TaintFlow.Error
import TaintFlow.NameMap

/-!
# Register layouts

A layout gives every register name a byte range inside one opaque block, the
register context. Ranges may overlap in any way: `rax` and `eax` name some of
the same bytes, so taint written through one name is seen through the other.

A `LayoutDescription` is what a caller writes down; a `Layout` is a description
that has passed `LayoutDescription.check`.
-/

namespace TaintFlow

/-- The bytes of one register inside the context. -/
structure Slot where
  offset : Nat
  width : Nat
deriving DecidableEq

/-- One past the last byte. -/
def Slot.stop (slot : Slot) : Nat := slot.offset + slot.width

def Slot.fits (slot : Slot) (contextSize : Nat) : Bool :=
  slot.width != 0 && decide (slot.stop ≤ contextSize)

structure LayoutDescription where
  name : String
  contextSize : Nat
  pointerWidth : Nat
  stackPointer : String
  programCounter : String
  registers : NameMap Slot
deriving DecidableEq

namespace LayoutDescription

def slot (d : LayoutDescription) (register : String) : Except Error Slot :=
  match d.registers.get? register with
  | some slot => .ok slot
  | none => .error (.unknownRegister register)

/-- A register that holds an address exists and is as wide as a pointer. -/
def checkPointer (d : LayoutDescription) (register : String) : Except Error Unit := do
  let slot ← d.slot register
  if slot.width = d.pointerWidth then .ok ()
  else .error (.invalidLayout (.pointerRegister register slot.width d.pointerWidth))

/-- The rules of a layout, in the order in which a violation is reported: the
pointer width, the registers by ascending name, the stack pointer, the program
counter. -/
def check (d : LayoutDescription) : Except Error Unit :=
  if d.pointerWidth = 0 ∨ 8 < d.pointerWidth then
    .error (.invalidLayout (.pointerWidth d.pointerWidth))
  else
    match d.registers.entries.find? fun entry => !entry.2.fits d.contextSize with
    | some (register, slot) =>
      .error (.invalidLayout (.slot register slot.offset slot.width d.contextSize))
    | none => do
      d.checkPointer d.stackPointer
      d.checkPointer d.programCounter

/-- What `check` accepts, said of the table as a whole. -/
structure WellFormed (d : LayoutDescription) : Prop where
  pointerWidth_pos : 0 < d.pointerWidth
  pointerWidth_le : d.pointerWidth ≤ 8
  slots_fit : ∀ entry ∈ d.registers.entries, 0 < entry.2.width ∧ entry.2.stop ≤ d.contextSize
  stackPointer_width : (d.registers.get? d.stackPointer).map Slot.width = some d.pointerWidth
  programCounter_width : (d.registers.get? d.programCounter).map Slot.width = some d.pointerWidth

instance (d : LayoutDescription) : Decidable d.WellFormed :=
  decidable_of_iff
    (0 < d.pointerWidth ∧ d.pointerWidth ≤ 8 ∧
      (∀ entry ∈ d.registers.entries, 0 < entry.2.width ∧ entry.2.stop ≤ d.contextSize) ∧
      (d.registers.get? d.stackPointer).map Slot.width = some d.pointerWidth ∧
      (d.registers.get? d.programCounter).map Slot.width = some d.pointerWidth)
    ⟨fun ⟨h₁, h₂, h₃, h₄, h₅⟩ => ⟨h₁, h₂, h₃, h₄, h₅⟩,
      fun ⟨h₁, h₂, h₃, h₄, h₅⟩ => ⟨h₁, h₂, h₃, h₄, h₅⟩⟩

theorem checkPointer_eq_ok_iff {d : LayoutDescription} {register : String} :
    d.checkPointer register = .ok () ↔
      (d.registers.get? register).map Slot.width = some d.pointerWidth := by
  cases h : d.registers.get? register with
  | none => simp [checkPointer, slot, h, bind, Except.bind]
  | some s =>
    by_cases hw : s.width = d.pointerWidth <;>
      simp [checkPointer, slot, h, hw, bind, Except.bind]

theorem check_eq_ok_iff {d : LayoutDescription} : d.check = .ok () ↔ d.WellFormed := by
  have hpair : (do d.checkPointer d.stackPointer; d.checkPointer d.programCounter) = .ok () ↔
      d.checkPointer d.stackPointer = .ok () ∧ d.checkPointer d.programCounter = .ok () := by
    cases d.checkPointer d.stackPointer <;> simp [bind, Except.bind]
  constructor
  · intro h
    simp only [check] at h
    split at h
    · cases h
    · next hwidth =>
      split at h
      · cases h
      · next hfind =>
        have hslots := List.find?_eq_none.mp hfind
        have ⟨hsp, hpc⟩ := hpair.mp h
        refine ⟨by omega, by omega, fun entry he => ?_, checkPointer_eq_ok_iff.mp hsp,
          checkPointer_eq_ok_iff.mp hpc⟩
        have := hslots entry he
        simp [Slot.fits] at this
        omega
  · intro h
    have hwidth : ¬ (d.pointerWidth = 0 ∨ 8 < d.pointerWidth) := by
      have := h.pointerWidth_pos
      have := h.pointerWidth_le
      omega
    have hfind : d.registers.entries.find? (fun entry => !entry.2.fits d.contextSize) = none := by
      refine List.find?_eq_none.mpr fun entry he => ?_
      have := h.slots_fit entry he
      simp [Slot.fits]
      omega
    rw [check, if_neg hwidth, hfind]
    exact hpair.mpr ⟨checkPointer_eq_ok_iff.mpr h.stackPointer_width,
      checkPointer_eq_ok_iff.mpr h.programCounter_width⟩

end LayoutDescription

structure Layout extends LayoutDescription where
  wellFormed : toLayoutDescription.WellFormed

/-- The layout of a description, or the first rule that it violates. -/
def Layout.ofDescription (d : LayoutDescription) : Except Error Layout :=
  match h : d.check with
  | .ok () => .ok ⟨d, LayoutDescription.check_eq_ok_iff.mp h⟩
  | .error e => .error e

end TaintFlow
