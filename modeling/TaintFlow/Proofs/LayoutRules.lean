import Mathlib.Data.List.Sort
import TaintFlow.Proofs.ByteOrder
import TaintFlow.Proofs.Registers

/-!
# Which layouts are accepted

A layout is described by a list of entries, and of the entries of one name the last one
counts. `Assigns` says this of the list, and the rules of a layout are said here in terms of
it, without the sorted table that the list becomes: `Accepts` for a layout in order, and
`Refuses` for the violation that is reported. Several rules can be violated at once. Each
constructor of `Refuses` therefore has the rules in front of its own among its premises, and
of the slots that do not fit the one is reported whose name comes first by its bytes.

So the order of the entries has no influence, except that it decides which of several entries
of a name is the last.
-/

namespace TaintFlow

/-! ## Tables and the lists they are made of -/

/-- The last entry of `name` has this value. -/
def Assigns {α : Type} (entries : List (String × α)) (name : String) (value : α) : Prop :=
  ∃ before after, entries = before ++ (name, value) :: after ∧ ∀ entry ∈ after, entry.1 ≠ name

namespace NameMap

variable {α : Type}

theorem get?_ofList_eq_some_iff {entries : List (String × α)} {name : String} {value : α} :
    (ofList entries).get? name = some value ↔ Assigns entries name value := by
  rw [get?_ofList, List.lookup_eq_some_iff]
  constructor
  · intro h
    obtain ⟨after, before, hentries, hafter⟩ := h
    refine ⟨before.reverse, after.reverse, ?_, ?_⟩
    · rw [← List.reverse_reverse entries, hentries]
      simp
    · intro entry hentry
      exact (bne_iff_ne.mp (hafter entry (List.mem_reverse.mp hentry))).symm
  · intro h
    obtain ⟨before, after, hentries, hafter⟩ := h
    refine ⟨after.reverse, before.reverse, ?_, ?_⟩
    · rw [hentries]
      simp
    · intro entry hentry
      exact bne_iff_ne.mpr (hafter entry (List.mem_reverse.mp hentry)).symm

theorem mem_entries_ofList_iff {entries : List (String × α)} {name : String} {value : α} :
    (name, value) ∈ (ofList entries).entries ↔ Assigns entries name value := by
  rw [← get?_ofList_eq_some_iff]
  exact ⟨get?_of_mem, mem_of_get?⟩

theorem get?_ofList_eq_none_iff {entries : List (String × α)} {name : String} :
    (ofList entries).get? name = none ↔ ∀ value, ¬ Assigns entries name value := by
  simp only [← get?_ofList_eq_some_iff]
  cases (ofList entries).get? name with
  | none => simp
  | some value => simp

/-- Lists that assign the same values make the same table. -/
theorem ofList_congr {entries others : List (String × α)}
    (h : ∀ name value, Assigns entries name value ↔ Assigns others name value) :
    ofList entries = ofList others := by
  have hantisymm : Std.Antisymm fun a b : String × α => a.1 < b.1 :=
    ⟨fun _ _ hab hba => absurd hba (String.lt_asymm hab)⟩
  have hirrefl : Std.Irrefl fun a b : String × α => a.1 < b.1 :=
    ⟨fun a => String.lt_irrefl a.1⟩
  have hentries : (ofList entries).entries = (ofList others).entries := by
    refine (ofList entries).ascending.eq_of_mem_iff (ofList others).ascending ?_
    intro entry
    rw [mem_entries_ofList_iff, mem_entries_ofList_iff]
    exact h entry.1 entry.2
  cases hmap : ofList entries with
  | mk mine _ =>
      cases hother : ofList others with
      | mk theirs _ =>
          rw [hmap, hother] at hentries
          cases hentries
          rfl

end NameMap

/-! ## The rules, said of the entries -/

/-- A layout as a caller lists it. -/
structure LayoutListing where
  name : String
  contextSize : Nat
  pointerWidth : Nat
  stackPointer : String
  programCounter : String
  /-- Of several entries of a name the last one counts. -/
  entries : List (String × Slot)

namespace LayoutListing

def description (listing : LayoutListing) : LayoutDescription where
  name := listing.name
  contextSize := listing.contextSize
  pointerWidth := listing.pointerWidth
  stackPointer := listing.stackPointer
  programCounter := listing.programCounter
  registers := .ofList listing.entries

/-- A pointer has one to eight bytes. -/
def HasWidth (listing : LayoutListing) : Prop :=
  1 ≤ listing.pointerWidth ∧ listing.pointerWidth ≤ 8

/-- The slot has bytes, and all of them lie in the context. -/
def Contains (listing : LayoutListing) (slot : Slot) : Prop :=
  0 < slot.width ∧ slot.offset + slot.width ≤ listing.contextSize

def ContainsAll (listing : LayoutListing) : Prop :=
  ∀ register slot, Assigns listing.entries register slot → listing.Contains slot

/-- The register is there and as wide as a pointer. -/
def HoldsPointer (listing : LayoutListing) (register : String) : Prop :=
  ∃ slot, Assigns listing.entries register slot ∧ slot.width = listing.pointerWidth

/-- A listing that obeys every rule of a layout. -/
structure Accepts (listing : LayoutListing) : Prop where
  width : listing.HasWidth
  slots : listing.ContainsAll
  stackPointer : listing.HoldsPointer listing.stackPointer
  programCounter : listing.HoldsPointer listing.programCounter

/-- Why a register does not hold a pointer. -/
inductive RefusesPointer (listing : LayoutListing) (register : String) : Error → Prop where
  | absent (h : ∀ slot, ¬ Assigns listing.entries register slot) :
      RefusesPointer listing register (.unknownRegister register)
  | width {slot : Slot} (h : Assigns listing.entries register slot)
      (hne : slot.width ≠ listing.pointerWidth) :
      RefusesPointer listing register
        (.invalidLayout (.pointerRegister register slot.width listing.pointerWidth))

/-- The first rule that a listing violates. -/
inductive Refuses (listing : LayoutListing) : Error → Prop where
  | width (h : ¬ listing.HasWidth) :
      Refuses listing (.invalidLayout (.pointerWidth listing.pointerWidth))
  | slot {register : String} {slot : Slot} (hwidth : listing.HasWidth)
      (h : Assigns listing.entries register slot) (hout : ¬ listing.Contains slot)
      (hfirst : ∀ other more, Assigns listing.entries other more → ¬ listing.Contains more →
        other ≠ register → utf8 register < utf8 other) :
      Refuses listing
        (.invalidLayout (.slot register slot.offset slot.width listing.contextSize))
  | stackPointer {e : Error} (hwidth : listing.HasWidth) (hslots : listing.ContainsAll)
      (h : listing.RefusesPointer listing.stackPointer e) : Refuses listing e
  | programCounter {e : Error} (hwidth : listing.HasWidth) (hslots : listing.ContainsAll)
      (hstack : listing.HoldsPointer listing.stackPointer)
      (h : listing.RefusesPointer listing.programCounter e) : Refuses listing e

variable {listing : LayoutListing}

theorem fits_iff {slot : Slot} :
    slot.fits listing.contextSize = true ↔ listing.Contains slot := by
  rw [Slot.fits, Bool.and_eq_true, bne_iff_ne, decide_eq_true_iff, Contains, Slot.stop,
    Nat.pos_iff_ne_zero]

theorem not_fits_iff {slot : Slot} :
    (!slot.fits listing.contextSize) = true ↔ ¬ listing.Contains slot := by
  rw [← fits_iff, Bool.not_eq_true', Bool.not_eq_true]

theorem holds_or_refusesPointer (listing : LayoutListing) (register : String) :
    listing.HoldsPointer register ∨ ∃ e, listing.RefusesPointer register e := by
  cases hget : (NameMap.ofList listing.entries).get? register with
  | none => exact .inr ⟨_, .absent (NameMap.get?_ofList_eq_none_iff.mp hget)⟩
  | some slot =>
      have hassigns := NameMap.get?_ofList_eq_some_iff.mp hget
      by_cases hwidth : slot.width = listing.pointerWidth
      · exact .inl ⟨slot, hassigns, hwidth⟩
      · exact .inr ⟨_, .width hassigns hwidth⟩

/-- The slot that is found first in the table is reported: names behind it are larger. -/
theorem find?_eq_some_iff {register : String} {slot : Slot} :
    (NameMap.ofList listing.entries).entries.find?
        (fun entry => !entry.2.fits listing.contextSize) = some (register, slot) ↔
      Assigns listing.entries register slot ∧ ¬ listing.Contains slot ∧
        ∀ other more, Assigns listing.entries other more → ¬ listing.Contains more →
          other ≠ register → utf8 register < utf8 other := by
  have hascending := (NameMap.ofList listing.entries).ascending
  simp only [List.find?_eq_some_iff_append, ← NameMap.mem_entries_ofList_iff, ← lt_iff_utf8_lt,
    not_fits_iff]
  generalize (NameMap.ofList listing.entries).entries = entries at hascending
  constructor
  · intro h
    obtain ⟨hout, before, after, hentries, hbefore⟩ := h
    refine ⟨by simp [hentries], hout, ?_⟩
    intro other more hother hmore hne
    rw [hentries, List.pairwise_append, List.pairwise_cons] at hascending
    rw [hentries, List.mem_append, List.mem_cons] at hother
    rcases hother with hfront | heq | hbehind
    · have hfits := hbefore _ hfront
      rw [Bool.not_not, fits_iff] at hfits
      exact absurd hfits hmore
    · cases heq
      exact absurd rfl hne
    · exact hascending.2.1.1 _ hbehind
  · intro h
    obtain ⟨hmem, hout, hfirst⟩ := h
    obtain ⟨before, after, hentries⟩ := List.append_of_mem hmem
    refine ⟨hout, before, after, hentries, ?_⟩
    intro entry hbefore
    rw [hentries, List.pairwise_append] at hascending
    have hlt : entry.1 < register := hascending.2.2 entry hbefore _ List.mem_cons_self
    rw [Bool.not_not, fits_iff]
    by_contra hmore
    have hentry : (entry.1, entry.2) ∈ entries := by
      rw [hentries]
      exact List.mem_append_left _ hbefore
    exact String.lt_asymm hlt (hfirst entry.1 entry.2 hentry hmore (String.ne_of_lt hlt))

theorem find?_eq_none_iff :
    (NameMap.ofList listing.entries).entries.find?
        (fun entry => !entry.2.fits listing.contextSize) = none ↔ listing.ContainsAll := by
  simp only [List.find?_eq_none, not_fits_iff, not_not, ContainsAll,
    ← NameMap.mem_entries_ofList_iff]
  exact ⟨fun h register slot hentry => h (register, slot) hentry,
    fun h entry hentry => h entry.1 entry.2 hentry⟩

/-- Every listing obeys the rules or violates one. -/
theorem accepts_or_refuses (listing : LayoutListing) :
    listing.Accepts ∨ ∃ e, listing.Refuses e := by
  by_cases hwidth : listing.HasWidth
  · cases hfind : (NameMap.ofList listing.entries).entries.find?
        fun entry => !entry.2.fits listing.contextSize with
    | some entry =>
        obtain ⟨hassigns, hout, hfirst⟩ := find?_eq_some_iff.mp hfind
        exact .inr ⟨_, .slot hwidth hassigns hout hfirst⟩
    | none =>
        have hslots := find?_eq_none_iff.mp hfind
        rcases listing.holds_or_refusesPointer listing.stackPointer with hstack | ⟨e, hstack⟩
        · rcases listing.holds_or_refusesPointer listing.programCounter with
            hcounter | ⟨e, hcounter⟩
          · exact .inl ⟨hwidth, hslots, hstack, hcounter⟩
          · exact .inr ⟨e, .programCounter hwidth hslots hstack hcounter⟩
        · exact .inr ⟨e, .stackPointer hwidth hslots hstack⟩
  · exact .inr ⟨_, .width hwidth⟩

/-! ## What the check finds -/

theorem checkPointer_of_holds {register : String} (h : listing.HoldsPointer register) :
    listing.description.checkPointer register = .ok () := by
  obtain ⟨slot, hassigns, hwidth⟩ := h
  have hget := NameMap.get?_ofList_eq_some_iff.mpr hassigns
  simp only [LayoutDescription.checkPointer, LayoutDescription.slot, description, hget]
  exact if_pos hwidth

theorem checkPointer_of_refuses {register : String} {e : Error}
    (h : listing.RefusesPointer register e) :
    listing.description.checkPointer register = .error e := by
  cases h with
  | absent h =>
      have hget := NameMap.get?_ofList_eq_none_iff.mpr h
      simp only [LayoutDescription.checkPointer, LayoutDescription.slot, description, hget]
      rfl
  | width h hne =>
      have hget := NameMap.get?_ofList_eq_some_iff.mpr h
      simp only [LayoutDescription.checkPointer, LayoutDescription.slot, description, hget]
      exact if_neg hne

theorem HasWidth.not_out (h : listing.HasWidth) :
    ¬ (listing.description.pointerWidth = 0 ∨ 8 < listing.description.pointerWidth) := by
  have hlow := h.1
  have hhigh := h.2
  simp only [description]
  omega

/-- When the width is one and the slots fit, the check is that of the pointers. -/
theorem check_of_containsAll (hwidth : listing.HasWidth) (hslots : listing.ContainsAll) :
    listing.description.check =
      (listing.description.checkPointer listing.stackPointer >>= fun _ =>
        listing.description.checkPointer listing.programCounter) := by
  have hfind := find?_eq_none_iff.mpr hslots
  rw [LayoutDescription.check, if_neg hwidth.not_out]
  simp only [description, hfind]

theorem check_of_accepts (h : listing.Accepts) : listing.description.check = .ok () := by
  rw [check_of_containsAll h.width h.slots, checkPointer_of_holds h.stackPointer]
  exact checkPointer_of_holds h.programCounter

theorem check_of_refuses {e : Error} (h : listing.Refuses e) :
    listing.description.check = .error e := by
  cases h with
  | width h =>
      have hout : listing.pointerWidth = 0 ∨ 8 < listing.pointerWidth := by
        rw [HasWidth] at h
        omega
      exact if_pos hout
  | slot hwidth h hout hfirst =>
      have hfind := find?_eq_some_iff.mpr ⟨h, hout, hfirst⟩
      rw [LayoutDescription.check, if_neg hwidth.not_out]
      simp only [description, hfind]
  | stackPointer hwidth hslots h =>
      rw [check_of_containsAll hwidth hslots, checkPointer_of_refuses h]
      rfl
  | programCounter hwidth hslots hstack h =>
      rw [check_of_containsAll hwidth hslots, checkPointer_of_holds hstack]
      exact checkPointer_of_refuses h

theorem ofDescription_of_accepts (h : listing.Accepts) :
    ∃ layout, Layout.ofDescription listing.description = .ok layout := by
  have hcheck := check_of_accepts h
  rw [Layout.ofDescription]
  split
  · exact ⟨_, rfl⟩
  · next e herror =>
      rw [hcheck] at herror
      cases herror

theorem ofDescription_of_refuses {e : Error} (h : listing.Refuses e) :
    Layout.ofDescription listing.description = .error e := by
  have hcheck := check_of_refuses h
  rw [Layout.ofDescription]
  split
  · next hok =>
      rw [hcheck] at hok
      cases hok
  · next other herror =>
      rw [hcheck] at herror
      cases herror
      rfl

theorem exists_ofDescription_iff :
    (∃ layout, Layout.ofDescription listing.description = .ok layout) ↔ listing.Accepts := by
  refine ⟨?_, ofDescription_of_accepts⟩
  intro h
  obtain ⟨layout, hlayout⟩ := h
  rcases listing.accepts_or_refuses with haccepts | ⟨e, hrefuses⟩
  · exact haccepts
  · rw [ofDescription_of_refuses hrefuses] at hlayout
    cases hlayout

theorem ofDescription_eq_error_iff {e : Error} :
    Layout.ofDescription listing.description = .error e ↔ listing.Refuses e := by
  refine ⟨?_, ofDescription_of_refuses⟩
  intro herror
  rcases listing.accepts_or_refuses with haccepts | ⟨other, hrefuses⟩
  · obtain ⟨layout, hlayout⟩ := ofDescription_of_accepts haccepts
    rw [hlayout] at herror
    cases herror
  · rw [ofDescription_of_refuses hrefuses] at herror
    cases herror
    exact hrefuses

/-- A layout is what was described. -/
theorem toLayoutDescription_of_ok {description : LayoutDescription} {layout : Layout}
    (h : Layout.ofDescription description = .ok layout) :
    layout.toLayoutDescription = description := by
  rw [Layout.ofDescription] at h
  split at h
  · cases h
    rfl
  · cases h

/-- A listing becomes a layout if and only if it obeys the rules, and is refused for the first
rule that it violates. Both go by the last entry of each name alone, so that an entry which a
later one replaces can be anything, and entries can be listed in any order that keeps the last
ones last. -/
theorem ofDescription_exact (listing : LayoutListing) :
    ((∃ layout, Layout.ofDescription listing.description = .ok layout) ↔ listing.Accepts) ∧
      (∀ layout, Layout.ofDescription listing.description = .ok layout →
        layout.toLayoutDescription = listing.description) ∧
      (∀ e, Layout.ofDescription listing.description = .error e ↔ listing.Refuses e) ∧
      ∀ entries : List (String × Slot),
        (∀ register slot, Assigns entries register slot ↔
          Assigns listing.entries register slot) →
        Layout.ofDescription (description { listing with entries }) =
          Layout.ofDescription listing.description := by
  refine ⟨exists_ofDescription_iff, fun layout => toLayoutDescription_of_ok,
    fun e => ofDescription_eq_error_iff, ?_⟩
  intro entries h
  simp only [description, NameMap.ofList_congr h]

/-- A context of sixteen bytes in which an entry that does not fit is replaced. -/
def tiny : LayoutListing where
  name := "tiny"
  contextSize := 16
  pointerWidth := 4
  stackPointer := "sp"
  programCounter := "pc"
  entries := [("a", ⟨12, 8⟩), ("sp", ⟨0, 4⟩), ("pc", ⟨4, 4⟩), ("a", ⟨8, 8⟩)]

theorem accepts_tiny : tiny.Accepts where
  width := ⟨by decide, by decide⟩
  slots := find?_eq_none_iff.mp (by decide)
  stackPointer := ⟨⟨0, 4⟩, NameMap.get?_ofList_eq_some_iff.mp (by decide), rfl⟩
  programCounter := ⟨⟨4, 4⟩, NameMap.get?_ofList_eq_some_iff.mp (by decide), rfl⟩

/-- The entries are listed in another order, with the same entry of the repeated name last. -/
theorem ofDescription_exact_tiny :
    ∃ layout, Layout.ofDescription tiny.description = .ok layout ∧
      layout.toLayoutDescription = tiny.description ∧
      (∀ register slot,
        Assigns [("a", ⟨12, 8⟩), ("pc", ⟨4, 4⟩), ("a", ⟨8, 8⟩), ("sp", ⟨0, 4⟩)] register slot ↔
          Assigns tiny.entries register slot) ∧
      Layout.ofDescription (description { tiny with
        entries := [("a", ⟨12, 8⟩), ("pc", ⟨4, 4⟩), ("a", ⟨8, 8⟩), ("sp", ⟨0, 4⟩)] }) =
          .ok layout := by
  have hsame : ∀ register (slot : Slot),
      Assigns [("a", ⟨12, 8⟩), ("pc", ⟨4, 4⟩), ("a", ⟨8, 8⟩), ("sp", ⟨0, 4⟩)] register slot ↔
        Assigns tiny.entries register slot := by
    have htable : NameMap.ofList
        [("a", (⟨12, 8⟩ : Slot)), ("pc", ⟨4, 4⟩), ("a", ⟨8, 8⟩), ("sp", ⟨0, 4⟩)] =
          NameMap.ofList tiny.entries := by
      decide
    intro register slot
    rw [← NameMap.get?_ofList_eq_some_iff, htable, NameMap.get?_ofList_eq_some_iff]
  obtain ⟨layout, hlayout⟩ := (ofDescription_exact tiny).1.mpr accepts_tiny
  refine ⟨layout, hlayout, (ofDescription_exact tiny).2.1 layout hlayout, hsame, ?_⟩
  rw [(ofDescription_exact tiny).2.2.2 _ hsame, hlayout]

end LayoutListing

end TaintFlow
