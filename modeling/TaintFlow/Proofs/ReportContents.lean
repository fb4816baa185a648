import Mathlib.Data.Finset.Card
import TaintFlow.Proofs.Bitmaps
import TaintFlow.Proofs.Faults
import TaintFlow.Proofs.Reports

/-!
# A report accounts for all taint

A report lists names and bitmaps, and names may share bytes or leave gaps. Nothing is lost
by that: taint is only ever set inside registers (`Inside`), and a register with a tainted
byte is listed, so every tainted byte is shown by some bitmap, and a bitmap shows no other.

The sharpest form of this is `restore`. It starts with a clean register file and puts every
bitmap over the bytes of its register. A byte that several bitmaps show is written several
times, with the same flag each time. What results is the register file of the session, and
since it is made from the report alone, sessions with equal reports have equal registers.
-/

namespace TaintFlow

open ByteState

variable {L : Layout}

theorem Layout.mem_registers {register : String} {slot : Slot} :
    (register, slot) ∈ L.registers.entries ↔ L.slot register = .ok slot := by
  constructor
  · intro h
    rw [LayoutDescription.slot, NameMap.get?_of_mem h]
  · intro h
    exact NameMap.mem_of_get? (Layout.slot_eq_ok h)

namespace RegisterTaint

/-! ## What is listed -/

theorem any_patternAt (t : RegisterTaint L) (slot : Slot) :
    (t.patternAt slot).any id = true ↔
      ∃ x, slot.offset ≤ x ∧ x < slot.stop ∧ t.flags.test x = true := by
  simp [patternAt, Slot.stop, List.mem_range'_1, and_assoc]

theorem mem_tainted {t : RegisterTaint L} {register : String} {pattern : List Bool} :
    (register, pattern) ∈ t.tainted ↔ ∃ slot, L.slot register = .ok slot ∧
      pattern = t.patternAt slot ∧ (t.patternAt slot).any id = true := by
  rw [tainted, List.mem_filterMap]
  constructor
  · rintro ⟨⟨name, slot⟩, hentry, h⟩
    have hslot := Layout.mem_registers.mp hentry
    simp only [t.read_slot hslot] at h
    split at h
    · next hany =>
        cases h
        exact ⟨slot, hslot, rfl, hany⟩
    · cases h
  · rintro ⟨slot, hslot, rfl, hany⟩
    refine ⟨(register, slot), Layout.mem_registers.mpr hslot, ?_⟩
    simp only [t.read_slot hslot, hany, if_true]

theorem map_fst_tainted_sublist (t : RegisterTaint L) :
    (t.tainted.map Prod.fst).Sublist (L.registers.entries.map Prod.fst) := by
  rw [tainted]
  induction L.registers.entries with
  | nil => exact .slnil
  | cons entry entries ih =>
      obtain ⟨register, slot⟩ := entry
      simp only [List.filterMap_cons, List.map_cons]
      cases t.read slot with
      | error e => exact ih.cons register
      | ok pattern =>
          simp only
          cases pattern.any id with
          | false => exact ih.cons register
          | true => exact ih.cons_cons register

theorem pairwise_tainted (t : RegisterTaint L) :
    (t.tainted.map Prod.fst).Pairwise (· < ·) :=
  (List.pairwise_map.mpr L.registers.ascending).sublist t.map_fst_tainted_sublist

/-! ## Placing bitmaps -/

/-- A bitmap read back and put over the bytes of its register. -/
def place (entry : String × String) : Mutation (RegisterTaint L) Unit :=
  load entry.1 (BitSet.ofList ((Report.flags? entry.2).getD []))

/-- Puts every bitmap over the bytes of its register. -/
def restore (bitmaps : List (String × String)) : Mutation (RegisterTaint L) Unit :=
  bitmaps.forM place

theorem exists_place (t u : RegisterTaint L) {register : String} {slot : Slot}
    (hslot : L.slot register = .ok slot) :
    ∃ after, (place (register, Report.bitmapText (t.patternAt slot))).run u = (.ok (), after) ∧
      ∀ x, after.flags.test x =
        if slot.offset ≤ x ∧ x < slot.stop then t.flags.test x else u.flags.test x := by
  obtain ⟨flags, hflags, hle, hshown⟩ := Report.exists_flags_bitmapText (t.patternAt slot)
  rw [length_patternAt] at hle hshown
  obtain ⟨after, hload, hbytes⟩ := u.load_eq_ok hslot (BitSet.ofList flags) (by omega)
  refine ⟨after, by rw [place, hflags]; exact hload, ?_⟩
  intro x
  rw [hbytes, setBytes]
  refine if_ctx_congr Iff.rfl (fun hin => ?_) fun _ => rfl
  rw [Slot.stop] at hin
  rw [BitSet.test_ofList, hshown _ (by omega), t.getD_patternAt slot (by omega),
    Nat.add_sub_cancel' hin.1]

/-- Where the file agrees already or a bitmap is placed, it agrees in the end. The second
case absorbs the first, since a bitmap that is placed shows what is there. -/
theorem exists_restore (t : RegisterTaint L) (entries : List (String × List Bool))
    (hentries : ∀ entry ∈ entries, entry ∈ t.tainted) (u : RegisterTaint L) :
    ∃ after, (restore (entries.map fun entry => (entry.1, Report.bitmapText entry.2))).run u =
        (.ok (), after) ∧
      ∀ x, u.flags.test x = t.flags.test x ∨
          (∃ entry ∈ entries, ∃ slot, L.slot entry.1 = .ok slot ∧ slot.offset ≤ x ∧
            x < slot.stop) →
        after.flags.test x = t.flags.test x := by
  induction entries generalizing u with
  | nil => exact ⟨u, rfl, fun x h => by simpa using h⟩
  | cons entry entries ih =>
      obtain ⟨register, pattern⟩ := entry
      obtain ⟨slot, hslot, rfl, -⟩ := mem_tainted.mp (hentries _ List.mem_cons_self)
      obtain ⟨placed, hplace, hplaced⟩ := t.exists_place u hslot
      obtain ⟨after, hrest, hagrees⟩ :=
        ih (fun entry h => hentries entry (List.mem_cons_of_mem _ h)) placed
      refine ⟨after, ?_, ?_⟩
      · show Mutation.run (place _ >>= fun _ => restore _) u = _
        rw [Mutation.run_bind, hplace]
        exact hrest
      · intro x hx
        refine hagrees x ?_
        rw [hplaced]
        by_cases hin : slot.offset ≤ x ∧ x < slot.stop
        · exact .inl (if_pos hin)
        · rw [if_neg hin]
          refine hx.imp id ?_
          rintro ⟨entry, hentry, other, hother, hx⟩
          rcases List.mem_cons.mp hentry with rfl | hentry
          · rw [hslot] at hother
            cases hother
            exact absurd hx hin
          · exact ⟨entry, hentry, other, hother, hx⟩

/-- A register file without taint outside of registers is restored from its bitmaps. -/
theorem Inside.restore_tainted {t : RegisterTaint L} (h : t.Inside) :
    (restore (t.tainted.map fun entry => (entry.1, Report.bitmapText entry.2))).run .clean =
      (.ok (), t) := by
  obtain ⟨after, hrestore, hagrees⟩ :=
    t.exists_restore t.tainted (fun _ h => h) (.clean : RegisterTaint L)
  have hflags : after.flags = t.flags := by
    refine BitSet.eq_of_test_eq (funext fun x => hagrees x ?_)
    cases hset : t.flags.test x with
    | false => exact .inl (BitSet.test_empty x)
    | true =>
        obtain ⟨register, slot, hslot, hle, hlt⟩ := h x hset
        have hany := (t.any_patternAt slot).mpr ⟨x, hle, hlt, hset⟩
        exact .inr ⟨_, mem_tainted.mpr ⟨slot, hslot, rfl, hany⟩, slot, hslot, hle, hlt⟩
  rw [hrestore]
  exact congrArg (Prod.mk _) (congrArg RegisterTaint.mk hflags)

end RegisterTaint

/-! ## Reports -/

namespace Report

/-- The registers that are listed, each with the text of its pattern. -/
def bitmaps (report : Report) : List (String × String) :=
  report.registers.map fun entry => (entry.1, bitmapText entry.2)

/-- Some bitmap that is listed shows this byte of the context as tainted. -/
def Shows (L : Layout) (report : Report) (x : Nat) : Prop :=
  ∃ register text slot bytes, (register, text) ∈ report.bitmaps ∧
    L.slot register = .ok slot ∧ Hex.toBytes? text = some bytes ∧
      slot.offset ≤ x ∧ x < slot.stop ∧ bitAt bytes (x - slot.offset) = true

/-- What a report tells about the taint of a session. -/
structure AccountsFor (report : Report) (s : Session L) : Prop where
  ascending : (report.bitmaps.map Prod.fst).Pairwise (· < ·)
  /-- The registers with a tainted byte are listed, and no others. -/
  listed : ∀ register, (∃ text, (register, text) ∈ report.bitmaps) ↔
    ∃ slot i, L.slot register = .ok slot ∧ i < slot.width ∧
      s.view.bytes (slot.offset + i) = true
  /-- As many bytes as the width needs, with clear bits past it. -/
  bitmap : ∀ register text, (register, text) ∈ report.bitmaps →
    ∃ slot bytes, L.slot register = .ok slot ∧ Hex.toBytes? text = some bytes ∧
      bytes.length = (slot.width + 7) / 8 ∧
        (∀ i < slot.width, bitAt bytes i = s.view.bytes (slot.offset + i)) ∧
          ∀ i, slot.width ≤ i → bitAt bytes i = false
  shown : ∀ x, s.view.bytes x = true ↔ report.Shows L x
  lt_contextSize : ∀ x, s.view.bytes x = true → x < L.contextSize
  restored : (RegisterTaint.restore report.bitmaps).run .clean = (.ok (), s.state.registers)
  counted : ∃ offsets : Finset Nat, (∀ x, x ∈ offsets ↔ report.Shows L x) ∧
    s.state.registers.count = offsets.card
  covered : ∀ x, (∃ p ∈ report.memory, x ∈ p) ↔ Covered s.view.ranges x

theorem mem_bitmaps_ofSession {s : Session L} {register text : String} :
    (register, text) ∈ (ofSession s).bitmaps ↔ ∃ slot, L.slot register = .ok slot ∧
      text = bitmapText (s.state.registers.patternAt slot) ∧
        (s.state.registers.patternAt slot).any id = true := by
  rw [bitmaps, List.mem_map]
  constructor
  · rintro ⟨⟨name, pattern⟩, hentry, heq⟩
    obtain ⟨rfl, rfl⟩ := Prod.mk.inj heq
    obtain ⟨slot, hslot, rfl, hany⟩ := RegisterTaint.mem_tainted.mp hentry
    exact ⟨slot, hslot, rfl, hany⟩
  · rintro ⟨slot, hslot, rfl, hany⟩
    exact ⟨(register, s.state.registers.patternAt slot),
      RegisterTaint.mem_tainted.mpr ⟨slot, hslot, rfl, hany⟩, rfl⟩

theorem exists_bytes_patternAt (t : RegisterTaint L) (slot : Slot) :
    ∃ bytes, Hex.toBytes? (bitmapText (t.patternAt slot)) = some bytes ∧
      bytes.length = (slot.width + 7) / 8 ∧
        (∀ i < slot.width, bitAt bytes i = t.flags.test (slot.offset + i)) ∧
          ∀ i, slot.width ≤ i → bitAt bytes i = false := by
  obtain ⟨bytes, hbytes, hlength, hbits⟩ := exists_bytes_bitmapText (t.patternAt slot)
  rw [RegisterTaint.length_patternAt] at hlength
  refine ⟨bytes, hbytes, hlength, fun i hi => ?_, fun i hi => ?_⟩
  · rw [hbits, t.getD_patternAt slot hi]
  · rw [hbits, List.getD_eq_getElem?_getD, List.getElem?_eq_none (by simpa using hi),
      Option.getD_none]

theorem shows_ofSession {s : Session L} (hinside : s.state.registers.Inside) {x : Nat} :
    (ofSession s).Shows L x ↔ s.view.bytes x = true := by
  constructor
  · rintro ⟨register, text, slot, bytes, hmem, hslot, hbytes, hle, hlt, hbit⟩
    obtain ⟨found, hfound, rfl, -⟩ := mem_bitmaps_ofSession.mp hmem
    rw [hslot] at hfound
    cases hfound
    obtain ⟨bytes', hbytes', -, hbits, -⟩ := exists_bytes_patternAt s.state.registers slot
    rw [hbytes] at hbytes'
    cases hbytes'
    rw [Slot.stop] at hlt
    rw [hbits _ (by omega), Nat.add_sub_cancel' hle] at hbit
    exact hbit
  · intro hset
    obtain ⟨register, slot, hslot, hle, hlt⟩ := hinside x hset
    have hany := (s.state.registers.any_patternAt slot).mpr ⟨x, hle, hlt, hset⟩
    obtain ⟨bytes, hbytes, -, hbits, -⟩ := exists_bytes_patternAt s.state.registers slot
    refine ⟨register, _, slot, bytes, mem_bitmaps_ofSession.mpr ⟨slot, hslot, rfl, hany⟩,
      hslot, hbytes, hle, hlt, ?_⟩
    rw [Slot.stop] at hlt
    rw [hbits _ (by omega), Nat.add_sub_cancel' hle]
    exact hset

theorem accountsFor_ofSession {s : Session L} (hs : s.Reachable) :
    (ofSession s).AccountsFor s where
  ascending := by
    rw [bitmaps, List.map_map]
    exact s.state.registers.pairwise_tainted
  listed register := by
    constructor
    · rintro ⟨text, hmem⟩
      obtain ⟨slot, hslot, -, hany⟩ := mem_bitmaps_ofSession.mp hmem
      obtain ⟨x, hle, hlt, hset⟩ := (s.state.registers.any_patternAt slot).mp hany
      rw [Slot.stop] at hlt
      refine ⟨slot, x - slot.offset, hslot, by omega, ?_⟩
      rw [Nat.add_sub_cancel' hle]
      exact hset
    · rintro ⟨slot, i, hslot, hi, hset⟩
      have hany := (s.state.registers.any_patternAt slot).mpr
        ⟨slot.offset + i, Nat.le_add_right _ _, by rw [Slot.stop]; omega, hset⟩
      exact ⟨_, mem_bitmaps_ofSession.mpr ⟨slot, hslot, rfl, hany⟩⟩
  bitmap register text hmem := by
    obtain ⟨slot, hslot, rfl, -⟩ := mem_bitmaps_ofSession.mp hmem
    obtain ⟨bytes, h⟩ := exists_bytes_patternAt s.state.registers slot
    exact ⟨slot, bytes, hslot, h⟩
  shown x := (shows_ofSession hs.state.registers.inside).symm
  lt_contextSize x hset := hs.state.registers.inside.lt_contextSize hset
  restored := hs.state.registers.inside.restore_tainted
  counted := by
    refine ⟨(Finset.range L.contextSize).filter (s.state.registers.flags.test · = true), ?_, ?_⟩
    · intro x
      rw [shows_ofSession hs.state.registers.inside, Finset.mem_filter, Finset.mem_range]
      exact ⟨And.right, fun h => ⟨hs.state.registers.inside.lt_contextSize h, h⟩⟩
    · rw [hs.state.registers.count_eq, List.countP_eq_length_filter]
      simp [Finset.card, Multiset.range]
  covered x := IntervalSet.Sound.exists_mem_merged hs.sound

/-- The report of a session accounts for all of its taint. So sessions of one layout have
equal reports, also when the patterns are compared as texts, just if their register files
are equal and the same addresses are tainted. -/
theorem ofSession_complete {s u : Session L} (hs : s.Reachable) (hu : u.Reachable) :
    (ofSession s).AccountsFor s ∧
      (ofSession s = ofSession u ↔ s.state.registers = u.state.registers ∧
        ∀ x, Covered s.view.ranges x ↔ Covered u.view.ranges x) ∧
      ((ofSession s).bitmaps = (ofSession u).bitmaps ∧
          (ofSession s).memory = (ofSession u).memory ↔ ofSession s = ofSession u) := by
  have hsreport := accountsFor_ofSession hs
  have hureport := accountsFor_ofSession hu
  have hsame : (ofSession s).bitmaps = (ofSession u).bitmaps →
      (ofSession s).memory = (ofSession u).memory →
        s.state.registers = u.state.registers ∧
          ∀ x, Covered s.view.ranges x ↔ Covered u.view.ranges x := by
    intro hbitmaps hmemory
    refine ⟨?_, fun x => ?_⟩
    · have hrestored := hsreport.restored
      rw [hbitmaps, hureport.restored] at hrestored
      exact (Prod.mk.inj hrestored).2.symm
    · rw [← hsreport.covered, ← hureport.covered, hmemory]
  have heq : (s.state.registers = u.state.registers ∧
      ∀ x, Covered s.view.ranges x ↔ Covered u.view.ranges x) → ofSession s = ofSession u := by
    rintro ⟨hregisters, hcovered⟩
    exact ofSession_eq hs.sound hu.sound (by rw [Session.view, TaintState.view, hregisters]; rfl)
      hcovered
  refine ⟨hsreport, ⟨fun h => hsame (by rw [h]) (by rw [h]), heq⟩,
    fun h => heq (hsame h.1 h.2), fun h => ⟨by rw [h], by rw [h]⟩⟩

theorem tainted_of_taintRegister {s : Session L} (hs : s.Sound) {register : String}
    {slot : Slot} (hslot : L.slot register = .ok slot) :
    (s.perform (.call (.taintRegister register))).2.view.bytes slot.offset = true := by
  have h := Session.follows_call hs (.taintRegister register)
  rw [Call.resolve, Move.ofMark, hslot] at h
  obtain ⟨after, hcall, -, -, hview⟩ := h
  have hpos := (Layout.slot_fits hslot).1
  rw [Session.perform, hcall, hview]
  simp [Move.act, setBytes, hpos]

/-- With `ax` tainted the report is not the one of a clean session. -/
theorem ofSession_complete_marked :
    Session.marked.Reachable ∧ (Session.start Layout.amd64 {}).Reachable ∧
      (ofSession Session.marked).AccountsFor Session.marked ∧
      ofSession Session.marked ≠ ofSession (Session.start Layout.amd64 {}) := by
  have hmarked : Session.marked.Reachable := .perform (.start {}) _
  have hstart : (Session.start Layout.amd64 {}).Reachable := .start {}
  obtain ⟨haccounts, hsame, -⟩ := ofSession_complete hmarked hstart
  refine ⟨hmarked, hstart, haccounts, fun heq => ?_⟩
  have hax : Layout.amd64.slot "ax" = .ok ⟨16, 2⟩ := Layout.slot_amd64 (by decide +kernel)
  have hset := tainted_of_taintRegister hstart.sound hax
  have hclean : Session.marked.state.registers = .clean := (hsame.mp heq).1
  rw [← Session.marked, Session.view, TaintState.view, hclean] at hset
  simp [RegisterTaint.clean] at hset

end Report

end TaintFlow
