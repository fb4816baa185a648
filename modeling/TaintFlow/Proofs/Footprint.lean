import TaintFlow.Proofs.Packing
import TaintFlow.Proofs.Registers

/-!
# Where the register file is written

Registers change by requests that name a register, and a request writes a stretch of the
bytes of that register. So a tainted byte always belongs to one (`Reachable.inside`): the
gaps between registers and the spare flags past the context stay clear.

Counting works on whole bytes of the packed set, padding included. The flags there are
none of a register either, hence the count is that of the tainted bytes of the context.
-/

namespace TaintFlow

open ByteState

namespace RegisterTaint

variable {L : Layout}

/-! ## Requests -/

/-- A change that a caller asks for. -/
inductive Request where
  | mark (register : String) (value : Bool)
  | copy (dest src : String)
  | load (register : String) {length : Nat} (bitmap : BitSet length)
  | reset

def request : Request → Mutation (RegisterTaint L) Unit
  | .mark register value => mark register value
  | .copy dest src => copy dest src
  | .load register bitmap => load register bitmap
  | .reset => set (clean : RegisterTaint L)

/-- The register files that requests lead to, refused ones included. -/
inductive Reachable : RegisterTaint L → Prop where
  | clean : Reachable .clean
  | request {t : RegisterTaint L} (h : t.Reachable) (asked : Request) :
      Reachable ((request asked).run t).2

/-- A request is refused and changes nothing, or it starts afresh, or it writes low bytes of
a register. -/
theorem request_cases (t : RegisterTaint L) (asked : Request) :
    (∃ e, (request asked).run t = (.error e, t)) ∨
      ∃ after, (request asked).run t = (.ok (), after) ∧
        (after = .clean ∨ ∃ register slot width value, L.slot register = .ok slot ∧
          width ≤ slot.width ∧
            after.flags.test = setBytes t.flags.test slot.offset width value) := by
  cases asked with
  | mark register value =>
      cases hslot : L.slot register with
      | error e => exact .inl ⟨e, Mutation.run_bind_of_error hslot _ t⟩
      | ok slot =>
          obtain ⟨after, hmark, hbytes⟩ := t.mark_eq_ok hslot value
          exact .inr ⟨after, hmark, .inr ⟨register, slot, _, _, hslot, Nat.le_refl _, hbytes⟩⟩
  | copy dest src =>
      cases hdest : L.slot dest with
      | error e => exact .inl ⟨e, Mutation.run_bind_of_error hdest _ t⟩
      | ok d =>
          cases hsrc : L.slot src with
          | error e => exact .inl ⟨e, t.copy_of_unknown hdest hsrc⟩
          | ok s =>
              obtain ⟨after, hcopy, hbytes⟩ := t.copy_eq_ok hdest hsrc
              exact .inr ⟨after, hcopy, .inr ⟨dest, d, _, _, hdest, Nat.min_le_left _ _, hbytes⟩⟩
  | @load register length bitmap =>
      cases hslot : L.slot register with
      | error e => exact .inl ⟨e, Mutation.run_bind_of_error hslot _ t⟩
      | ok slot =>
          by_cases hlength : length < slot.width
          · exact .inl ⟨_, t.load_of_short hslot bitmap hlength⟩
          · obtain ⟨after, hload, hbytes⟩ := t.load_eq_ok hslot bitmap hlength
            exact .inr ⟨after, hload, .inr ⟨register, slot, _, _, hslot, Nat.le_refl _, hbytes⟩⟩
  | reset => exact .inr ⟨.clean, rfl, .inl rfl⟩

/-! ## Inside registers -/

/-- Every tainted byte belongs to a register. -/
def Inside (t : RegisterTaint L) : Prop :=
  ∀ i, t.flags.test i = true →
    ∃ register slot, L.slot register = .ok slot ∧ slot.offset ≤ i ∧ i < slot.stop

theorem inside_clean : (clean : RegisterTaint L).Inside := by
  intro i hset
  rw [clean, BitSet.test_empty] at hset
  cases hset

theorem Reachable.inside {t : RegisterTaint L} (h : t.Reachable) : t.Inside := by
  induction h with
  | clean => exact inside_clean
  | @request t _ asked ih =>
      rcases t.request_cases asked with ⟨e, hrun⟩ |
        ⟨after, hrun, rfl | ⟨register, slot, width, value, hslot, hle, hbytes⟩⟩
      · rw [hrun]
        exact ih
      · rw [hrun]
        exact inside_clean
      · rw [hrun]
        intro i hset
        rw [hbytes, setBytes] at hset
        split at hset
        · next hin =>
            refine ⟨register, slot, hslot, hin.1, ?_⟩
            rw [Slot.stop]
            omega
        · exact ih i hset

theorem Inside.lt_contextSize {t : RegisterTaint L} (h : t.Inside) {i : Nat}
    (hset : t.flags.test i = true) : i < L.contextSize := by
  obtain ⟨register, slot, hslot, -, hlt⟩ := h i hset
  have hfits := (Layout.slot_fits hslot).2
  rw [Slot.stop] at hlt
  omega

theorem Reachable.count_eq {t : RegisterTaint L} (h : t.Reachable) :
    t.count = (List.range L.contextSize).countP t.flags.test :=
  t.flags.count_eq_of_clear (Nat.le_add_right _ _) fun _ => h.inside.lt_contextSize

end RegisterTaint

end TaintFlow
