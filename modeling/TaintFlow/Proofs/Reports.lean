import TaintFlow.Proofs.Merged
import TaintFlow.Proofs.ReplayBytes
import TaintFlow.Replay.Report

/-!
# What a report is made of

A report reads a session in two ways: register by register through the flags, and
memory through the merged view. Neither sees how the session holds its taint, so the
report is a function of which bytes and which addresses are tainted. A replay hands
over a sound session whose view is the byte state that the replay on bytes ends in,
together with counts that follow from the trace alone.
-/

namespace TaintFlow

open ByteState

variable {L : Layout}

theorem RegisterTaint.tainted_congr {t u : RegisterTaint L} (h : t.flags.test = u.flags.test) :
    t.tainted = u.tainted := by
  refine List.filterMap_congr ?_
  intro entry hentry
  have hfits := (L.wellFormed.slots_fit entry hentry).2
  simp only [t.read_of_le entry.2 hfits, u.read_of_le entry.2 hfits, patternAt, h]

/-- Sessions that taint the same bytes and the same addresses have the same report. -/
theorem Report.ofSession_eq {s u : Session L} (hs : s.Sound) (hu : u.Sound)
    (hbytes : s.view.bytes = u.view.bytes)
    (hcovered : ∀ x, Covered s.view.ranges x ↔ Covered u.view.ranges x) :
    Report.ofSession s = Report.ofSession u := by
  have hregisters : s.state.registers.tainted = u.state.registers.tainted :=
    RegisterTaint.tainted_congr hbytes
  have hmemory : s.taintedMemory = u.taintedMemory := IntervalSet.Sound.merged_eq hs hu hcovered
  rw [ofSession, ofSession, hregisters, hmemory]

/-- A report is refused with the replay on bytes, or made of a session that shows its
end. -/
theorem Trace.report_cases (trace : Trace) (config : ReplayConfig) :
    (∃ e, trace.replayBytes config = .error e ∧ trace.report config = .error e) ∨
      ∃ session : Session config.architecture.layout, session.Sound ∧
        trace.replayBytes config = .ok session.view ∧
        trace.report config =
          .ok { Report.ofSession session with stats := trace.finalStats config } := by
  have hshows := Event.shows_foldlM_perform (L := config.architecture.layout) config.options
    (trace.schedule config)
  rw [← replayBytes] at hshows
  rcases trace.replay_cases config with
    ⟨e, hfold, hreplay⟩ | ⟨replay, hfold, hreplay, hstats⟩
  · rw [hfold] at hshows
    refine .inl ⟨e, hshows, ?_⟩
    rw [report, hreplay]
    rfl
  · rw [hfold] at hshows
    refine .inr ⟨replay.session, hshows.1.1, hshows.2, ?_⟩
    rw [report, hreplay, ← hstats]
    rfl

end TaintFlow
