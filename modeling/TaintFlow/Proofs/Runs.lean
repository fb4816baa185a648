import TaintFlow.Taint.Runs

/-!
# The runs of a pattern are its maximal runs

`IsRun` says what a run is without saying how one is found: a stretch of set
flags that cannot be made longer at either end of a window. The scan goes from
the highest offset down, so its induction is on a window that grows downwards.
What it carries is `RunsOf`: every pair that was collected is a run of the
window, every set flag of the window lies in one of them, and they ascend with
at least one clear flag in between. Soundness and coverage together leave no
run out, because two runs that share an offset are the same (`IsRun.unique`).
-/

namespace TaintFlow

/-- `[first, stop)` is a maximal run of set flags in the window `[low, high)`. -/
structure IsRun (flag : Nat → Bool) (low high first stop : Nat) : Prop where
  low_le : low ≤ first
  first_lt : first < stop
  stop_le : stop ≤ high
  set : ∀ i < stop, first ≤ i → flag i = true
  left_maximal : first = low ∨ flag (first - 1) = false
  right_maximal : stop = high ∨ flag stop = false

instance (flag : Nat → Bool) (low high first stop : Nat) :
    Decidable (IsRun flag low high first stop) :=
  decidable_of_iff
    (low ≤ first ∧ first < stop ∧ stop ≤ high ∧ (∀ i < stop, first ≤ i → flag i = true) ∧
      (first = low ∨ flag (first - 1) = false) ∧ (stop = high ∨ flag stop = false))
    ⟨fun ⟨h₁, h₂, h₃, h₄, h₅, h₆⟩ => ⟨h₁, h₂, h₃, h₄, h₅, h₆⟩,
      fun ⟨h₁, h₂, h₃, h₄, h₅, h₆⟩ => ⟨h₁, h₂, h₃, h₄, h₅, h₆⟩⟩

theorem IsRun.first_le {flag : Nat → Bool} {low high f s f' s' : Nat}
    (h : IsRun flag low high f s) (h' : IsRun flag low high f' s') {i : Nat}
    (hi : f ≤ i) (hi' : i < s') : f ≤ f' := by
  refine Nat.le_of_not_lt ?_
  intro hlt
  have hlow := h'.low_le
  rcases h.left_maximal with heq | hclear
  · omega
  · rw [h'.set (f - 1) (by omega) (by omega)] at hclear
    cases hclear

theorem IsRun.le_stop {flag : Nat → Bool} {low high f s f' s' : Nat}
    (h : IsRun flag low high f s) (h' : IsRun flag low high f' s') {i : Nat}
    (hi : i < s) (hi' : f' ≤ i) : s' ≤ s := by
  refine Nat.le_of_not_lt ?_
  intro hlt
  have hhigh := h'.stop_le
  rcases h.right_maximal with heq | hclear
  · omega
  · rw [h'.set s hlt (by omega)] at hclear
    cases hclear

theorem IsRun.unique {flag : Nat → Bool} {low high f s f' s' : Nat}
    (h : IsRun flag low high f s) (h' : IsRun flag low high f' s') {i : Nat}
    (hi : f ≤ i ∧ i < s) (hi' : f' ≤ i ∧ i < s') : f = f' ∧ s = s' := by
  have h₁ := h.first_le h' hi.1 hi'.2
  have h₂ := h'.first_le h hi'.1 hi.2
  have h₃ := h.le_stop h' hi.2 hi'.1
  have h₄ := h'.le_stop h hi'.2 hi.1
  omega

/-- What the scan has collected when it has come down to `low`. -/
structure RunsOf (flag : Nat → Bool) (low high : Nat) (rs : List (Nat × Nat)) : Prop where
  sound : ∀ r ∈ rs, IsRun flag low high r.1 r.2
  covered : ∀ i, low ≤ i → i < high → flag i = true → ∃ r ∈ rs, r.1 ≤ i ∧ i < r.2
  ascending : rs.Pairwise fun a b => a.2 < b.1

theorem RunsOf.mem_iff {flag : Nat → Bool} {low high : Nat} {rs : List (Nat × Nat)}
    (h : RunsOf flag low high rs) {r : Nat × Nat} :
    r ∈ rs ↔ IsRun flag low high r.1 r.2 := by
  refine ⟨h.sound r, ?_⟩
  intro hr
  have hlow := hr.low_le
  have hlt := hr.first_lt
  have hhigh := hr.stop_le
  obtain ⟨q, hq, hin⟩ := h.covered r.1 hlow (by omega) (hr.set r.1 hlt (Nat.le_refl _))
  obtain ⟨hfirst, hstop⟩ := hr.unique (h.sound q hq) ⟨Nat.le_refl _, hlt⟩ hin
  rwa [show r = q from Prod.ext hfirst hstop]

theorem RunsOf.nodup {flag : Nat → Bool} {low high : Nat} {rs : List (Nat × Nat)}
    (h : RunsOf flag low high rs) : rs.Nodup := by
  refine h.ascending.imp_of_mem ?_
  intro a b ha _ hab heq
  subst heq
  have hlt := (h.sound a ha).first_lt
  omega

theorem runsOf_nil (flag : Nat → Bool) (low : Nat) : RunsOf flag low low [] :=
  ⟨by simp, fun i h₁ h₂ => by omega, .nil⟩

/-- A run of a window that does not touch its lower end is one of the window
that is larger by one. -/
theorem IsRun.grow {flag : Nat → Bool} {k high f s : Nat}
    (h : IsRun flag (k + 1) high f s) (hclear : f = k + 1 → flag k = false) :
    IsRun flag k high f s := by
  refine ⟨by have := h.low_le; omega, h.first_lt, h.stop_le, h.set, ?_, h.right_maximal⟩
  rcases h.left_maximal with heq | hf
  · right
    rw [heq, Nat.add_sub_cancel]
    exact hclear heq
  · exact .inr hf

/-! The scan meets a clear flag, a set flag right below the lowest run, or a set
flag with nothing next to it. -/

theorem RunsOf.skip {flag : Nat → Bool} {k high : Nat} {rs : List (Nat × Nat)}
    (h : RunsOf flag (k + 1) high rs) (hflag : flag k = false) : RunsOf flag k high rs := by
  refine ⟨fun r hr => (h.sound r hr).grow fun _ => hflag, fun i hi hlt hset => ?_,
    h.ascending⟩
  rcases Nat.eq_or_lt_of_le hi with rfl | hi
  · rw [hflag] at hset
    cases hset
  · exact h.covered i hi hlt hset

theorem RunsOf.prolong {flag : Nat → Bool} {k high stop : Nat} {above : List (Nat × Nat)}
    (h : RunsOf flag (k + 1) high ((k + 1, stop) :: above)) (hflag : flag k = true) :
    RunsOf flag k high ((k, stop) :: above) := by
  have hhead := h.sound (k + 1, stop) List.mem_cons_self
  have habove := List.pairwise_cons.mp h.ascending
  have hlt : k + 1 < stop := hhead.first_lt
  refine ⟨fun r hr => ?_, fun i hi hhigh hset => ?_,
    List.pairwise_cons.mpr ⟨habove.1, habove.2⟩⟩
  · rcases List.mem_cons.mp hr with rfl | hr
    · refine ⟨Nat.le_refl k, Nat.lt_of_succ_lt hlt, hhead.stop_le, fun i hi hki => ?_,
        .inl rfl, hhead.right_maximal⟩
      rcases Nat.eq_or_lt_of_le hki with rfl | hki
      · exact hflag
      · exact hhead.set i hi hki
    · refine (h.sound r (List.mem_cons_of_mem _ hr)).grow ?_
      intro heq
      have hfar : stop < r.1 := habove.1 r hr
      omega
  · rcases Nat.eq_or_lt_of_le hi with rfl | hi
    · exact ⟨(k, stop), List.mem_cons_self, Nat.le_refl k, Nat.lt_of_succ_lt hlt⟩
    · obtain ⟨q, hq, hin⟩ := h.covered i hi hhigh hset
      rcases List.mem_cons.mp hq with rfl | hq
      · exact ⟨(k, stop), List.mem_cons_self, Nat.le_of_lt hi, hin.2⟩
      · exact ⟨q, List.mem_cons_of_mem _ hq, hin⟩

theorem RunsOf.begin {flag : Nat → Bool} {k high : Nat} {rs : List (Nat × Nat)}
    (h : RunsOf flag (k + 1) high rs) (hk : k < high) (hflag : flag k = true)
    (hapart : ∀ r ∈ rs, k + 1 < r.1) : RunsOf flag k high ((k, k + 1) :: rs) := by
  have hright : k + 1 = high ∨ flag (k + 1) = false := by
    rcases Nat.eq_or_lt_of_le (show k + 1 ≤ high from hk) with heq | hlt
    · exact .inl heq
    · cases hnext : flag (k + 1) with
      | false => exact .inr rfl
      | true =>
          obtain ⟨q, hq, hin⟩ := h.covered (k + 1) (Nat.le_refl _) hlt hnext
          have := hapart q hq
          omega
  refine ⟨fun r hr => ?_, fun i hi hhigh hset => ?_,
    List.pairwise_cons.mpr ⟨hapart, h.ascending⟩⟩
  · rcases List.mem_cons.mp hr with rfl | hr
    · refine ⟨Nat.le_refl k, Nat.lt_succ_self k, hk, ?_, .inl rfl, hright⟩
      intro i hi hki
      rwa [show i = k by simp only at hi; omega]
    · refine (h.sound r hr).grow ?_
      intro heq
      have := hapart r hr
      omega
  · rcases Nat.eq_or_lt_of_le hi with rfl | hi
    · exact ⟨(k, k + 1), List.mem_cons_self, Nat.le_refl k, Nat.lt_succ_self k⟩
    · obtain ⟨q, hq, hin⟩ := h.covered i hi hhigh hset
      exact ⟨q, List.mem_cons_of_mem _ hq, hin⟩

/-- One turn of the scan: the window grows by the offset that was looked at. -/
theorem RunsOf.carryRun {flag : Nat → Bool} {k high : Nat} {rs : List (Nat × Nat)}
    (h : RunsOf flag (k + 1) high rs) (hk : k < high) :
    RunsOf flag k high (carryRun (flag k, k) rs) := by
  cases hflag : flag k with
  | false => exact h.skip hflag
  | true =>
      match rs with
      | [] => exact h.begin hk hflag (by simp)
      | (first, stop) :: above =>
          simp only [TaintFlow.carryRun]
          split
          · next htouch =>
              subst htouch
              exact h.prolong hflag
          · next hgap =>
              have hhead := h.sound (first, stop) List.mem_cons_self
              have hlow : k + 1 ≤ first := hhead.low_le
              have hlt : first < stop := hhead.first_lt
              refine h.begin hk hflag ?_
              intro r hr
              rcases List.mem_cons.mp hr with rfl | hr
              · exact Nat.lt_of_le_of_ne hlow (Ne.symm hgap)
              · have hfar : stop < r.1 := (List.pairwise_cons.mp h.ascending).1 r hr
                omega

theorem runsOf_foldr {flag : Nat → Bool} (pattern : List Bool) {k : Nat}
    (hflag : ∀ i (h : i < pattern.length), flag (k + i) = pattern[i]) :
    RunsOf flag k (k + pattern.length) ((pattern.zipIdx k).foldr carryRun []) := by
  induction pattern generalizing k with
  | nil => exact runsOf_nil flag k
  | cons value rest ih =>
      have hrest := ih (k := k + 1) fun i hi => by
        have := hflag (i + 1) (by simpa using hi)
        rw [show k + 1 + i = k + (i + 1) by omega, this]
        rfl
      rw [List.zipIdx_cons, List.foldr_cons, ← show flag k = value from hflag 0 (by simp)]
      rw [show k + 1 + rest.length = k + (value :: rest).length by
        rw [List.length_cons]; omega] at hrest
      exact hrest.carryRun (by rw [List.length_cons]; omega)

/-- The runs of a pattern are the maximal runs of its flags, ascending. -/
theorem runsOf_runs {flag : Nat → Bool} {pattern : List Bool}
    (hflag : ∀ i (h : i < pattern.length), flag i = pattern[i]) :
    RunsOf flag 0 pattern.length (runs pattern) := by
  have h : RunsOf flag 0 (0 + pattern.length) (runs pattern) := runsOf_foldr pattern fun i hi => by
    rw [Nat.zero_add]
    exact hflag i hi
  rwa [Nat.zero_add] at h

theorem IsRun.exists_of_set {flag : Nat → Bool} {high i : Nat} (hi : i < high)
    (hset : flag i = true) : ∃ f s, IsRun flag 0 high f s ∧ f ≤ i ∧ i < s := by
  have h : RunsOf flag 0 ((List.range high).map flag).length (runs ((List.range high).map flag)) :=
    runsOf_runs fun i hi => by rw [List.getElem_map, List.getElem_range]
  rw [List.length_map, List.length_range] at h
  obtain ⟨r, hr, hin⟩ := h.covered i (Nat.zero_le i) hi hset
  exact ⟨r.1, r.2, h.sound r hr, hin⟩

end TaintFlow
