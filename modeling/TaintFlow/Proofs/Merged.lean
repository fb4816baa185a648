import TaintFlow.Proofs.Collection
import TaintFlow.Proofs.Distribution

/-!
# The merged view is canonical

`merged` walks the stored intervals in ascending order of starts and lets one
interval grow as long as the next one touches it. The result covers what the
collection covers, and its intervals are separated: each ends before the next one
begins, and not merely where it begins.

Separation is what makes the view canonical. Of two separated lists with the same
addresses the first intervals begin at the same place, because that is the least
address, and end at the same place, because the address after it is in neither.
So `merged` tells which addresses are covered, and it tells nothing else: not how
often, not in which pieces, not in which order they came.
-/

namespace TaintFlow

open ByteState

namespace IntervalSet

/-- Every interval ends before the next one begins. -/
def Separated (xs : List Interval) : Prop := xs.Pairwise fun a b => a.stop < b.start

/-! ## Merging -/

theorem mem_extend {current x : Interval} (hstart : current.start ≤ x.start)
    (htouch : x.start ≤ current.stop) {n : Nat} :
    n ∈ current.extend x.stop ↔ n ∈ current ∨ n ∈ x := by
  have hx := x.toNat_start_lt
  rw [UInt64.le_iff_toNat_le] at hstart htouch
  rw [Interval.mem_iff, Interval.mem_iff, Interval.mem_iff]
  simp only [Interval.extend, toNat_max]
  omega

/-- The starts of what is merged do not fall below the first one. -/
theorem start_le_of_mem_mergeFrom (current : Interval) {xs : List Interval}
    (h : ∀ x ∈ xs, current.start ≤ x.start) (hxs : xs.Pairwise fun a b => a.start ≤ b.start) :
    ∀ p ∈ mergeFrom current xs, current.start ≤ p.start := by
  induction xs generalizing current with
  | nil =>
      intro p hp
      simp only [mergeFrom, List.mem_singleton] at hp
      rw [hp]
      exact UInt64.le_refl _
  | cons x xs ih =>
      obtain ⟨hx, hxs⟩ := List.pairwise_cons.mp hxs
      have hfirst := h x List.mem_cons_self
      simp only [mergeFrom]
      split
      · exact ih (current.extend x.stop)
          (fun z hz => h z (List.mem_cons_of_mem _ hz)) hxs
      · intro p hp
        rcases List.mem_cons.mp hp with rfl | hp
        · exact UInt64.le_refl _
        · exact UInt64.le_trans hfirst (ih x hx hxs p hp)

theorem separated_mergeFrom (current : Interval) {xs : List Interval}
    (h : ∀ x ∈ xs, current.start ≤ x.start) (hxs : xs.Pairwise fun a b => a.start ≤ b.start) :
    Separated (mergeFrom current xs) := by
  induction xs generalizing current with
  | nil => simp [mergeFrom, Separated]
  | cons x xs ih =>
      obtain ⟨hx, hxs⟩ := List.pairwise_cons.mp hxs
      simp only [mergeFrom]
      split
      · exact ih (current.extend x.stop)
          (fun z hz => h z (List.mem_cons_of_mem _ hz)) hxs
      · next hgap =>
          refine List.pairwise_cons.mpr ⟨?_, ih x hx hxs⟩
          intro p hp
          exact UInt64.lt_of_lt_of_le (UInt64.not_le.mp hgap)
            (start_le_of_mem_mergeFrom x hx hxs p hp)

theorem exists_mem_mergeFrom (current : Interval) {xs : List Interval}
    (h : ∀ x ∈ xs, current.start ≤ x.start) (hxs : xs.Pairwise fun a b => a.start ≤ b.start)
    {n : Nat} :
    (∃ p ∈ mergeFrom current xs, n ∈ p) ↔ n ∈ current ∨ ∃ x ∈ xs, n ∈ x := by
  induction xs generalizing current with
  | nil => simp [mergeFrom]
  | cons x xs ih =>
      obtain ⟨hx, hxs⟩ := List.pairwise_cons.mp hxs
      simp only [mergeFrom]
      split
      · next htouch =>
          rw [ih (current.extend x.stop) (fun z hz => h z (List.mem_cons_of_mem _ hz)) hxs,
            mem_extend (h x List.mem_cons_self) htouch]
          simp [or_assoc]
      · simp [ih x hx hxs]

theorem separated_merge {xs : List Interval} (hxs : xs.Pairwise fun a b => a.start ≤ b.start) :
    Separated (merge xs) := by
  cases xs with
  | nil => exact .nil
  | cons x xs =>
      obtain ⟨hx, hxs⟩ := List.pairwise_cons.mp hxs
      exact separated_mergeFrom x hx hxs

theorem exists_mem_merge {xs : List Interval} (hxs : xs.Pairwise fun a b => a.start ≤ b.start)
    {n : Nat} : (∃ p ∈ merge xs, n ∈ p) ↔ ∃ x ∈ xs, n ∈ x := by
  cases xs with
  | nil => simp [merge]
  | cons x xs =>
      obtain ⟨hx, hxs⟩ := List.pairwise_cons.mp hxs
      rw [merge, exists_mem_mergeFrom x hx hxs]
      simp

/-! ## Separated lists -/

theorem Separated.start_le {x : Interval} {xs : List Interval} (h : Separated (x :: xs))
    {n : Nat} (hn : ∃ a ∈ x :: xs, n ∈ a) : x.start.toNat ≤ n := by
  obtain ⟨a, ha, hna⟩ := hn
  rcases List.mem_cons.mp ha with rfl | ha
  · exact hna.1
  · have hgap := (List.pairwise_cons.mp h).1 a ha
    have hx := x.toNat_start_lt
    rw [UInt64.lt_iff_toNat_lt] at hgap
    have hstart := hna.1
    omega

/-- Behind the first interval there is a gap. -/
theorem Separated.stop_lt {x : Interval} {xs : List Interval} (h : Separated (x :: xs))
    {n : Nat} (hn : ∃ a ∈ xs, n ∈ a) : x.stop.toNat < n := by
  obtain ⟨a, ha, hna⟩ := hn
  have hgap := (List.pairwise_cons.mp h).1 a ha
  rw [UInt64.lt_iff_toNat_lt] at hgap
  have hstart := hna.1
  omega

/-- The first of two separated lists does not reach past the end of the first of the
other, if its addresses are all in the other list. -/
theorem Separated.stop_le {x y : Interval} {ys : List Interval} (hy : Separated (y :: ys))
    (hstart : x.start = y.start) (hsub : ∀ n ∈ x, ∃ b ∈ y :: ys, n ∈ b) :
    x.stop.toNat ≤ y.stop.toNat := by
  refine Nat.le_of_not_lt ?_
  intro hlt
  have hylt := y.toNat_start_lt
  obtain ⟨b, hb, hnb⟩ := hsub y.stop.toNat
    (by rw [Interval.mem_iff, hstart]; omega)
  rcases List.mem_cons.mp hb with rfl | hb
  · exact Nat.lt_irrefl _ hnb.2
  · exact Nat.lt_irrefl _ (hy.stop_lt ⟨b, hb, hnb⟩)

/-- Separated lists that hold the same addresses are the same list. -/
theorem Separated.eq_of_mem_iff {xs ys : List Interval} (hxs : Separated xs)
    (hys : Separated ys) (h : ∀ n, (∃ a ∈ xs, n ∈ a) ↔ ∃ b ∈ ys, n ∈ b) : xs = ys := by
  have hself : ∀ a : Interval, a.start.toNat ∈ a := fun a => ⟨Nat.le_refl _, a.toNat_start_lt⟩
  induction xs generalizing ys with
  | nil =>
      cases ys with
      | nil => rfl
      | cons y ys =>
          have hnone := (h y.start.toNat).mpr ⟨y, List.mem_cons_self, hself y⟩
          simp at hnone
  | cons x xs ih =>
      cases ys with
      | nil =>
          have hnone := (h x.start.toNat).mp ⟨x, List.mem_cons_self, hself x⟩
          simp at hnone
      | cons y ys =>
          have hyx := hys.start_le ((h x.start.toNat).mp ⟨x, List.mem_cons_self, hself x⟩)
          have hxy := hxs.start_le ((h y.start.toNat).mpr ⟨y, List.mem_cons_self, hself y⟩)
          have hstart : x.start = y.start := by
            rw [← UInt64.toNat_inj]
            omega
          have hxstop := hys.stop_le hstart fun n hn => (h n).mp ⟨x, List.mem_cons_self, hn⟩
          have hystop := hxs.stop_le hstart.symm fun n hn =>
            (h n).mpr ⟨y, List.mem_cons_self, hn⟩
          have hstop : x.stop = y.stop := by
            rw [← UInt64.toNat_inj]
            omega
          obtain rfl : x = y := by
            cases x
            cases y
            simp_all
          -- an address of a tail lies behind the common first interval
          have htail : ∀ n, (∃ a ∈ xs, n ∈ a) ↔ ∃ b ∈ ys, n ∈ b := by
            intro n
            have hn := h n
            simp only [List.mem_cons, exists_eq_or_imp] at hn
            by_cases hfirst : n ∈ x
            · have hx := hfirst.2
              constructor
              · intro hex
                have := hxs.stop_lt hex
                omega
              · intro hex
                have := hys.stop_lt hex
                omega
            · simpa [hfirst] using hn
          rw [ih (List.pairwise_cons.mp hxs).2 (List.pairwise_cons.mp hys).2 htail]

/-! ## Collections -/

theorem Sound.separated_merged {s : IntervalSet} (h : s.Sound) : Separated s.merged :=
  separated_merge h.ordered.pairwise

theorem Sound.exists_mem_merged {s : IntervalSet} (h : s.Sound) {n : Nat} :
    (∃ p ∈ s.merged, n ∈ p) ↔ Covered s.stored n := by
  refine (exists_mem_merge h.ordered.pairwise).trans ?_
  simp only [Covered, mem_stored]

/-- Collections that cover the same addresses have the same merged view. -/
theorem Sound.merged_eq {s t : IntervalSet} (hs : s.Sound) (ht : t.Sound)
    (h : ∀ n, Covered s.stored n ↔ Covered t.stored n) : s.merged = t.merged := by
  refine hs.separated_merged.eq_of_mem_iff ht.separated_merged ?_
  intro n
  rw [hs.exists_mem_merged, ht.exists_mem_merged]
  exact h n

/-- It is enough that each interval ends before the very next one begins, since none is
empty. -/
theorem separated_iff_isChain {xs : List Interval} :
    Separated xs ↔ xs.IsChain fun a b => a.stop < b.start := by
  constructor
  · exact List.Pairwise.isChain
  · intro h
    have htrans : Trans (fun a b : Interval => a.stop < b.start)
        (fun b c : Interval => b.stop < c.start) fun a c : Interval => a.stop < c.start :=
      ⟨fun {_ b _} hab hbc => UInt64.lt_trans hab (UInt64.lt_trans b.start_lt_stop hbc)⟩
    exact List.isChain_iff_pairwise.mp h

theorem Sound.merged_eq_iff {s t : IntervalSet} (hs : s.Sound) (ht : t.Sound) :
    s.merged = t.merged ↔ ∀ n, Covered s.stored n ↔ Covered t.stored n := by
  constructor
  · intro heq n
    rw [← hs.exists_mem_merged, ← ht.exists_mem_merged, heq]
  · exact hs.merged_eq ht

/-- Adding what covers the same addresses, or fewer, does not change the merged view. -/
theorem Sound.merged_addAll {s t : IntervalSet} (hs : s.Sound) (ht : t.Sound)
    (h : ∀ n, Covered s.stored n → Covered t.stored n) :
    (s.addAll t.merged).merged = t.merged := by
  refine (hs.addAll t.merged).merged_eq ht ?_
  intro n
  have hmerged : Covered (t.merged : Multiset Interval) n ↔ Covered t.stored n :=
    ht.exists_mem_merged
  rw [hs.stored_addAll, covered_add, hmerged]
  exact or_iff_right_of_imp (h n)

/-- After every history the merged view is the one list of intervals, each of which ends
before the next one begins, that holds the covered addresses and no others. So it tells
two collections apart exactly when they cover different addresses, and a memory that
takes its ranges in shows it again, whether it was clean before or held what is merged. -/
theorem merged_canonical_ofHistory (changes others : List Change) :
    (∀ r ∈ (ofHistory changes).merged, r.start < r.stop) ∧
      (∀ rs : List Interval, rs = (ofHistory changes).merged ↔
        (rs.IsChain fun a b => a.stop < b.start) ∧
          ∀ n, (∃ r ∈ rs, n ∈ r) ↔ ∃ x ∈ (ofHistory changes).stored, n ∈ x) ∧
      ((ofHistory changes).merged = (ofHistory others).merged ↔
        ∀ n, (∃ x ∈ (ofHistory changes).stored, n ∈ x) ↔
          ∃ x ∈ (ofHistory others).stored, n ∈ x) ∧
      (MemoryTaint.clean.addAll (ofHistory changes).merged).merged =
        (ofHistory changes).merged ∧
      (MemoryTaint.addAll ⟨ofHistory changes⟩ (ofHistory changes).merged).merged =
        (ofHistory changes).merged := by
  have h := sound_ofHistory changes
  refine ⟨fun r _ => r.start_lt_stop, fun rs => ⟨?_, ?_⟩,
    h.merged_eq_iff (sound_ofHistory others), ?_, h.merged_addAll h fun _ hn => hn⟩
  · rintro rfl
    exact ⟨separated_iff_isChain.mp h.separated_merged, fun n => h.exists_mem_merged⟩
  · rintro ⟨hchain, hmem⟩
    refine (separated_iff_isChain.mpr hchain).eq_of_mem_iff h.separated_merged ?_
    intro n
    rw [hmem, h.exists_mem_merged]
    rfl
  · refine sound_empty.merged_addAll h ?_
    rintro n ⟨x, hx, -⟩
    cases hx

end IntervalSet

end TaintFlow
