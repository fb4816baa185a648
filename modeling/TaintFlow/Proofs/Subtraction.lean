import TaintFlow.Proofs.Collection
import TaintFlow.Proofs.Distribution

/-!
# What several subtractions leave

Queries are taken out of a collection one after another, and every turn reshapes the tree.
What is left in the end can be said without any of it. A remnant of an interval is a maximal
run of its addresses that no query holds, and after all subtractions an interval is stored as
often as there are stored intervals of which it is a remnant. Only the set of the queries
enters, so their order does not matter, and neither does it matter how often one is taken out.

The step is one query in front of others. What an interval has outside of it are at most two
pieces with the query between them, and a remnant for all the queries is a remnant for the
others of exactly one piece (`countP_isRemnant_outside`). The run is an induction over the
queries.
-/

namespace TaintFlow

open ByteState

namespace Interval

/-- No query holds the address. -/
def spared (queries : List Interval) (n : Nat) : Bool :=
  decide (∀ query ∈ queries, n ∉ query)

/-- A maximal run of the addresses of `a` that no query holds. -/
def IsRemnant (queries : List Interval) (a part : Interval) : Prop :=
  IsRun (spared queries) a.start.toNat a.stop.toNat part.start.toNat part.stop.toNat

instance (queries : List Interval) (a part : Interval) :
    Decidable (IsRemnant queries a part) :=
  inferInstanceAs (Decidable (IsRun (spared queries) a.start.toNat a.stop.toNat
    part.start.toNat part.stop.toNat))

theorem spared_eq_true_iff {queries : List Interval} {n : Nat} :
    spared queries n = true ↔ ∀ query ∈ queries, n ∉ query := decide_eq_true_iff

theorem spared_cons_eq_true_iff {query : Interval} {queries : List Interval} {n : Nat} :
    spared (query :: queries) n = true ↔ n ∉ query ∧ spared queries n = true := by
  rw [spared_eq_true_iff, spared_eq_true_iff, List.forall_mem_cons]

theorem spared_cons_eq_false_iff {query : Interval} {queries : List Interval} {n : Nat} :
    spared (query :: queries) n = false ↔ n ∈ query ∨ spared queries n = false := by
  rw [← Bool.not_eq_true, ← Bool.not_eq_true, spared_cons_eq_true_iff,
    Classical.not_and_iff_not_or_not, Classical.not_not]

theorem spared_congr {queries others : List Interval}
    (h : ∀ query, query ∈ queries ↔ query ∈ others) : spared queries = spared others := by
  funext n
  rw [Bool.eq_iff_iff, spared_eq_true_iff, spared_eq_true_iff]
  simp only [h]

theorem eq_of_toNat_eq {a b : Interval} (hstart : a.start.toNat = b.start.toNat)
    (hstop : a.stop.toNat = b.stop.toNat) : a = b := by
  rw [UInt64.toNat_inj] at hstart hstop
  cases a
  cases b
  cases hstart
  cases hstop
  rfl

/-- An interval that meets no query is left whole. -/
theorem isRemnant_self_iff {queries : List Interval} {a : Interval} :
    IsRemnant queries a a ↔ ∀ query ∈ queries, ¬ a.overlaps query = true := by
  have hlt := a.toNat_start_lt
  constructor
  · intro h query hquery hover
    obtain ⟨n, hna, hn⟩ := overlaps_iff_exists_mem.mp hover
    exact spared_eq_true_iff.mp (h.set n hna.2 hna.1) query hquery hn
  · intro h
    refine ⟨Nat.le_refl _, hlt, Nat.le_refl _, ?_, .inl rfl, .inl rfl⟩
    intro n hstop hstart
    rw [spared_eq_true_iff]
    intro query hquery hn
    exact h query hquery (overlaps_iff_exists_mem.mpr ⟨n, ⟨hstart, hstop⟩, hn⟩)

theorem isRemnant_nil_iff {a part : Interval} : IsRemnant [] a part ↔ part = a := by
  constructor
  · intro h
    have hspared : ∀ n, spared [] n ≠ false := fun _ => Bool.noConfusion
    exact eq_of_toNat_eq (h.left_maximal.resolve_right (hspared _))
      (h.right_maximal.resolve_right (hspared _))
  · rintro rfl
    exact isRemnant_self_iff.mpr nofun

/-! ## One query in front of others -/

theorem mem_between? {start stop : UInt64} {p : Interval} :
    p ∈ (between? start stop).toList ↔ p.start = start ∧ p.stop = stop := by
  by_cases h : start < stop
  · rw [between?_of_lt h, Option.toList_some, List.mem_singleton]
    constructor
    · rintro rfl
      exact ⟨rfl, rfl⟩
    · rintro ⟨rfl, rfl⟩
      rfl
  · rw [between?_of_not_lt h]
    refine ⟨nofun, ?_⟩
    rintro ⟨rfl, rfl⟩
    exact absurd p.start_lt_stop h

/-- A piece outside of a query lies before it or behind it. -/
theorem mem_outside {a query p : Interval} :
    p ∈ a.outside query ↔
      p.start.toNat = a.start.toNat ∧ p.stop.toNat = min a.stop.toNat query.start.toNat ∨
      p.start.toNat = max a.start.toNat query.stop.toNat ∧ p.stop.toNat = a.stop.toNat := by
  rw [outside, List.mem_append, mem_between?, mem_between?, ← toNat_min, ← toNat_max,
    UInt64.toNat_inj, UInt64.toNat_inj, UInt64.toNat_inj, UInt64.toNat_inj]

theorem pairwise_outside (a query : Interval) :
    (a.outside query).Pairwise fun p q => p.stop.toNat < q.start.toNat := by
  have hq := query.toNat_start_lt
  have hsingle : ∀ found : Option Interval,
      found.toList.Pairwise fun p q => p.stop.toNat < q.start.toNat := by
    intro found
    cases found with
    | none => exact .nil
    | some p => exact List.pairwise_singleton _ p
  rw [outside, List.pairwise_append]
  refine ⟨hsingle _, hsingle _, ?_⟩
  intro p hp r hr
  obtain ⟨-, hstop⟩ := mem_between?.mp hp
  obtain ⟨hstart, -⟩ := mem_between?.mp hr
  rw [hstop, hstart, toNat_min, toNat_max]
  omega

theorem IsRemnant.of_outside {query : Interval} {queries : List Interval}
    {a piece part : Interval} (hpiece : piece ∈ a.outside query)
    (h : IsRemnant queries piece part) : IsRemnant (query :: queries) a part := by
  have ha := a.toNat_start_lt
  have hq := query.toNat_start_lt
  have hlow := h.low_le
  have hhigh := h.stop_le
  have hlt := h.first_lt
  rw [mem_outside] at hpiece
  refine ⟨by omega, hlt, by omega, fun n hstop hstart => ?_, ?_, ?_⟩
  · refine spared_cons_eq_true_iff.mpr ⟨?_, h.set n hstop hstart⟩
    rw [mem_iff]
    omega
  · -- where the piece begins behind the query, the address before it is in the query
    rw [spared_cons_eq_false_iff, mem_iff]
    rcases h.left_maximal with hfirst | hclear
    · omega
    · exact .inr (.inr hclear)
  · rw [spared_cons_eq_false_iff, mem_iff]
    rcases h.right_maximal with hstop | hclear
    · omega
    · exact .inr (.inr hclear)

/-- A remnant that reaches from one side of the query to the other would meet it. -/
theorem IsRemnant.exists_outside {query : Interval} {queries : List Interval}
    {a part : Interval} (h : IsRemnant (query :: queries) a part) :
    ∃ piece ∈ a.outside query, IsRemnant queries piece part := by
  have hq := query.toNat_start_lt
  have hlow := h.low_le
  have hhigh := h.stop_le
  have hlt := h.first_lt
  have hset : ∀ n, part.start.toNat ≤ n → n < part.stop.toNat →
      n ∉ query ∧ spared queries n = true := fun n hstart hstop =>
    spared_cons_eq_true_iff.mp (h.set n hstop hstart)
  have hside : part.stop.toNat ≤ query.start.toNat ∨ query.stop.toNat ≤ part.start.toNat := by
    have hmiddle := hset (max part.start.toNat query.start.toNat)
    rw [mem_iff] at hmiddle
    omega
  have hleft := h.left_maximal
  have hright := h.right_maximal
  rw [spared_cons_eq_false_iff, mem_iff] at hleft hright
  rcases hside with hbefore | hbehind
  · have hpiece : a.start < min a.stop query.start := by
      rw [UInt64.lt_iff_toNat_lt, toNat_min]
      omega
    refine ⟨⟨_, _, hpiece⟩, mem_outside.mpr (.inl ⟨rfl, toNat_min _ _⟩), hlow, hlt, ?_,
      fun n hstop hstart => (hset n hstart hstop).2, ?_, ?_⟩
    · rw [toNat_min]
      omega
    · exact hleft.imp_right fun hclear => hclear.resolve_left (by omega)
    · rw [toNat_min]
      rcases hright with hstop | hin | hclear
      · omega
      · omega
      · exact .inr hclear
  · have hpiece : max a.start query.stop < a.stop := by
      rw [UInt64.lt_iff_toNat_lt, toNat_max]
      omega
    refine ⟨⟨_, _, hpiece⟩, mem_outside.mpr (.inr ⟨toNat_max _ _, rfl⟩), ?_, hlt, hhigh,
      fun n hstop hstart => (hset n hstart hstop).2, ?_, ?_⟩
    · rw [toNat_max]
      omega
    · rw [toNat_max]
      rcases hleft with hstart | hin | hclear
      · omega
      · omega
      · exact .inr hclear
    · exact hright.imp_right fun hclear => hclear.resolve_left (by omega)

/-- The pieces lie apart, so no two of them have a remnant in common. -/
theorem pairwise_not_isRemnant (query : Interval) (queries : List Interval)
    (a part : Interval) : (a.outside query).Pairwise fun p q =>
      ¬ (IsRemnant queries p part ∧ IsRemnant queries q part) := by
  refine (pairwise_outside a query).imp ?_
  rintro p q hgap ⟨hp, hq⟩
  have hstop := hp.stop_le
  have hlow := hq.low_le
  have hlt := hp.first_lt
  omega

theorem countP_isRemnant_outside (query : Interval) (queries : List Interval)
    (a part : Interval) :
    (a.outside query).countP (fun piece => IsRemnant queries piece part) =
      if IsRemnant (query :: queries) a part then 1 else 0 := by
  split
  · next h =>
      obtain ⟨piece, hpiece, hpart⟩ := h.exists_outside
      have hapart := pairwise_not_isRemnant query queries a part
      obtain ⟨before, behind, hpieces⟩ := List.append_of_mem hpiece
      rw [hpieces] at hapart ⊢
      obtain ⟨-, hbehind, hbefore⟩ := List.pairwise_append.mp hapart
      have hnone₁ : before.countP (fun p => decide (IsRemnant queries p part)) = 0 :=
        List.countP_eq_zero.mpr fun p hp hremnant =>
          hbefore p hp piece List.mem_cons_self ⟨of_decide_eq_true hremnant, hpart⟩
      have hnone₂ : behind.countP (fun p => decide (IsRemnant queries p part)) = 0 :=
        List.countP_eq_zero.mpr fun p hp hremnant =>
          (List.pairwise_cons.mp hbehind).1 p hp ⟨hpart, of_decide_eq_true hremnant⟩
      rw [List.countP_append, List.countP_cons, hnone₁, hnone₂, if_pos (decide_eq_true hpart)]
  · next h =>
      refine List.countP_eq_zero.mpr fun p hp hremnant => h ?_
      exact (of_decide_eq_true hremnant).of_outside hp

end Interval

namespace IntervalSet

/-- Takes the addresses of each query in turn out of the collection. -/
def subtractAll (s : IntervalSet) (queries : List Interval) : IntervalSet :=
  queries.foldl subtract s

/-! ## All queries -/

theorem countP_isRemnant_bind (query : Interval) (queries : List Interval)
    (stored : Multiset Interval) (part : Interval) :
    (stored.bind fun a => (a.outside query : Multiset Interval)).countP
        (fun piece => Interval.IsRemnant queries piece part) =
      stored.countP fun a => Interval.IsRemnant (query :: queries) a part := by
  induction stored using Multiset.induction_on with
  | empty => rfl
  | cons a stored ih =>
      rw [Multiset.cons_bind, Multiset.countP_add, ih, Multiset.countP_cons, Multiset.coe_countP,
        Interval.countP_isRemnant_outside, Nat.add_comm]

theorem Sound.subtractAll {s : IntervalSet} (h : s.Sound) (queries : List Interval) :
    (s.subtractAll queries).Sound := by
  induction queries generalizing s with
  | nil => exact h
  | cons query queries ih => exact ih (h.subtract query)

/-- An interval is stored as often as there are stored intervals of which it is left. -/
theorem Sound.count_subtractAll {s : IntervalSet} (h : s.Sound) (queries : List Interval)
    (part : Interval) :
    (s.subtractAll queries).stored.count part =
      s.stored.countP fun a => Interval.IsRemnant queries a part := by
  induction queries generalizing s with
  | nil =>
      simp only [Interval.isRemnant_nil_iff]
      rfl
  | cons query queries ih =>
      show ((s.subtract query).subtractAll queries).stored.count part = _
      rw [ih (h.subtract query), h.stored_subtract, countP_isRemnant_bind]

theorem Sound.stored_subtractAll_congr {s : IntervalSet} (h : s.Sound)
    {queries others : List Interval} (hmem : ∀ query, query ∈ queries ↔ query ∈ others) :
    (s.subtractAll queries).stored = (s.subtractAll others).stored := by
  ext part
  rw [h.count_subtractAll, h.count_subtractAll]
  refine Multiset.countP_congr rfl fun a _ => ?_
  rw [Interval.IsRemnant, Interval.IsRemnant, Interval.spared_congr hmem]

theorem Sound.covered_subtractAll {s : IntervalSet} (h : s.Sound) (queries : List Interval)
    {n : Nat} : Covered (s.subtractAll queries).stored n ↔
      Covered s.stored n ∧ ∀ query ∈ queries, n ∉ query := by
  induction queries generalizing s with
  | nil => simp [IntervalSet.subtractAll]
  | cons query queries ih =>
      have hstep : Covered (s.subtract query).stored n ↔ Covered s.stored n ∧ n ∉ query := by
        rw [h.stored_subtract]
        show Covered (cutOut s.stored (some query)) n ↔ _
        rw [covered_cutOut]
        simp
      rw [List.forall_mem_cons, ← and_assoc, ← hstep]
      exact ih (h.subtract query)

/-- What meets no query is stored at least as often as before. -/
theorem Sound.count_le_subtractAll {s : IntervalSet} (h : s.Sound) {queries : List Interval}
    {a : Interval} (ha : ∀ query ∈ queries, ¬ a.overlaps query = true) :
    s.stored.count a ≤ (s.subtractAll queries).stored.count a := by
  have himp : ∀ b, a = b → Interval.IsRemnant queries b a := by
    rintro b rfl
    exact Interval.isRemnant_self_iff.mpr ha
  rw [h.count_subtractAll, Multiset.count, Multiset.countP_eq_card_filter,
    Multiset.countP_eq_card_filter]
  exact Multiset.card_le_card (Multiset.monotone_filter_right _ himp)

/-- A query that was taken out finds nothing, and the collection stays as it is. -/
theorem Sound.subtract_subtractAll {s : IntervalSet} (h : s.Sound) {queries : List Interval}
    {query : Interval} (hquery : query ∈ queries) :
    (s.subtractAll queries).subtract query = s.subtractAll queries := by
  have hnone : (s.subtractAll queries).overlapping query = [] := by
    refine List.eq_nil_iff_forall_not_mem.mpr ?_
    intro x hx
    obtain ⟨hstored, hover⟩ := (h.subtractAll queries).mem_overlapping.mp hx
    obtain ⟨n, hnx, hn⟩ := Interval.overlaps_iff_exists_mem.mp hover
    exact ((h.covered_subtractAll queries).mp ⟨x, hstored, hnx⟩).2 query hquery hn
  rw [IntervalSet.subtract, hnone]
  rfl

/-- After every history, subtractions leave each stored interval's maximal runs of
addresses outside of all queries, each as often as there are stored intervals that it is
left of, and in whatever order the queries are taken. No address of a query stays covered
and no other is lost or gained, an interval that meets no query stays, no empty interval is
stored, and subtracting again changes nothing at all. -/
theorem subtractAll_exact_ofHistory (changes : List Change) (queries : List Interval) :
    (∀ part, ((ofHistory changes).subtractAll queries).stored.count part =
        (ofHistory changes).stored.countP fun a => Interval.IsRemnant queries a part) ∧
      (∀ order : List Interval, order.Perm queries →
        ((ofHistory changes).subtractAll order).stored =
          ((ofHistory changes).subtractAll queries).stored) ∧
      (∀ n, (∃ x ∈ ((ofHistory changes).subtractAll queries).stored, n ∈ x) ↔
        (∃ x ∈ (ofHistory changes).stored, n ∈ x) ∧ ∀ query ∈ queries, n ∉ query) ∧
      (∀ a : Interval, (∀ query ∈ queries, ¬ a.overlaps query = true) →
        (ofHistory changes).stored.count a ≤
          ((ofHistory changes).subtractAll queries).stored.count a) ∧
      (∀ x ∈ ((ofHistory changes).subtractAll queries).toList, x.start < x.stop) ∧
      ∀ query ∈ queries, ((ofHistory changes).subtractAll queries).subtract query =
        (ofHistory changes).subtractAll queries := by
  have h := sound_ofHistory changes
  exact ⟨h.count_subtractAll queries,
    fun order horder => h.stored_subtractAll_congr fun query => horder.mem_iff,
    fun n => h.covered_subtractAll queries, fun a => h.count_le_subtractAll,
    fun x _ => x.start_lt_stop, fun query => h.subtract_subtractAll⟩

/-- Two copies of one interval and another that overlaps them. -/
def doubled : List Change :=
  [.add ⟨8, 48, by decide⟩, .add ⟨20, 40, by decide⟩, .add ⟨8, 48, by decide⟩]

/-- Two queries that overlap each other. -/
def crossing : List Interval := [⟨16, 26, by decide⟩, ⟨24, 32, by decide⟩]

/-- Both copies are cut, and the other order of the queries leaves the same. -/
theorem subtractAll_exact_ofHistory_crossing :
    crossing.reverse.Perm crossing ∧
      ((ofHistory doubled).subtractAll crossing.reverse).stored =
        ((ofHistory doubled).subtractAll crossing).stored ∧
      ((ofHistory doubled).subtractAll crossing).stored.count ⟨32, 48, by decide⟩ = 2 := by
  have hperm : crossing.reverse.Perm crossing := crossing.reverse_perm
  exact ⟨hperm, (subtractAll_exact_ofHistory doubled crossing).2.1 _ hperm, by decide⟩

end IntervalSet

end TaintFlow
