import Mathlib.Data.Set.Card
import Mathlib.Order.Interval.Finset.Nat
import TaintFlow.Proofs.Atomicity
import TaintFlow.Proofs.Coverage
import TaintFlow.Proofs.Merged
import TaintFlow.Replay.Report

/-!
# The total of a report

A report adds up the sizes of the merged intervals in 64-bit words. The intervals are
separated, so no address is counted twice, and they hold all covered addresses, so none is
missed: the sum is the number of covered addresses.

This number bounds the sum from the other side too. The end of an interval is exclusive,
hence the last address lies in none, and fewer addresses are covered than there are words.
So no sum on the way leaves a word, whereas the sizes of the stored intervals, which may
overlap and repeat, can add up to any number.
-/

namespace TaintFlow

open ByteState

namespace IntervalSet

/-! ## Addresses of a list -/

/-- The addresses that intervals hold. -/
def addresses : List Interval → Finset Nat
  | [] => ∅
  | x :: xs => Finset.Ico x.start.toNat x.stop.toNat ∪ addresses xs

@[simp]
theorem mem_addresses {xs : List Interval} {n : Nat} : n ∈ addresses xs ↔ ∃ x ∈ xs, n ∈ x := by
  induction xs with
  | nil => simp [addresses]
  | cons x xs ih => simp [addresses, ih, Interval.mem_iff]

/-- The last address of the space is in no interval. -/
theorem card_addresses_le (xs : List Interval) : (addresses xs).card ≤ UInt64.size - 1 := by
  have hsub : addresses xs ⊆ Finset.range (UInt64.size - 1) := by
    intro n hn
    obtain ⟨x, -, hnx⟩ := mem_addresses.mp hn
    have hstop : x.stop.toNat < UInt64.size := x.stop.toNat_lt
    have hlt := hnx.2
    rw [Finset.mem_range]
    omega
  have hcard := Finset.card_le_card hsub
  rw [Finset.card_range] at hcard
  exact hcard

/-- The addresses that intervals hold, as words. -/
theorem ncard_addresses (xs : List Interval) :
    {a : UInt64 | ∃ x ∈ xs, a.toNat ∈ x}.ncard = (addresses xs).card := by
  have himage : UInt64.toNat '' {a : UInt64 | ∃ x ∈ xs, a.toNat ∈ x} = ↑(addresses xs) := by
    ext n
    simp only [Set.mem_image, Set.mem_ofPred_eq, Finset.mem_coe, mem_addresses]
    constructor
    · rintro ⟨a, ha, rfl⟩
      exact ha
    · rintro ⟨x, hx, hn⟩
      have hword : (UInt64.ofNat n).toNat = n :=
        UInt64.toNat_ofNat_of_lt' (Nat.lt_trans hn.2 x.stop.toNat_lt)
      exact ⟨UInt64.ofNat n, ⟨x, hx, hword.symm ▸ hn⟩, hword⟩
  rw [← Set.ncard_image_of_injective _ fun _ _ => UInt64.toNat_inj.mp, himage,
    Set.ncard_coe_finset]

/-! ## Sums of sizes -/

/-- The sizes of intervals, each counted by itself, as one number. -/
def totalSize (xs : List Interval) : Nat := (xs.map fun x => x.stop.toNat - x.start.toNat).sum

theorem totalSize_cons (x : Interval) (xs : List Interval) :
    totalSize (x :: xs) = x.stop.toNat - x.start.toNat + totalSize xs := by
  simp [totalSize]

/-- The sizes of intervals added to a word, as long as each sum fits into a word. -/
def checkedTotal : UInt64 → List Interval → Option UInt64
  | total, [] => some total
  | total, x :: xs =>
    if total.toNat + x.size.toNat < UInt64.size then checkedTotal (total + x.size) xs else none

/-- Nothing is counted twice where the intervals are apart. -/
theorem Separated.card_addresses {xs : List Interval} (h : Separated xs) :
    (addresses xs).card = totalSize xs := by
  induction xs with
  | nil => rfl
  | cons x xs ih =>
      have hdisjoint : Disjoint (Finset.Ico x.start.toNat x.stop.toNat) (addresses xs) := by
        refine Finset.disjoint_left.mpr fun n hn hrest => ?_
        have hlt := h.stop_lt (mem_addresses.mp hrest)
        have hin := (Finset.mem_Ico.mp hn).2
        omega
      rw [addresses, Finset.card_union_of_disjoint hdisjoint, Nat.card_Ico,
        ih (List.pairwise_cons.mp h).2, totalSize_cons]

theorem Separated.totalSize_le {xs : List Interval} (h : Separated xs) :
    totalSize xs ≤ UInt64.size - 1 := by
  rw [← h.card_addresses]
  exact card_addresses_le xs

/-- Where the whole sum fits into a word, so does every sum on the way, and adding words is
adding numbers. -/
theorem checkedTotal_eq {xs : List Interval} {total : UInt64}
    (hfits : total.toNat + totalSize xs < UInt64.size) :
    checkedTotal total xs = some ((xs.map Interval.size).foldl (· + ·) total) ∧
      ((xs.map Interval.size).foldl (· + ·) total).toNat = total.toNat + totalSize xs := by
  induction xs generalizing total with
  | nil => exact ⟨rfl, rfl⟩
  | cons x xs ih =>
      have hsize := x.toNat_size
      rw [totalSize_cons] at hfits
      have hstep : total.toNat + x.size.toNat < UInt64.size := by omega
      have hadd : (total + x.size).toNat = total.toNat + x.size.toNat := by
        rw [UInt64.toNat_add, Nat.mod_eq_of_lt hstep]
      have hrest : (total + x.size).toNat + totalSize xs < UInt64.size := by omega
      obtain ⟨hchecked, hsum⟩ := ih hrest
      refine ⟨?_, ?_⟩
      · rw [checkedTotal, if_pos hstep, hchecked, List.map_cons, List.foldl_cons]
      · rw [List.map_cons, List.foldl_cons, hsum, hadd, totalSize_cons, hsize, Nat.add_assoc]

theorem Separated.checkedTotal_eq {xs : List Interval} (h : Separated xs) :
    checkedTotal 0 xs = some ((xs.map Interval.size).foldl (· + ·) 0) ∧
      ((xs.map Interval.size).foldl (· + ·) 0).toNat = totalSize xs := by
  have hle := h.totalSize_le
  have hpos : 0 < UInt64.size := by decide
  have hfits : (0 : UInt64).toNat + totalSize xs < UInt64.size := by
    rw [UInt64.toNat_zero]
    omega
  obtain ⟨hchecked, hsum⟩ := IntervalSet.checkedTotal_eq hfits
  exact ⟨hchecked, by rw [hsum, UInt64.toNat_zero, Nat.zero_add]⟩

end IntervalSet

namespace Report

open IntervalSet

variable {L : Layout}

/-- The total of a report is the number of words that lie in some stored interval. No sum
of sizes on the way to it leaves a word, however the stored intervals overlap. -/
theorem memoryBytes_eq_ncard {s : Session L} (hs : s.Reachable) :
    (ofSession s).memoryBytes.toNat = {a : UInt64 | ∃ x ∈ s.view.ranges, a.toNat ∈ x}.ncard ∧
      checkedTotal 0 (ofSession s).memory = some (ofSession s).memoryBytes ∧
      ∀ k, totalSize ((ofSession s).memory.take k) ≤ UInt64.size - 1 ∧
        ((((ofSession s).memory.take k).map Interval.size).foldl (· + ·) 0).toNat =
          totalSize ((ofSession s).memory.take k) := by
  have hseparated : Separated (ofSession s).memory := hs.sound.separated_merged
  have hcovered : ∀ n, (∃ x ∈ (ofSession s).memory, n ∈ x) ↔ ∃ x ∈ s.view.ranges, n ∈ x :=
    fun n => hs.sound.exists_mem_merged
  obtain ⟨hchecked, htotal⟩ := hseparated.checkedTotal_eq
  refine ⟨?_, hchecked, fun k => ?_⟩
  · calc (ofSession s).memoryBytes.toNat
      _ = totalSize (ofSession s).memory := htotal
      _ = (addresses (ofSession s).memory).card := hseparated.card_addresses.symm
      _ = {a : UInt64 | ∃ x ∈ (ofSession s).memory, a.toNat ∈ x}.ncard :=
        (ncard_addresses _).symm
      _ = {a : UInt64 | ∃ x ∈ s.view.ranges, a.toNat ∈ x}.ncard := by simp only [hcovered]
  · have hfirst : Separated ((ofSession s).memory.take k) :=
      hseparated.sublist (List.take_sublist k _)
    exact ⟨hfirst.totalSize_le, hfirst.checkedTotal_eq.2⟩

/-- All addresses but the last, stored twice, and some of them once more. -/
def crowded : Session Layout.amd64 :=
  ((Session.start Layout.amd64 {}).perform (.call (.importRanges
    [⟨0, 0xffffffffffffffff, by decide⟩, ⟨4096, 4104, by decide⟩,
      ⟨0, 0xffffffffffffffff, by decide⟩]))).2

/-- The stored sizes do not fit into a word together, and the total does. -/
theorem memoryBytes_eq_ncard_crowded :
    crowded.Reachable ∧ UInt64.size ≤ totalSize crowded.state.memory.ranges.toList ∧
      (ofSession crowded).memoryBytes = 0xffffffffffffffff ∧
      (ofSession crowded).memoryBytes.toNat =
        {a : UInt64 | ∃ x ∈ crowded.view.ranges, a.toNat ∈ x}.ncard := by
  have hreachable : crowded.Reachable := .perform (.start {}) _
  exact ⟨hreachable, by decide, by decide, (memoryBytes_eq_ncard hreachable).1⟩

end Report

end TaintFlow
