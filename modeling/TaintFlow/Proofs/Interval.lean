import TaintFlow.Address.Interval

/-!
# The addresses of an interval

Bounds are 64-bit words, but an argument about which addresses an interval
holds never wants the wrap-around that comes with them. So an interval is read
here as a set of natural numbers, and every operation on intervals is described
by the numbers that belong to its result. Words are left behind once, in the
lemmas of the first section; from there on the arithmetic is linear.

`outside` is the one new operation: what remains of an interval when a query
is cut out of it. It is stated without a case distinction on how the two lie
to each other, and `trimmed_eq_outside` shows that the two tests a collection
makes on an overlapping interval produce just these parts.
-/

namespace TaintFlow

/-! ## Words as numbers -/

theorem toNat_max (a b : UInt64) : (max a b).toNat = max a.toNat b.toNat := by
  show (if a ≤ b then b else a).toNat = _
  split
  · next h => rw [UInt64.le_iff_toNat_le] at h; omega
  · next h => rw [UInt64.le_iff_toNat_le] at h; omega

theorem toNat_min (a b : UInt64) : (min a b).toNat = min a.toNat b.toNat := by
  show (if a ≤ b then a else b).toNat = _
  split
  · next h => rw [UInt64.le_iff_toNat_le] at h; omega
  · next h => rw [UInt64.le_iff_toNat_le] at h; omega

/-- An offset that stays below the last address is added without wrap-around. -/
theorem toNat_add_ofNat {address : UInt64} {k : Nat}
    (h : address.toNat + k < UInt64.size) :
    (address + UInt64.ofNat k).toNat = address.toNat + k := by
  rw [UInt64.toNat_add, UInt64.toNat_ofNat']
  simp only [UInt64.size] at h
  omega

namespace Interval

instance : Membership Nat Interval :=
  ⟨fun a x => a.start.toNat ≤ x ∧ x < a.stop.toNat⟩

theorem mem_iff {a : Interval} {x : Nat} :
    x ∈ a ↔ a.start.toNat ≤ x ∧ x < a.stop.toNat := Iff.rfl

instance (a : Interval) (x : Nat) : Decidable (x ∈ a) :=
  inferInstanceAs (Decidable (a.start.toNat ≤ x ∧ x < a.stop.toNat))

theorem toNat_start_lt (a : Interval) : a.start.toNat < a.stop.toNat :=
  UInt64.lt_iff_toNat_lt.mp a.start_lt_stop

/-- Bounds of all addresses of an interval are bounds of its ends. -/
theorem bounds_of_forall_mem {a : Interval} {low high : Nat}
    (h : ∀ x ∈ a, low ≤ x ∧ x < high) : low ≤ a.start.toNat ∧ a.stop.toNat ≤ high := by
  have hlt := a.toNat_start_lt
  have hfirst := h a.start.toNat ⟨Nat.le_refl _, hlt⟩
  have hlast := h (a.stop.toNat - 1) (by rw [mem_iff]; omega)
  omega

theorem contains_iff {a : Interval} {point : UInt64} :
    a.contains point = true ↔ point.toNat ∈ a := by
  rw [contains, Bool.and_eq_true, decide_eq_true_iff, decide_eq_true_iff, mem_iff,
    UInt64.le_iff_toNat_le, UInt64.lt_iff_toNat_lt]

theorem overlaps_iff {a b : Interval} :
    a.overlaps b = true ↔
      a.start.toNat < b.stop.toNat ∧ b.start.toNat < a.stop.toNat := by
  rw [overlaps, Bool.and_eq_true, decide_eq_true_iff, decide_eq_true_iff,
    UInt64.lt_iff_toNat_lt, UInt64.lt_iff_toNat_lt]

theorem overlaps_iff_exists_mem {a b : Interval} :
    a.overlaps b = true ↔ ∃ x, x ∈ a ∧ x ∈ b := by
  have ha := a.toNat_start_lt
  have hb := b.toNat_start_lt
  rw [overlaps_iff]
  constructor
  · intro h
    refine ⟨max a.start.toNat b.start.toNat, ?_⟩
    rw [mem_iff, mem_iff]
    omega
  · rintro ⟨x, hxa, hxb⟩
    rw [mem_iff] at hxa hxb
    omega

/-! ## Building intervals -/

/-- The interval between two bounds, if an address lies between them. -/
def between? (start stop : UInt64) : Option Interval :=
  if h : start < stop then some ⟨start, stop, h⟩ else none

theorem between?_of_lt {start stop : UInt64} (h : start < stop) :
    between? start stop = some ⟨start, stop, h⟩ := dif_pos h

theorem between?_of_not_lt {start stop : UInt64} (h : ¬ start < stop) :
    between? start stop = none := dif_neg h

theorem between?_bounds (a : Interval) : between? a.start a.stop = some a :=
  between?_of_lt a.start_lt_stop

theorem exists_mem_between? {start stop : UInt64} {x : Nat} :
    (∃ p ∈ (between? start stop).toList, x ∈ p) ↔
      start.toNat ≤ x ∧ x < stop.toNat := by
  by_cases h : start < stop
  · rw [between?_of_lt h]
    simp [mem_iff]
  · rw [between?_of_not_lt h]
    rw [UInt64.lt_iff_toNat_lt] at h
    simp
    omega

theorem ofBounds_of_lt {start stop : UInt64} (h : start < stop) :
    ofBounds start stop = .ok ⟨start, stop, h⟩ := dif_pos h

theorem ofSize_of_not_fits {address : UInt64} {size : Nat}
    (h : ¬ address.toNat + size < UInt64.size) :
    ofSize address size = .error (.addressOverflow address size) := by
  have hlt : address.toNat < UInt64.size := address.toNat_lt
  have hpos : size ≠ 0 := by
    intro h0
    subst h0
    exact h hlt
  rw [ofSize, dif_neg hpos, dif_neg h]

theorem exists_ofSize {address : UInt64} {size : Nat} (hpos : size ≠ 0)
    (hfits : address.toNat + size < UInt64.size) :
    ∃ range : Interval, ofSize address size = .ok (some range) ∧
      range.start = address ∧ range.stop.toNat = address.toNat + size := by
  refine ⟨⟨address, address + UInt64.ofNat size, lt_add_of_fits hpos hfits⟩, ?_, rfl,
    toNat_add_ofNat hfits⟩
  rw [ofSize, dif_neg hpos, dif_pos hfits]

theorem bounds_of_ofSize {address : UInt64} {size : Nat} {range : Interval}
    (h : ofSize address size = .ok (some range)) :
    range.start = address ∧ range.stop.toNat = address.toNat + size := by
  by_cases hfits : address.toNat + size < UInt64.size
  · by_cases hpos : size = 0
    · subst hpos
      cases h
    · obtain ⟨found, hfound, hbounds⟩ := exists_ofSize hpos hfits
      rw [hfound] at h
      cases h
      exact hbounds
  · rw [ofSize_of_not_fits hfits] at h
    cases h

/-! ## Sharing and cutting -/

theorem intersect_eq_none_iff {a b : Interval} :
    a.intersect b = none ↔ ¬ a.overlaps b = true := by
  have ha := a.toNat_start_lt
  have hb := b.toNat_start_lt
  rw [overlaps_iff, intersect]
  split
  · next h =>
      rw [UInt64.lt_iff_toNat_lt, toNat_max, toNat_min] at h
      simp
      omega
  · next h =>
      rw [UInt64.lt_iff_toNat_lt, toNat_max, toNat_min] at h
      simp
      omega

theorem mem_of_intersect {a b c : Interval} (h : a.intersect b = some c) {x : Nat} :
    x ∈ c ↔ x ∈ a ∧ x ∈ b := by
  rw [intersect] at h
  split at h
  · injection h with h
    subst h
    rw [mem_iff, mem_iff, mem_iff]
    simp only [toNat_max, toNat_min]
    omega
  · cases h

/-- What an interval has before and after a query; all of it, where the two do
not meet. -/
def outside (a query : Interval) : List Interval :=
  (between? a.start (min a.stop query.start)).toList ++
    (between? (max a.start query.stop) a.stop).toList

theorem exists_mem_outside {a query : Interval} {x : Nat} :
    (∃ p ∈ a.outside query, x ∈ p) ↔ x ∈ a ∧ x ∉ query := by
  have hq := query.toNat_start_lt
  simp only [outside, List.mem_append, or_and_right, exists_or]
  rw [exists_mem_between?, exists_mem_between?, toNat_min, toNat_max, mem_iff, mem_iff]
  omega

theorem outside_of_not_overlaps {a query : Interval}
    (h : ¬ a.overlaps query = true) : a.outside query = [a] := by
  have ha := a.toNat_start_lt
  have hq := query.toNat_start_lt
  rw [overlaps_iff] at h
  rw [outside]
  by_cases hbefore : a.stop.toNat ≤ query.start.toNat
  · have hmin : min a.stop query.start = a.stop := by
      rw [← UInt64.toNat_inj, toNat_min]
      omega
    have hafter : ¬ max a.start query.stop < a.stop := by
      rw [UInt64.lt_iff_toNat_lt, toNat_max]
      omega
    rw [hmin, between?_bounds, between?_of_not_lt hafter]
    rfl
  · have hmax : max a.start query.stop = a.start := by
      rw [← UInt64.toNat_inj, toNat_max]
      omega
    have hfirst : ¬ a.start < min a.stop query.start := by
      rw [UInt64.lt_iff_toNat_lt, toNat_min]
      omega
    rw [hmax, between?_bounds, between?_of_not_lt hfirst]
    rfl

/-- Where the two overlap, the parts are told by one comparison at each end. -/
theorem trimmed_eq_outside {a query : Interval} (h : a.overlaps query = true) :
    a.outside query =
      (between? a.start query.start).toList ++ (between? query.stop a.stop).toList := by
  have ha := a.toNat_start_lt
  rw [overlaps_iff] at h
  have hmin : min a.stop query.start = query.start := by
    rw [← UInt64.toNat_inj, toNat_min]
    omega
  have hmax : max a.start query.stop = query.stop := by
    rw [← UInt64.toNat_inj, toNat_max]
    omega
  rw [outside, hmin, hmax]

end Interval

end TaintFlow
