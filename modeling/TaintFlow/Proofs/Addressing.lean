import Mathlib.Data.Int.ModEq
import TaintFlow.Machine.EffectiveAddress

/-!
# Effective addresses as exact sums

A machine adds up an address in words, and the carry is lost. What it means is a sum of
integers: the value of the base, the displacement with its sign, and the value of the index
times the scale. `Holds` ties the two: a word holds an integer when they agree modulo the
size of the address space, so each integer is held by one word and no other. Additions and
products of words hold the sums and products, and the word of a displacement holds it with
its sign. Hence the order in which a machine adds is nobody's concern.

`MemoryOperand.Denotes` says what an operand denotes without any of this arithmetic. Its
constructors are the ways in which an address can come out, and each of them has what is
looked at before it among its premises: the base first, then the scale, then the index.
-/

namespace TaintFlow

/-! ## Words that hold integers -/

/-- The word is the integer, reduced modulo the size of the address space. -/
def Holds (word : UInt64) (n : Int) : Prop :=
  (word.toNat : Int) ≡ n [ZMOD UInt64.size]

namespace Holds

theorem toNat (word : UInt64) : Holds word word.toNat := Int.ModEq.refl _

theorem displacement (d : Int64) : Holds d.toUInt64 d.toInt := by
  have hsigned : d.toInt = (d.toUInt64.toNat : Int).bmod UInt64.size :=
    BitVec.toInt_eq_toNat_bmod d.toBitVec
  rw [Holds, Int.ModEq, hsigned, Int.bmod_emod]

theorem scale (s : UInt8) : Holds s.toUInt64 s.toNat := by
  rw [Holds, UInt8.toNat_toUInt64]

variable {a b : UInt64} {m n : Int}

theorem add (ha : Holds a m) (hb : Holds b n) : Holds (a + b) (m + n) := by
  have hsum : ((a + b).toNat : Int) ≡ a.toNat + b.toNat [ZMOD UInt64.size] := by
    rw [UInt64.toNat_add, Int.ModEq]
    simp only [UInt64.size]
    omega
  exact hsum.trans (Int.ModEq.add ha hb)

theorem mul (ha : Holds a m) (hb : Holds b n) : Holds (a * b) (m * n) := by
  have hproduct : ((a * b).toNat : Int) ≡ a.toNat * b.toNat [ZMOD UInt64.size] := by
    rw [UInt64.toNat_mul, ← Int.natCast_mul]
    exact Int.natCast_modEq_iff.mpr (Nat.mod_modEq _ _)
  exact hproduct.trans (Int.ModEq.mul ha hb)

/-- An integer is held by no other word. -/
theorem iff_eq (ha : Holds a n) (word : UInt64) : Holds word n ↔ word = a := by
  constructor
  · intro hword
    have hsame : (word.toNat : Int) % UInt64.size = a.toNat % UInt64.size :=
      hword.trans ha.symm
    have hlt := word.toNat_lt
    have hlta := a.toNat_lt
    apply UInt64.toNat_inj.mp
    simp only [UInt64.size] at hsame
    omega
  · intro hword
    rw [hword]
    exact ha

end Holds

/-! ## What an operand denotes -/

namespace MemoryOperand

/-- What looking for the address of an operand comes to. -/
inductive Denotes (operand : MemoryOperand) (context : RegisterContext) :
    Except Error (Option UInt64) → Prop where
  | nothing (hbase : operand.base = none) : Denotes operand context (.ok none)
  | noBaseValue {base : String} (hbase : operand.base = some base)
      (hvalue : context base = none) :
      Denotes operand context (.error (.missingRegisterValue base))
  | plain {base : String} {value address : UInt64} (hbase : operand.base = some base)
      (hvalue : context base = some value) (hindex : operand.index = none)
      (haddress : ∀ word, Holds word (value.toNat + operand.displacement.toInt) ↔
        word = address) :
      Denotes operand context (.ok (some address))
  | badScale {base index : String} {value : UInt64} (hbase : operand.base = some base)
      (hvalue : context base = some value) (hindex : operand.index = some index)
      (hscale : operand.scale ∉ [1, 2, 4, 8]) :
      Denotes operand context (.error (.invalidScale operand.scale))
  | noIndexValue {base index : String} {value : UInt64} (hbase : operand.base = some base)
      (hvalue : context base = some value) (hindex : operand.index = some index)
      (hscale : operand.scale ∈ [1, 2, 4, 8]) (hstep : context index = none) :
      Denotes operand context (.error (.missingRegisterValue index))
  | indexed {base index : String} {value step address : UInt64}
      (hbase : operand.base = some base) (hvalue : context base = some value)
      (hindex : operand.index = some index) (hscale : operand.scale ∈ [1, 2, 4, 8])
      (hstep : context index = some step)
      (haddress : ∀ word, Holds word
        (value.toNat + operand.displacement.toInt + step.toNat * operand.scale.toNat) ↔
          word = address) :
      Denotes operand context (.ok (some address))

/-- The words that are added up for an address. -/
def terms (operand : MemoryOperand) (context : RegisterContext) : List UInt64 :=
  (operand.base.bind context).toList ++ operand.displacement.toUInt64 ::
    (operand.index.bind context).toList.map (· * operand.scale.toUInt64)

variable {operand : MemoryOperand} {context : RegisterContext}

theorem validScale_iff : operand.validScale = true ↔ operand.scale ∈ [1, 2, 4, 8] := by
  simp [validScale, or_assoc]

/-- Every operand denotes something, under every context. -/
theorem exists_denotes (operand : MemoryOperand) (context : RegisterContext) :
    ∃ result, operand.Denotes context result := by
  cases hbase : operand.base with
  | none => exact ⟨_, .nothing hbase⟩
  | some base =>
      cases hvalue : context base with
      | none => exact ⟨_, .noBaseValue hbase hvalue⟩
      | some value =>
          have hsum := (Holds.toNat value).add (.displacement operand.displacement)
          cases hindex : operand.index with
          | none => exact ⟨_, .plain hbase hvalue hindex hsum.iff_eq⟩
          | some index =>
              by_cases hscale : operand.scale ∈ [1, 2, 4, 8]
              · cases hstep : context index with
                | none => exact ⟨_, .noIndexValue hbase hvalue hindex hscale hstep⟩
                | some step =>
                    have hproduct := (Holds.toNat step).mul (.scale operand.scale)
                    exact ⟨_, .indexed hbase hvalue hindex hscale hstep
                      (hsum.add hproduct).iff_eq⟩
              · exact ⟨_, .badScale hbase hvalue hindex hscale⟩

/-- What an operand denotes is what is looked up. -/
theorem Denotes.effectiveAddress_eq {result : Except Error (Option UInt64)}
    (h : operand.Denotes context result) : operand.effectiveAddress context = result := by
  cases h with
  | nothing hbase => simp only [effectiveAddress, hbase]
  | noBaseValue hbase hvalue =>
      simp only [effectiveAddress, RegisterContext.read, hbase, hvalue]
      rfl
  | @plain base value address hbase hvalue hindex haddress =>
      have hsum := (Holds.toNat value).add (.displacement operand.displacement)
      simp only [effectiveAddress, indexOffset, RegisterContext.read, hbase, hvalue, hindex]
      show Except.ok (some (value + operand.displacement.toUInt64 + 0)) = .ok (some address)
      rw [UInt64.add_zero, (haddress _).mp hsum]
  | badScale hbase hvalue hindex hscale =>
      have hrefused : ¬ operand.validScale = true := fun h => hscale (validScale_iff.mp h)
      simp only [effectiveAddress, indexOffset, RegisterContext.read, hbase, hvalue, hindex,
        if_neg hrefused]
      rfl
  | noIndexValue hbase hvalue hindex hscale hstep =>
      simp only [effectiveAddress, indexOffset, RegisterContext.read, hbase, hvalue, hindex,
        if_pos (validScale_iff.mpr hscale), hstep]
      rfl
  | @indexed base index value step address hbase hvalue hindex hscale hstep haddress =>
      have hsum := (Holds.toNat value).add (.displacement operand.displacement)
      have hproduct := (Holds.toNat step).mul (.scale operand.scale)
      simp only [effectiveAddress, indexOffset, RegisterContext.read, hbase, hvalue, hindex,
        if_pos (validScale_iff.mpr hscale), hstep]
      show Except.ok (some (value + operand.displacement.toUInt64 +
        step * operand.scale.toUInt64)) = .ok (some address)
      rw [(haddress _).mp (hsum.add hproduct)]

/-- An address is the sum of its terms, in whatever order they are added up. -/
theorem Denotes.foldl_eq {address : UInt64}
    (h : operand.Denotes context (.ok (some address))) {summands : List UInt64}
    (hperm : summands.Perm (operand.terms context)) : summands.foldl (· + ·) 0 = address := by
  have hswap : ∀ x ∈ summands, ∀ y ∈ summands, ∀ z : UInt64, z + x + y = z + y + x := by
    intro x _ y _ z
    rw [UInt64.add_assoc, UInt64.add_comm x y, UInt64.add_assoc]
  rw [hperm.foldl_eq' hswap]
  cases h with
  | @plain base value _ hbase hvalue hindex haddress =>
      have hsum := (Holds.toNat value).add (.displacement operand.displacement)
      rw [← (haddress _).mp hsum]
      simp [terms, hbase, hvalue, hindex]
  | @indexed base index value step _ hbase hvalue hindex hscale hstep haddress =>
      have hsum := (Holds.toNat value).add (.displacement operand.displacement)
      have hproduct := (Holds.toNat step).mul (.scale operand.scale)
      rw [← (haddress _).mp (hsum.add hproduct)]
      simp [terms, hbase, hvalue, hindex, hstep]

/-- An operand denotes nothing that is tracked if and only if it has no base. With a base,
looking for its address fails or finds the one word that holds the exact sum, whose terms
can be added up in any order. The scale of an index that is not there is not looked at. -/
theorem effectiveAddress_eq_iff (operand : MemoryOperand) (context : RegisterContext) :
    (∀ result, operand.effectiveAddress context = result ↔
        operand.Denotes context result) ∧
      (operand.effectiveAddress context = .ok none ↔ operand.base = none) ∧
      (∀ address, operand.effectiveAddress context = .ok (some address) →
        ∀ summands : List UInt64, summands.Perm (operand.terms context) →
          summands.foldl (· + ·) 0 = address) ∧
      (operand.index = none → ∀ scale,
        effectiveAddress { operand with scale } context = operand.effectiveAddress context) := by
  have hiff : ∀ result, operand.effectiveAddress context = result ↔
      operand.Denotes context result := by
    intro result
    constructor
    · intro h
      obtain ⟨denoted, hdenoted⟩ := operand.exists_denotes context
      rwa [← h, hdenoted.effectiveAddress_eq]
    · exact Denotes.effectiveAddress_eq
  refine ⟨hiff, ?_, ?_, ?_⟩
  · rw [hiff]
    constructor
    · intro h
      cases h with
      | nothing hbase => exact hbase
    · exact .nothing
  · intro address h summands hperm
    exact ((hiff _).mp h).foldl_eq hperm
  · intro hindex scale
    simp only [effectiveAddress, indexOffset, hindex]

/-- The operand `[rax + rcx * 8 - 24]`. -/
def tableEntry : MemoryOperand where
  base := some "rax"
  index := some "rcx"
  scale := 8
  displacement := -24

/-- The base lies below the displacement, and the scaled index leaves the address space; the
terms are added up with the displacement first. An operand without an index keeps its
address under a scale that no index could have. -/
theorem effectiveAddress_eq_iff_wrapped :
    tableEntry.effectiveAddress (fun name => if name = "rax" then some 16 else some (-1)) =
        .ok (some (-16)) ∧
      [tableEntry.displacement.toUInt64, 16, (-1) * 8].Perm
        (tableEntry.terms fun name => if name = "rax" then some 16 else some (-1)) ∧
      [tableEntry.displacement.toUInt64, 16, (-1) * 8].foldl (· + ·) 0 = -16 ∧
      effectiveAddress { base := some "rax", scale := 3 } (fun _ => some 16) =
        effectiveAddress { base := some "rax" } (fun _ => some 16) := by
  have haddress : tableEntry.effectiveAddress
      (fun name => if name = "rax" then some 16 else some (-1)) = .ok (some (-16)) := by
    decide
  have hperm : [tableEntry.displacement.toUInt64, 16, (-1) * 8].Perm
      (tableEntry.terms fun name => if name = "rax" then some 16 else some (-1)) := by
    decide
  exact ⟨haddress, hperm, (effectiveAddress_eq_iff tableEntry _).2.2.1 _ haddress _ hperm,
    (effectiveAddress_eq_iff { base := some "rax" } _).2.2.2 rfl 3⟩

end MemoryOperand

end TaintFlow
