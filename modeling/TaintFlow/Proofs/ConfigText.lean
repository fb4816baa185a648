import TaintFlow.Proofs.Records
import TaintFlow.Replay.Document

/-!
# Configurations are read back

A configuration is recovered like a trace, part by part, but for the targets of its
seeds. The kind of a target is one of its members, so the other members are taken in
before anything is known of them, and a number among them has to be within the range of a
float whatever it turns out to be. The words of a target are: as a significand of 64 bits
every one of them fits, and rounding at most doubles it (`Number.isFinite_ofInt`). So a
target is plain, its kind is split off (`tagged?_record`), and what is left is a record.
-/

namespace TaintFlow.Json

/-! ## Words are finite -/

theorem le_foldl_decimal (digits : List Char) (n : Nat) :
    n ≤ digits.foldl (fun n digit => 10 * n + (digit.toNat - '0'.toNat)) n := by
  induction digits generalizing n with
  | nil => exact Nat.le_refl n
  | cons digit digits ih =>
      have := ih (10 * n + (digit.toNat - '0'.toNat))
      rw [List.foldl_cons]
      omega

theorem Number.appendDigits_of_lt {n : Nat} (digits : List Char)
    (h : digits.foldl (fun n digit => 10 * n + (digit.toNat - '0'.toNat)) n < UInt64.size) :
    appendDigits n digits =
      (digits.foldl (fun n digit => 10 * n + (digit.toNat - '0'.toNat)) n, 0) := by
  induction digits generalizing n with
  | nil => rfl
  | cons digit digits ih =>
      rw [List.foldl_cons] at h
      have hnext := le_foldl_decimal digits (10 * n + (digit.toNat - '0'.toNat))
      rw [appendDigits, if_pos (by omega), ih h, List.foldl_cons]

theorem Number.scaled_ofInt {n : Nat} (h : n < UInt64.size) : (ofInt n).scaled = (n, 0) := by
  have hdecimal := decimal_toDigits n
  rw [decimal] at hdecimal
  have hdigits : appendDigits 0 (Nat.toDigits 10 n) = (_, 0) :=
    appendDigits_of_lt _ (by rw [hdecimal]; exact h)
  rw [hdecimal] at hdigits
  simp [scaled, ofInt, hdigits, appendDigits]

/-- A bit of the significand that is rounded away is worth no more than the number. -/
theorem Number.round53_le {n : Nat} (hn : n ≠ 0) : round53 n ≤ 2 * n := by
  have hunit : 1 <<< (n.log2 - 52) ≤ n := by
    rw [Nat.one_shiftLeft]
    exact Nat.le_trans (Nat.pow_le_pow_right Nat.two_pos (Nat.sub_le _ _)) (Nat.log2_self_le hn)
  have hquotient := Nat.div_mul_le_self n (1 <<< (n.log2 - 52))
  have hup : (n / (1 <<< (n.log2 - 52)) + 1) * (1 <<< (n.log2 - 52)) ≤ 2 * n := by
    rw [Nat.add_one_mul]
    omega
  simp only [round53]
  split
  · exact hup
  · omega

theorem Number.isFinite_ofInt {n : Nat} (h : n < UInt64.size) :
    (ofInt n).isFinite = true := by
  rw [isFinite, scaled_ofInt h]
  by_cases hn : n = 0
  · subst hn
    rfl
  · have hround := round53_le hn
    have hroom : 2 * UInt64.size < (1 <<< 1024) - (1 <<< 970) := by decide
    have hpower : round53 (Nat.pow 10 0) = 1 := by decide
    split
    · rfl
    · rfl
    · next heq =>
      cases heq
      rw [hpower]
      exact decide_eq_true ⟨by decide, by omega⟩

/-! ## Tagged records -/

namespace Value

theorem isPlain_text (levels : Nat) (s : String) : (text s).isPlain levels = true := by
  cases levels <;> rfl

theorem isPlain_uint64 (levels : Nat) (n : UInt64) : (uint64ToJson n).isPlain levels = true := by
  have hfinite := Number.isFinite_ofInt n.toNat_lt_size
  cases levels <;> exact hfinite

theorem areMembersPlain_map_iff {levels : Nat} {fields : List (String × Value)} :
    areMembersPlain levels (fields.map fun (name, value) => (some name, value)) = true ↔
      ∀ field ∈ fields, field.2.isPlain levels = true := by
  induction fields with
  | nil => cases levels <;> simp [areMembersPlain]
  | cons field fields ih =>
      rw [List.map_cons, areMembersPlain, List.forall_mem_cons, ← ih, Option.isSome_some,
        Bool.true_and, Bool.and_eq_true]

/-- The kind of a record is split off, wherever it stands among plain fields. -/
theorem tagged?_record {levels : Nat} {tag kind : String} {fields rest : List (String × Value)}
    (hkind : fields.filter (·.1 == tag) = [(tag, text kind)])
    (hrest : fields.filter (·.1 != tag) = rest)
    (hplain : ∀ field ∈ rest, field.2.isPlain levels = true) :
    (record fields).tagged? levels tag = some (kind, record rest) := by
  have htag : (fields.map fun (name, value) => ((some name : Text), value)).filter
      (·.1 == some tag) = [(some tag, text kind)] := by
    rw [List.filter_map]
    exact congrArg (List.map _) hkind
  have hothers : (fields.map fun (name, value) => ((some name : Text), value)).filter
      (·.1 != some tag) = rest.map fun (name, value) => (some name, value) := by
    rw [List.filter_map]
    exact congrArg (List.map _) hrest
  rw [record, tagged?, htag, hothers]
  exact if_pos (areMembersPlain_map_iff.mpr hplain)

/-- A record with a kind has it once, beside plain fields. -/
theorem of_tagged?_record {levels : Nat} {tag kind : String} {given : List (String × Value)}
    {rest : Value} (h : (record given).tagged? levels tag = some (kind, rest)) :
    given.filter (·.1 == tag) = [(tag, text kind)] ∧
      rest = record (given.filter (·.1 != tag)) ∧
      ∀ field ∈ given.filter (·.1 != tag), field.2.isPlain levels = true := by
  have htag : (given.map fun (name, value) => ((some name : Text), value)).filter
      (·.1 == some tag) =
        (given.filter (·.1 == tag)).map fun (name, value) => (some name, value) :=
    List.filter_map
  have hothers : (given.map fun (name, value) => ((some name : Text), value)).filter
      (·.1 != some tag) =
        (given.filter (·.1 != tag)).map fun (name, value) => (some name, value) :=
    List.filter_map
  rw [record, tagged?, htag, hothers] at h
  split at h
  · next key found heq =>
    obtain ⟨⟨name, value⟩, hfilter, hfield⟩ := List.map_eq_singleton_iff.mp heq
    have hname := (List.mem_filter.mp (hfilter ▸ List.mem_singleton_self _)).2
    cases hfield
    obtain rfl : name = tag := beq_iff_eq.mp hname
    dsimp only at h
    split at h
    · next hplain =>
      cases h
      exact ⟨hfilter, rfl, areMembersPlain_map_iff.mp hplain⟩
    · cases h
  · cases h

end Value

theorem recovers_bool : Recovers Value.bool Value.bool? where
  integral value := .bool value
  decode_encode _ := rfl

end TaintFlow.Json

namespace TaintFlow

open Json

/-! ## Configurations -/

theorem Architecture.recovers : Recovers toJson ofJson? where
  integral
    | .amd64 => .string _
  decode_encode
    | .amd64 => rfl

theorem PushSlot.recovers : Recovers toJson ofJson? where
  integral
    | .atStackPointer => .string _
    | .belowStackPointer => .string _
  decode_encode
    | .atStackPointer => rfl
    | .belowStackPointer => rfl

theorem PropagationOptions.recovers : Recovers toJson ofJson? where
  integral options := by
    refine .record ?_
    rw [List.forall_mem_cons, List.forall_mem_singleton]
    exact ⟨PushSlot.recovers.integral options.pushSlot, .bool options.overwriteOnStore⟩
  decode_encode options := by
    rw [toJson, ofJson?, Value.fields?_record_bind]
    · simp [PushSlot.recovers.decode_encode, recovers_bool.decode_encode]
    · show ["push_slot", "overwrite_on_store"].Nodup
      decide

theorem SeedTarget.recovers : Recovers toJson ofJson? where
  integral
    | .register name => by
        refine .record ?_
        rw [List.forall_mem_cons, List.forall_mem_singleton]
        exact ⟨recovers_text.integral "register", recovers_text.integral name⟩
    | .memory address size => by
        refine .record ?_
        rw [List.forall_mem_cons, List.forall_mem_cons, List.forall_mem_singleton]
        exact ⟨recovers_text.integral "memory", recovers_uint64.integral address,
          recovers_uint64.integral size⟩
    | .pointedMemory holder size => by
        refine .record ?_
        rw [List.forall_mem_cons, List.forall_mem_cons, List.forall_mem_singleton]
        exact ⟨recovers_text.integral "pointed_memory", recovers_text.integral holder,
          recovers_uint64.integral size⟩
  decode_encode target := by
    have htext := Value.isPlain_text nestingLimit
    have hword := Value.isPlain_uint64 nestingLimit
    cases target with
    | register name =>
        have htagged : (register name).toJson.tagged? nestingLimit "kind" =
            some ("register", .record [("name", .text name)]) :=
          Value.tagged?_record rfl rfl (by simp [htext])
        rw [ofJson?, htagged, Option.bind_eq_bind, Option.bind_some]
        simp only []
        rw [Value.fields?_record_bind]
        · simp [recovers_text.decode_encode]
        · show ["name"].Nodup
          decide
    | memory address size =>
        have htagged : (memory address size).toJson.tagged? nestingLimit "kind" =
            some ("memory", .record
              [("address", uint64ToJson address), ("size", uint64ToJson size)]) :=
          Value.tagged?_record rfl rfl (by simp [hword])
        rw [ofJson?, htagged, Option.bind_eq_bind, Option.bind_some]
        simp only []
        rw [Value.fields?_record_bind]
        · simp [recovers_uint64.decode_encode]
        · show ["address", "size"].Nodup
          decide
    | pointedMemory holder size =>
        have htagged : (pointedMemory holder size).toJson.tagged? nestingLimit "kind" =
            some ("pointed_memory", .record
              [("register", .text holder), ("size", uint64ToJson size)]) :=
          Value.tagged?_record rfl rfl (by simp [htext, hword])
        rw [ofJson?, htagged, Option.bind_eq_bind, Option.bind_some]
        simp only []
        rw [Value.fields?_record_bind]
        · simp [recovers_text.decode_encode, recovers_uint64.decode_encode]
        · show ["register", "size"].Nodup
          decide

theorem Seed.recovers : Recovers toJson ofJson? where
  integral seed := by
    have hat := recovers_uint64.option nofun
    refine .record ?_
    rw [List.forall_mem_cons, List.forall_mem_singleton]
    exact ⟨hat.integral seed.at?, SeedTarget.recovers.integral seed.target⟩
  decode_encode seed := by
    have hat := recovers_uint64.option nofun
    rw [toJson, ofJson?, Value.fields?_record_bind]
    · simp [hat.decode_encode, SeedTarget.recovers.decode_encode]
    · show ["at", "target"].Nodup
      decide

namespace ReplayConfig

theorem recovers : Recovers toJson ofJson? where
  integral config := by
    have haddress := recovers_uint64.option nofun
    refine .record ?_
    rw [List.forall_mem_cons, List.forall_mem_cons, List.forall_mem_cons, List.forall_mem_cons,
      List.forall_mem_singleton]
    exact ⟨Architecture.recovers.integral config.architecture, haddress.integral config.start?,
      haddress.integral config.stop?, Seed.recovers.list.integral config.seeds,
      PropagationOptions.recovers.integral config.options⟩
  decode_encode config := by
    have haddress := recovers_uint64.option nofun
    rw [toJson, ofJson?, Value.fields?_record_bind]
    · simp [Architecture.recovers.decode_encode, haddress.decode_encode,
        Seed.recovers.list.decode_encode, PropagationOptions.recovers.decode_encode]
    · show ["architecture", "start_address", "stop_address", "seeds", "engine"].Nodup
      decide

/-- The text of any configuration is read back as that configuration. -/
theorem ofText_render_config (config : ReplayConfig) : ofText config.render = .ok config := by
  have hparse : parse? config.render = some config := recovers.parse_render .compact config
  rw [ofText, hparse]

end ReplayConfig

end TaintFlow
