import TaintFlow.Proofs.JsonText
import TaintFlow.Trace.Json

/-!
# Records are read back

An encoder and a decoder belong together when what is encoded is decoded to what it was
and has only integers for numbers, so that its text can be read back. This passes from
the parts to the whole: to options, lists, maps and records. The fields of a record are
found by their names, in whatever order they are given.
-/

namespace TaintFlow.NameMap

variable {α : Type}

/-- A name behind all others is put at the end. -/
theorem insertEntry_of_lt {name : String} (value : α) {entries : List (String × α)}
    (h : ∀ e ∈ entries, e.1 < name) :
    insertEntry name value entries = entries ++ [(name, value)] := by
  induction entries with
  | nil => rfl
  | cons first rest ih =>
      have hlt : first.1 < name := h first List.mem_cons_self
      rw [insertEntry, if_neg (String.lt_asymm hlt), if_neg (String.ne_of_lt hlt).symm,
        ih fun e he => h e (List.mem_cons_of_mem _ he)]
      rfl

theorem entries_foldl_insert (bindings : List (String × α)) (map : NameMap α)
    (h : (map.entries ++ bindings).Pairwise fun a b => a.1 < b.1) :
    (bindings.foldl (fun map binding => map.insert binding.1 binding.2) map).entries =
      map.entries ++ bindings := by
  induction bindings generalizing map with
  | nil => exact (List.append_nil _).symm
  | cons first rest ih =>
      have hlast : ∀ e ∈ map.entries, e.1 < first.1 := fun e he =>
        (List.pairwise_append.mp h).2.2 e he first List.mem_cons_self
      have hinsert : (map.insert first.1 first.2).entries = map.entries ++ [first] :=
        insertEntry_of_lt first.2 hlast
      rw [List.foldl_cons, ih, hinsert, List.append_assoc]
      · rfl
      · rw [hinsert, List.append_assoc]
        exact h

/-- A map is the map of its entries. -/
theorem ofList_entries (map : NameMap α) : ofList map.entries = map := by
  obtain ⟨entries, hascending⟩ := map
  have hentries : (ofList entries).entries = entries :=
    entries_foldl_insert entries empty hascending
  cases hmap : ofList entries with
  | mk others _ =>
      rw [hmap] at hentries
      cases hentries
      rfl

end TaintFlow.NameMap

namespace TaintFlow.Json

variable {α : Type}

/-- The decoder recovers what the encoder was given. -/
structure Recovers (encode : α → Value) (decode : Value → Option α) : Prop where
  integral : ∀ a, (encode a).Integral
  decode_encode : ∀ a, decode (encode a) = some a

/-- What is recovered from a value is recovered from its text. -/
theorem Recovers.parse_render {encode : α → Value} {decode : Value → Option α}
    (h : Recovers encode decode) (style : Style) (a : α) :
    (Value.parse? ((encode a).render style)).bind decode = some a := by
  rw [(h.integral a).parse?_render style, Option.bind_some, h.decode_encode]

/-! ## Scalars -/

theorem Value.int?_int {n low high : Int} (h : low ≤ n ∧ n < high) :
    (Value.int n).int? low high = some n := by
  rw [Value.int, Value.int?, Number.toInt?_ofInt]
  exact Option.filter_some_pos (decide_eq_true h)

theorem recovers_text : Recovers Value.text Value.text? where
  integral s := .string (some s)
  decode_encode _ := rfl

theorem recovers_uint64 : Recovers uint64ToJson Value.uint64? where
  integral n := .int n.toNat
  decode_encode n := by
    have hlt : (n.toNat : Int) < UInt64.size := by exact_mod_cast n.toNat_lt_size
    rw [uint64ToJson, Value.uint64?, Value.int?_int ⟨Int.natCast_nonneg _, hlt⟩]
    exact congrArg some UInt64.ofNat_toNat

theorem recovers_uint8 : Recovers (fun n : UInt8 => .int n.toNat) Value.uint8? where
  integral n := .int n.toNat
  decode_encode n := by
    have hlt : (n.toNat : Int) < UInt8.size := by exact_mod_cast n.toNat_lt_size
    rw [Value.uint8?, Value.int?_int ⟨Int.natCast_nonneg _, hlt⟩]
    exact congrArg some UInt8.ofNat_toNat

theorem recovers_int64 : Recovers (fun n : Int64 => .int n.toInt) Value.int64? where
  integral n := .int n.toInt
  decode_encode n := by
    have hle : -0x8000000000000000 ≤ n.toInt := n.le_toInt
    have hlt : n.toInt < 0x8000000000000000 := n.toInt_lt
    rw [Value.int64?, Value.int?_int ⟨hle, hlt⟩]
    exact congrArg some n.ofInt_toInt

/-! ## Options and lists -/

theorem mapM_map_of_inverse {β : Type} {f : β → α} {g : α → Option β}
    (h : ∀ b, g (f b) = some b) (bs : List β) : (bs.map f).mapM g = some bs := by
  have hcomp : g ∘ f = fun b => pure b := funext h
  rw [List.mapM_map, hcomp, List.mapM_pure, List.map_id']
  rfl

section

variable {encode : α → Value} {decode : Value → Option α} (h : Recovers encode decode)

include h

theorem Recovers.option (hnull : ∀ a, encode a ≠ .null) :
    Recovers (optionToJson encode) (Value.option? decode) where
  integral
    | none => .null
    | some a => h.integral a
  decode_encode
    | none => rfl
    | some a => by
        rw [optionToJson, Value.option?.eq_def]
        split
        · next heq => exact absurd heq (hnull a)
        · rw [h.decode_encode]
          rfl

theorem Recovers.list :
    Recovers (fun as => .array (as.map encode)) (Value.list? decode) where
  integral as := by
    refine .array _ ?_
    intro item hitem
    obtain ⟨a, -, rfl⟩ := List.mem_map.mp hitem
    exact h.integral a
  decode_encode as := mapM_map_of_inverse h.decode_encode as

end

/-! ## Maps -/

/-- Members are recovered with their names. -/
theorem mapM_member? {encode : α → Value} {decode : Value → Option α}
    (h : ∀ a, decode (encode a) = some a) (fields : List (String × α)) :
    (fields.map fun field => ((some field.1 : Text), encode field.2)).mapM
      (Value.member? decode) = some fields := by
  refine mapM_map_of_inverse ?_ fields
  intro field
  show (decode (encode field.2)).bind (fun a => some (field.1, a)) = some field
  rw [h]
  rfl

theorem Value.Integral.record {fields : List (String × Value)}
    (h : ∀ field ∈ fields, field.2.Integral) : (Value.record fields).Integral := by
  refine .object _ ?_
  intro member hmember
  obtain ⟨field, hfield, rfl⟩ := List.mem_map.mp hmember
  exact h field hfield

theorem Recovers.map {encode : α → Value} {decode : Value → Option α}
    (h : Recovers encode decode) :
    Recovers
      (fun map : NameMap α => .record (map.entries.map fun (name, a) => (name, encode a)))
      (Value.map? decode) where
  integral map := by
    refine .record ?_
    intro field hfield
    obtain ⟨entry, -, rfl⟩ := List.mem_map.mp hfield
    exact h.integral entry.2
  decode_encode map := by
    rw [Value.record, List.map_map, Value.map?]
    show Option.map NameMap.ofList ((map.entries.map fun field =>
      ((some field.1 : Text), encode field.2)).mapM (Value.member? decode)) = some map
    rw [mapM_member? h.decode_encode, Option.map_some, NameMap.ofList_entries]

/-! ## Records -/

/-- The fields of a record are what they were, when no name is given twice. -/
theorem Value.fields?_record {fields : List (String × Value)}
    (h : (fields.map Prod.fst).Nodup) (names : List String) :
    (Value.record fields).fields? names = some ⟨fields⟩ := by
  have hcount : (names.all fun name => decide (fields.countP (·.1 == name) ≤ 1)) = true := by
    refine List.all_eq_true.mpr ?_
    intro name _
    have hname := List.nodup_iff_count.mp h name
    rw [List.count, List.countP_map] at hname
    exact decide_eq_true hname
  have hmembers : (fields.map fun field => ((some field.1 : Text), field.2)).mapM
      (Value.member? some) = some fields := mapM_member? (fun _ => rfl) fields
  rw [record, fields?]
  show (List.mapM (member? some) (fields.map fun field => ((some field.1 : Text), field.2)) >>= _)
    = _
  rw [hmembers]
  exact if_pos hcount

-- The lemmas from here on are for any decoder: on the decoder of a word, unfolding a bind or
-- a look-up would leave it to the kernel to compute the digits of a number that is not known.

/-- A decoder that asks for the fields of a record gets them. -/
theorem Value.fields?_record_bind {fields : List (String × Value)} {names : List String}
    (h : (fields.map Prod.fst).Nodup) (f : Fields → Option α) :
    ((Value.record fields).fields? names >>= f) = f ⟨fields⟩ := by
  rw [fields?_record h names]
  rfl

namespace Fields

variable {name : String} {value : Value} {rest : List (String × Value)}

@[simp] theorem required_cons (decode : Value → Option α) :
    (Fields.mk ((name, value) :: rest)).required name decode = decode value := by
  rw [required, NameMap.lookup_cons, if_pos rfl, Option.bind_some]

@[simp] theorem required_cons_of_ne {other : String} (h : name ≠ other)
    (decode : Value → Option α) :
    (Fields.mk ((other, value) :: rest)).required name decode =
      (Fields.mk rest).required name decode := by
  rw [required, NameMap.lookup_cons, if_neg h, required]

@[simp] theorem optional_cons (default : α) (decode : Value → Option α) :
    (Fields.mk ((name, value) :: rest)).optional name default decode = decode value := by
  rw [optional, NameMap.lookup_cons, if_pos rfl]

@[simp] theorem optional_cons_of_ne {other : String} (h : name ≠ other) (default : α)
    (decode : Value → Option α) :
    (Fields.mk ((other, value) :: rest)).optional name default decode =
      (Fields.mk rest).optional name default decode := by
  rw [optional, NameMap.lookup_cons, if_neg h, optional]

end Fields

end TaintFlow.Json
