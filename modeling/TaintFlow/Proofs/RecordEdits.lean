import Mathlib.Data.List.Nodup
import Mathlib.Logic.Relation
import TaintFlow.Proofs.Records

/-!
# Records may be given in other ways

A record is the same whatever the order of its fields is, and a field that has its default
may be left out. A field without a default may not. `RecordEdit` says this of a record as
changes of its value, each of which is harmless or damaging, and so are the changes that are
made inside of a field, at any depth.

A decoder respects some edits if it decodes the same after a harmless one and nothing after
a damaging one. For records this is shown once (`Reads.respects_record`), from a table of their
parts: the name of each, its default, the edits inside of it and how it is decoded. What
carries the proof is that a decoder only looks fields up by name, and refuses a name that is
given twice: under each name there is one value or none, wherever it stands.
-/

namespace TaintFlow.Json

open Relation (ReflTransGen)

variable {α : Type}

/-! ## Looking up in changed records -/

section

variable {name : String} {value : Value} {before after given others : List (String × Value)}

theorem lookup_eq_none_of_countP (h : given.countP (·.1 == name) = 0) :
    given.lookup name = none := by
  rw [List.lookup_eq_none_iff]
  intro entry hentry
  have hne := List.countP_eq_zero.mp h entry hentry
  rw [beq_iff_eq] at hne
  exact bne_iff_ne.mpr (Ne.symm hne)

/-- A name that is given at most once is found where it stands, and nowhere else. -/
theorem lookup_middle (h : (before ++ (name, value) :: after).countP (·.1 == name) ≤ 1)
    (found : Value) :
    (before ++ (name, found) :: after).lookup name = some found ∧
      (before ++ after).lookup name = none := by
  rw [List.countP_append, List.countP_cons, if_pos (beq_self_eq_true name)] at h
  have hbefore : before.lookup name = none := lookup_eq_none_of_countP (by omega)
  have hafter : after.lookup name = none := lookup_eq_none_of_countP (by omega)
  rw [List.lookup_append, List.lookup_append, hbefore, hafter, NameMap.lookup_cons, if_pos rfl]
  exact ⟨rfl, rfl⟩

/-- Other names are looked up past it. -/
theorem lookup_middle_of_ne {other : String} (h : other ≠ name) :
    (before ++ (name, value) :: after).lookup other = (before ++ after).lookup other := by
  rw [List.lookup_append, List.lookup_append, NameMap.lookup_cons, if_neg h]

theorem lookup_of_perm (hperm : given.Perm others) (h : given.countP (·.1 == name) ≤ 1) :
    given.lookup name = others.lookup name := by
  by_cases hnone : given.countP (·.1 == name) = 0
  · rw [lookup_eq_none_of_countP hnone, lookup_eq_none_of_countP (hperm.countP_eq _ ▸ hnone)]
  · obtain ⟨⟨key, value⟩, hmem, hkey⟩ := List.countP_pos_iff.mp (Nat.pos_of_ne_zero hnone)
    obtain rfl : key = name := beq_iff_eq.mp hkey
    obtain ⟨before, after, rfl⟩ := List.append_of_mem hmem
    obtain ⟨before', after', rfl⟩ := List.append_of_mem (hperm.mem_iff.mp hmem)
    rw [(lookup_middle h value).1, (lookup_middle (hperm.countP_eq _ ▸ h) value).1]

end

theorem Fields.mem_of_required {decode : Value → Option α} {name : String}
    {given : List (String × Value)} {a : α}
    (h : (Fields.mk given).required name decode = some a) : name ∈ given.map Prod.fst := by
  obtain ⟨value, hvalue, -⟩ := Option.bind_eq_some_iff.mp h
  have hlookup : given.lookup name = some value := hvalue
  obtain ⟨before, after, rfl, -⟩ := List.lookup_eq_some_iff.mp hlookup
  rw [List.map_append]
  exact List.mem_append_right _ List.mem_cons_self

/-! ## Edits -/

/-- What an edit does to what is decoded. -/
inductive Effect where
  /-- It stays what it was. -/
  | harmless
  /-- Nothing is decoded any more. -/
  | damaging

/-- The edits of a value of some kind, each with its effect. -/
abbrev Edits := Effect → Value → Value → Prop

/-- No edit at all. -/
def Edits.none : Edits := fun _ _ _ => False

/-- A field that a record may have. -/
structure RecordField where
  name : String
  /-- The value for which it may be left out; `none` if it has to be given. -/
  default? : Option Value
  /-- The edits of its value. -/
  inside : Edits

/-- One change of a record: its fields are put into another order, a field with its default
is left out or one that has to be given, or the value of a field is edited. A value is the
default also after harmless edits. -/
inductive RecordEdit (fields : List RecordField) : Edits where
  | reorder {given others : List (String × Value)} (h : given.Perm others) :
      RecordEdit fields .harmless (.record given) (.record others)
  | leaveOut {field : RecordField} {default value : Value} {before after : List (String × Value)}
      (hfield : field ∈ fields) (hdefault : field.default? = some default)
      (hvalue : ReflTransGen (field.inside .harmless) default value) :
      RecordEdit fields .harmless (.record (before ++ (field.name, value) :: after))
        (.record (before ++ after))
  | drop {field : RecordField} {value : Value} {before after : List (String × Value)}
      (hfield : field ∈ fields) (hrequired : field.default? = Option.none) :
      RecordEdit fields .damaging (.record (before ++ (field.name, value) :: after))
        (.record (before ++ after))
  | inside {field : RecordField} {effect : Effect} {value edited : Value}
      {before after : List (String × Value)} (hfield : field ∈ fields)
      (h : field.inside effect value edited) :
      RecordEdit fields effect (.record (before ++ (field.name, value) :: after))
        (.record (before ++ (field.name, edited) :: after))

/-- One item of an array is edited. -/
inductive ItemEdit (inside : Edits) : Edits where
  | item {effect : Effect} {value edited : Value} {before after : List Value}
      (h : inside effect value edited) :
      ItemEdit inside effect (.array (before ++ value :: after))
        (.array (before ++ edited :: after))

theorem RecordEdit.inside_all {fields : List RecordField} {field : RecordField}
    (hfield : field ∈ fields) {value edited : Value}
    (h : ReflTransGen (field.inside .harmless) value edited)
    (before after : List (String × Value)) :
    ReflTransGen (RecordEdit fields .harmless)
      (.record (before ++ (field.name, value) :: after))
      (.record (before ++ (field.name, edited) :: after)) := by
  induction h with
  | refl => exact .refl
  | tail _ hedit ih => exact ih.tail (.inside hfield hedit)

theorem ItemEdit.item_all {inside : Edits} {value edited : Value}
    (h : ReflTransGen (inside .harmless) value edited) (before after : List Value) :
    ReflTransGen (ItemEdit inside .harmless) (.array (before ++ value :: after))
      (.array (before ++ edited :: after)) := by
  induction h with
  | refl => exact .refl
  | tail _ hedit ih => exact ih.tail (.item hedit)

/-- The decoder minds the edits as their effect says, and they bring in no number that is
not an integer. -/
structure Respects (decode : Value → Option α) (edits : Edits) : Prop where
  keeps {value edited : Value} {a : α} (h : edits .harmless value edited)
    (hvalue : decode value = some a) : decode edited = some a
  fails {value edited : Value} {a : α} (h : edits .damaging value edited)
    (hvalue : decode value = some a) : decode edited = Option.none
  integral {effect : Effect} {value edited : Value} (h : edits effect value edited)
    (hvalue : value.Integral) : edited.Integral

theorem respects_none (decode : Value → Option α) : Respects decode .none where
  keeps := False.elim
  fails := False.elim
  integral := False.elim

/-- Many harmless edits are harmless. -/
theorem Respects.keeps_all {decode : Value → Option α} {edits : Edits}
    (h : Respects decode edits) {value edited : Value} {a : α}
    (hedits : ReflTransGen (edits .harmless) value edited) (hvalue : decode value = some a) :
    decode edited = some a := by
  induction hedits with
  | refl => exact hvalue
  | tail _ hedit ih => exact h.keeps hedit ih

theorem Respects.integral_all {decode : Value → Option α} {edits : Edits}
    (h : Respects decode edits) {value edited : Value}
    (hedits : ReflTransGen (edits .harmless) value edited) (hvalue : value.Integral) :
    edited.Integral := by
  induction hedits with
  | refl => exact hvalue
  | tail _ hedit ih => exact h.integral hedit ih

theorem Value.integral_record_iff {given : List (String × Value)} :
    (record given).Integral ↔ ∀ field ∈ given, field.2.Integral := by
  refine ⟨fun h field hfield => ?_, .record⟩
  cases h with
  | object _ hmembers => exact hmembers (some field.1, field.2) (List.mem_map_of_mem hfield)

theorem Value.Integral.reorder {given others : List (String × Value)}
    (h : (Value.record given).Integral) (hperm : given.Perm others) :
    (Value.record others).Integral := by
  rw [integral_record_iff] at h ⊢
  exact fun field hfield => h field (hperm.mem_iff.mpr hfield)

theorem Value.integral_record_middle {name : String} {value : Value}
    {before after : List (String × Value)} :
    (record (before ++ (name, value) :: after)).Integral ↔
      value.Integral ∧ (record (before ++ after)).Integral := by
  rw [integral_record_iff, integral_record_iff, List.forall_mem_append, List.forall_mem_append,
    List.forall_mem_cons, and_left_comm]

theorem Value.integral_array_iff {items : List Value} :
    (array items).Integral ↔ ∀ item ∈ items, item.Integral := by
  refine ⟨fun h => ?_, .array items⟩
  cases h with
  | array _ hitems => exact hitems

section

variable {decode : Value → Option α} {value edited : Value} {before after : List Value}

theorem mapM_middle_of_none (h : decode value = none) :
    (before ++ value :: after).mapM decode = none := by
  rw [List.mapM_append, List.mapM_cons, h]
  cases before.mapM decode with
  | none => rfl
  | some _ => rfl

theorem exists_of_mapM_middle {as : List α}
    (h : (before ++ value :: after).mapM decode = some as) :
    ∃ a, decode value = some a := by
  cases hvalue : decode value with
  | none =>
      rw [mapM_middle_of_none hvalue] at h
      cases h
  | some a => exact ⟨a, rfl⟩

theorem mapM_middle_congr (h : decode value = decode edited) :
    (before ++ value :: after).mapM decode = (before ++ edited :: after).mapM decode := by
  rw [List.mapM_append, List.mapM_append, List.mapM_cons, List.mapM_cons, h]

end

theorem Respects.list {decode : Value → Option α} {edits : Edits} (h : Respects decode edits) :
    Respects (Value.list? decode) (ItemEdit edits) where
  keeps hedit hvalue := by
    cases hedit with
    | item hitem =>
        obtain ⟨a, ha⟩ := exists_of_mapM_middle hvalue
        rw [Value.list?] at hvalue ⊢
        rw [← hvalue]
        exact mapM_middle_congr ((h.keeps hitem ha).trans ha.symm)
  fails hedit hvalue := by
    cases hedit with
    | item hitem =>
        obtain ⟨a, ha⟩ := exists_of_mapM_middle hvalue
        exact mapM_middle_of_none (h.fails hitem ha)
  integral hedit hvalue := by
    cases hedit with
    | item hitem =>
        rw [Value.integral_array_iff, List.forall_mem_append, List.forall_mem_cons] at hvalue ⊢
        exact ⟨hvalue.1, h.integral hitem hvalue.2.1, hvalue.2.2⟩

/-! ## Records -/

/-- A field of a record with what it holds of the record, and how that is decoded. -/
structure RecordPart (α : Type) extends RecordField where
  Content : Type
  decode : Value → Option Content
  get : α → Content

/-- What is found under the name of the part: what is given there, or else the default. -/
def RecordPart.find? (part : RecordPart α) (given : List (String × Value)) : Option part.Content :=
  ((given.lookup part.name).or part.default?).bind part.decode

theorem RecordPart.find?_middle (part : RecordPart α) {value : Value}
    {before after : List (String × Value)}
    (h : (before ++ (part.name, value) :: after).countP (·.1 == part.name) ≤ 1) (found : Value) :
    part.find? (before ++ (part.name, found) :: after) = part.decode found ∧
      part.find? (before ++ after) = part.default?.bind part.decode := by
  rw [find?, find?, (lookup_middle h found).1, (lookup_middle h found).2, Option.some_or,
    Option.none_or]
  exact ⟨rfl, rfl⟩

theorem RecordPart.find?_middle_of_ne {part : RecordPart α} {name : String} (h : part.name ≠ name)
    (value : Value) (before after : List (String × Value)) :
    part.find? (before ++ (name, value) :: after) = part.find? (before ++ after) := by
  rw [find?, find?, lookup_middle_of_ne h]

/-- The edits inside of the part are respected, and what stands for it when it is left out
can be decoded. -/
structure RecordPart.Sound (part : RecordPart α) : Prop where
  respects : Respects part.decode part.inside
  exists_default : ∀ default ∈ part.default?, ∃ b, part.decode default = some b

section

variable {β : Type} (name : String) (inside : Edits) (decode : Value → Option β) (get : α → β)

/-- A part that has to be given. -/
abbrev RecordPart.required : RecordPart α :=
  ⟨⟨name, none, inside⟩, β, decode, get⟩

/-- A part that may be left out when it has the value `default`. -/
abbrev RecordPart.optional (default : Value) : RecordPart α :=
  ⟨⟨name, some default, inside⟩, β, decode, get⟩

theorem RecordPart.find?_required (given : List (String × Value)) :
    (required name inside decode get).find? given = (Fields.mk given).required name decode := by
  rw [find?, Option.or_none, Fields.required]

variable {name inside decode get}

theorem RecordPart.find?_optional {default : Value} {b : β} (h : decode default = some b)
    (given : List (String × Value)) :
    (optional name inside decode get default).find? given =
      (Fields.mk given).optional name b decode := by
  rw [find?, Fields.optional]
  cases given.lookup name with
  | none => exact h
  | some value => rfl

theorem RecordPart.Sound.required (h : Respects decode inside) :
    (required name inside decode get).Sound where
  respects := h
  exists_default := nofun

theorem RecordPart.Sound.optional {default : Value} {b : β} (hdefault : decode default = some b)
    (h : Respects decode inside) : (optional name inside decode get default).Sound where
  respects := h
  exists_default _ hmem := ⟨b, Option.some.inj hmem ▸ hdefault⟩

end

/-- The decoder finds the parts of a record under their names. -/
structure Reads (decode : Value → Option α) (parts : List (RecordPart α)) : Prop where
  nodup : (parts.map (·.name)).Nodup
  decode_eq_some_iff : ∀ given a, decode (.record given) = some a ↔
    (∀ part ∈ parts, given.countP (·.1 == part.name) ≤ 1) ∧
      ∀ part ∈ parts, part.find? given = some (part.get a)
  sound : ∀ part ∈ parts, part.Sound

/-- A decoder that asks for the fields of a record refuses one that is given twice. -/
theorem Value.fields?_record_bind_eq_some_iff {given : List (String × Value)}
    {names : List String} {f : Fields → Option α} {a : α} :
    ((Value.record given).fields? names >>= f) = some a ↔
      (∀ name ∈ names, given.countP (·.1 == name) ≤ 1) ∧ f ⟨given⟩ = some a := by
  have hmembers : (given.map fun field => ((some field.1 : Text), field.2)).mapM
      (Value.member? some) = some given := mapM_member? (fun _ => rfl) given
  rw [record, fields?]
  show ((List.mapM (member? some) (given.map fun field => ((some field.1 : Text), field.2)) >>= _)
    >>= f) = some a ↔ _
  rw [hmembers]
  show ((if _ then some (Fields.mk given) else none) >>= f) = some a ↔ _
  split
  · next hcount =>
      simp only [List.all_eq_true, decide_eq_true_eq] at hcount
      exact (and_iff_right hcount).symm
  · next hcount =>
      simp only [List.all_eq_true, decide_eq_true_eq] at hcount
      constructor
      · intro h
        cases h
      · intro h
        exact absurd h.1 hcount

/-- Nor does it mind the order of the fields, if it only looks for those of these names. -/
theorem Value.fields?_record_bind_of_perm {given others : List (String × Value)}
    (hperm : given.Perm others) {names : List String} {f : Fields → Option α} {a : α}
    (hf : (∀ name ∈ names, given.lookup name = others.lookup name) → f ⟨given⟩ = f ⟨others⟩)
    (h : ((record given).fields? names >>= f) = some a) :
    ((record others).fields? names >>= f) = some a := by
  rw [fields?_record_bind_eq_some_iff] at h ⊢
  refine ⟨fun name hname => hperm.countP_eq (·.1 == name) ▸ h.1 name hname, ?_⟩
  rw [← hf fun name hname => lookup_of_perm hperm (h.1 name hname)]
  exact h.2

/-- It is enough to know what becomes of the fields. -/
theorem Reads.of_fields {decode : Value → Option α} {parts : List (RecordPart α)}
    {f : Fields → Option α} (hnodup : (parts.map (·.name)).Nodup)
    (hsound : parts.Forall RecordPart.Sound)
    (hdecode : ∀ value, decode value = (value.fields? (parts.map (·.name)) >>= f))
    (hfind : ∀ given a,
      f ⟨given⟩ = some a ↔ parts.Forall fun part => part.find? given = some (part.get a)) :
    Reads decode parts where
  nodup := hnodup
  sound := List.forall_iff_forall_mem.mp hsound
  decode_eq_some_iff given a := by
    rw [hdecode, Value.fields?_record_bind_eq_some_iff, hfind, List.forall_iff_forall_mem,
      List.forall_mem_map]

namespace Reads

variable {decode : Value → Option α} {parts : List (RecordPart α)} (h : Reads decode parts)

include h

theorem eq_of_name_eq {part other : RecordPart α} (hpart : part ∈ parts) (hother : other ∈ parts)
    (hname : part.name = other.name) : part = other :=
  List.inj_on_of_nodup_map h.nodup hpart hother hname

/-- What the decoder makes of a record depends on the parts that it finds. -/
theorem decode_of_find? {given edited : List (String × Value)} {a : α}
    (hgiven : decode (.record given) = some a)
    (hcount : ∀ name, edited.countP (·.1 == name) ≤ given.countP (·.1 == name))
    (hfind : ∀ part ∈ parts, part.find? given = some (part.get a) →
      part.find? edited = some (part.get a)) : decode (.record edited) = some a := by
  rw [h.decode_eq_some_iff] at hgiven ⊢
  exact ⟨fun part hpart => Nat.le_trans (hcount part.name) (hgiven.1 part hpart),
    fun part hpart => hfind part hpart (hgiven.2 part hpart)⟩

theorem decode_of_find?_eq_none {given : List (String × Value)} {part : RecordPart α}
    (hpart : part ∈ parts) (hfind : part.find? given = none) : decode (.record given) = none := by
  cases hdecode : decode (.record given) with
  | none => rfl
  | some a =>
      have hsome := ((h.decode_eq_some_iff given a).mp hdecode).2 part hpart
      rw [hfind] at hsome
      cases hsome

theorem countP_le {given : List (String × Value)} {a : α}
    (hgiven : decode (.record given) = some a) {part : RecordPart α} (hpart : part ∈ parts) :
    given.countP (·.1 == part.name) ≤ 1 :=
  ((h.decode_eq_some_iff given a).mp hgiven).1 part hpart

theorem decode_reorder {given others : List (String × Value)} {a : α}
    (hperm : given.Perm others) (hgiven : decode (.record given) = some a) :
    decode (.record others) = some a := by
  refine h.decode_of_find? hgiven (fun name => Nat.le_of_eq (hperm.countP_eq _).symm) ?_
  intro part hpart hfind
  rw [← hfind, RecordPart.find?, RecordPart.find?, lookup_of_perm hperm (h.countP_le hgiven hpart)]

section

variable {part : RecordPart α} (hpart : part ∈ parts) {value : Value}
  {before after : List (String × Value)} {a : α}
  (hgiven : decode (.record (before ++ (part.name, value) :: after)) = some a)

include hpart hgiven

/-- A value that decodes to what the default does is not missed. -/
theorem decode_leaveOut (hdefault : part.default?.bind part.decode = part.decode value) :
    decode (.record (before ++ after)) = some a := by
  refine h.decode_of_find? hgiven (fun name => ?_) ?_
  · rw [List.countP_append, List.countP_append, List.countP_cons]
    omega
  intro other hother hfind
  by_cases hname : other.name = part.name
  · obtain rfl := h.eq_of_name_eq hother hpart hname
    have hmiddle := other.find?_middle (h.countP_le hgiven hpart) value
    rwa [hmiddle.2, hdefault, ← hmiddle.1]
  · rwa [RecordPart.find?_middle_of_ne hname] at hfind

theorem decode_inside {edited : Value} (hedited : part.decode edited = part.decode value) :
    decode (.record (before ++ (part.name, edited) :: after)) = some a := by
  refine h.decode_of_find? hgiven (fun name => ?_) ?_
  · simp only [List.countP_append, List.countP_cons]
    exact Nat.le_refl _
  intro other hother hfind
  by_cases hname : other.name = part.name
  · obtain rfl := h.eq_of_name_eq hother hpart hname
    have hmiddle := other.find?_middle (h.countP_le hgiven hpart)
    rwa [(hmiddle edited).1, hedited, ← (hmiddle value).1]
  · rw [RecordPart.find?_middle_of_ne hname] at hfind ⊢
    exact hfind

theorem exists_decode_of_middle : ∃ b, part.decode value = some b := by
  have hfind := ((h.decode_eq_some_iff _ _).mp hgiven).2 part hpart
  rw [(part.find?_middle (h.countP_le hgiven hpart) value).1] at hfind
  exact ⟨_, hfind⟩

theorem decode_drop (hrequired : part.default? = none) :
    decode (.record (before ++ after)) = none := by
  refine h.decode_of_find?_eq_none hpart ?_
  rw [(part.find?_middle (h.countP_le hgiven hpart) value).2, hrequired]
  rfl

theorem decode_inside_eq_none {edited : Value} (hedited : part.decode edited = none) :
    decode (.record (before ++ (part.name, edited) :: after)) = none := by
  refine h.decode_of_find?_eq_none hpart ?_
  rw [(part.find?_middle (h.countP_le hgiven hpart) edited).1, hedited]

end

theorem respects_record : Respects decode (RecordEdit (parts.map RecordPart.toRecordField)) where
  keeps hedit hvalue := by
    cases hedit with
    | reorder hperm => exact h.decode_reorder hperm hvalue
    | leaveOut hfield hdefault hedits =>
        obtain ⟨part, hpart, rfl⟩ := List.mem_map.mp hfield
        obtain ⟨b, hb⟩ := (h.sound part hpart).exists_default _ hdefault
        refine h.decode_leaveOut hpart hvalue ?_
        rw [hdefault, Option.bind_some, hb, (h.sound part hpart).respects.keeps_all hedits hb]
    | inside hfield hedit =>
        obtain ⟨part, hpart, rfl⟩ := List.mem_map.mp hfield
        obtain ⟨b, hb⟩ := h.exists_decode_of_middle hpart hvalue
        refine h.decode_inside hpart hvalue ?_
        rw [hb, (h.sound part hpart).respects.keeps hedit hb]
  fails hedit hvalue := by
    cases hedit with
    | drop hfield hrequired =>
        obtain ⟨part, hpart, rfl⟩ := List.mem_map.mp hfield
        exact h.decode_drop hpart hvalue hrequired
    | inside hfield hedit =>
        obtain ⟨part, hpart, rfl⟩ := List.mem_map.mp hfield
        obtain ⟨b, hb⟩ := h.exists_decode_of_middle hpart hvalue
        exact h.decode_inside_eq_none hpart hvalue ((h.sound part hpart).respects.fails hedit hb)
  integral hedit hvalue := by
    cases hedit with
    | reorder hperm => exact hvalue.reorder hperm
    | leaveOut => exact (Value.integral_record_middle.mp hvalue).2
    | drop => exact (Value.integral_record_middle.mp hvalue).2
    | inside hfield hedit =>
        obtain ⟨part, hpart, rfl⟩ := List.mem_map.mp hfield
        rw [Value.integral_record_middle] at hvalue ⊢
        exact ⟨(h.sound part hpart).respects.integral hedit hvalue.1, hvalue.2⟩

end Reads

end TaintFlow.Json
