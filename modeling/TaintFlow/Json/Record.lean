import TaintFlow.Json.Value
import TaintFlow.NameMap

/-!
# Records in JSON

A record is an object whose members are its fields, in any order and among
members of other names, or an array of its fields in the order of their
declaration, whose last ones may be missing. A field is given at most once.
-/

namespace TaintFlow.Json

/-- The fields of a record as they are given, by name. Names that the record does
not have may be among them. -/
structure Fields where
  given : List (String × Value)

namespace Fields

variable {α : Type}

def required (fields : Fields) (name : String) (decode : Value → Option α) : Option α :=
  (fields.given.lookup name).bind decode

/-- A field that has the value `default` when it is not given. -/
def optional (fields : Fields) (name : String) (default : α) (decode : Value → Option α) :
    Option α :=
  match fields.given.lookup name with
  | some value => decode value
  | none => some default

end Fields

namespace Value

def text? : Value → Option String
  | .string text => text
  | _ => none

def bool? : Value → Option Bool
  | .bool value => some value
  | _ => none

def int? (low high : Int) : Value → Option Int
  | .number literal => literal.toInt?.filter fun n => decide (low ≤ n ∧ n < high)
  | _ => none

def uint64? (value : Value) : Option UInt64 :=
  (value.int? 0 UInt64.size).map fun n => UInt64.ofNat n.toNat

def uint8? (value : Value) : Option UInt8 :=
  (value.int? 0 UInt8.size).map fun n => UInt8.ofNat n.toNat

def int64? (value : Value) : Option Int64 :=
  (value.int? (-0x8000000000000000) 0x8000000000000000).map Int64.ofInt

def option? {α : Type} (decode : Value → Option α) : Value → Option (Option α)
  | .null => some none
  | value => (decode value).map some

def list? {α : Type} (decode : Value → Option α) : Value → Option (List α)
  | .array items => items.mapM decode
  | _ => none

/-- A member whose key denotes a text, with its value decoded. -/
def member? {α : Type} (decode : Value → Option α) (member : Text × Value) :
    Option (String × α) := do
  let key ← member.1
  let value ← decode member.2
  return (key, value)

/-- An object as a map, in which the last member of a name wins. -/
def map? {α : Type} (decode : Value → Option α) : Value → Option (NameMap α)
  | .object members => (members.mapM (member? decode)).map .ofList
  | _ => none

/-- A choice between names: the name alone, or an object with one member of that
name, whose value belongs to the choice. -/
def choice? : Value → Option (String × Option Value)
  | .string (some name) => some (name, none)
  | .object [(some name, value)] => some (name, some value)
  | _ => none

/-- A choice to which no value belongs, unless it is `null`. -/
def bareChoice? (value : Value) : Option String :=
  match value.choice? with
  | some (name, none) => some name
  | some (name, some .null) => some name
  | _ => none

def fields? (names : List String) : Value → Option Fields
  | .array items => if items.length ≤ names.length then some ⟨names.zip items⟩ else none
  | .object members => do
    let members ← members.mapM (member? some)
    if names.all fun name => decide (members.countP (·.1 == name) ≤ 1) then some ⟨members⟩
    else none
  | _ => none

/-- A record that names its kind in its member `tag`, or in its first item, beside
fields that depend on the kind: the kind, and the record without it. What stands
beside the kind must be plain, up to the depth `levels`. -/
def tagged? (levels : Nat) (tag : String) : Value → Option (String × Value)
  | .object members =>
    match members.filter (·.1 == some tag) with
    | [(_, .string (some kind))] =>
      let rest := members.filter (·.1 != some tag)
      if areMembersPlain levels rest then some (kind, .object rest) else none
    | _ => none
  | .array (.string (some kind) :: rest) =>
    if areItemsPlain levels rest then some (kind, .array rest) else none
  | _ => none

end Value

end TaintFlow.Json
