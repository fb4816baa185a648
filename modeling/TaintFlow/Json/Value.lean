/-!
# JSON values

A value keeps what the text said: members in their order and with repetitions,
and numbers as literals. What a record makes of them is decided later.
-/

namespace TaintFlow.Json

/-- What a string literal denotes. A literal may be well formed and yet denote no
text, when an escape names one half of a surrogate pair without the other: that
is `none`. -/
abbrev Text := Option String

structure Number where
  negative : Bool := false
  /-- The digits before the point. -/
  whole : List Char
  /-- The digits after the point, none if there is no point. -/
  fraction : List Char := []
  exponent : Option Int := none
deriving DecidableEq

inductive Value where
  | null
  | bool (value : Bool)
  | number (literal : Number)
  | string (text : Text)
  | array (items : List Value)
  | object (members : List (Text × Value))

def decimal (digits : List Char) : Nat :=
  digits.foldl (fun n digit => 10 * n + (digit.toNat - '0'.toNat)) 0

namespace Number

def ofInt (n : Int) : Number where
  negative := n < 0
  whole := Nat.toDigits 10 n.natAbs

/-- The integer that the literal stands for. A point or an exponent makes the
literal no integer, and neither is there a negative zero. -/
def toInt? (literal : Number) : Option Int :=
  match literal.fraction, literal.exponent with
  | [], none =>
    let magnitude := decimal literal.whole
    if !literal.negative then some magnitude
    else if magnitude = 0 then none
    else some (-magnitude)
  | _, _ => none

/-- Appends digits to a significand of 64 bits as long as it has room for them:
the significand, and how many digits found no room. From the first that found
none, all are left out. -/
def appendDigits (significand : Nat) : List Char → Nat × Nat
  | [] => (significand, 0)
  | digit :: rest =>
    let next := 10 * significand + (digit.toNat - '0'.toNat)
    if next < UInt64.size then appendDigits next rest else (significand, rest.length + 1)

/-- The literal as a significand of 64 bits and a power of ten. -/
def scaled (literal : Number) : Nat × Int :=
  let (significand, omitted) := appendDigits 0 literal.whole
  let (significand, unread) := appendDigits significand literal.fraction
  let shift : Int := omitted - (literal.fraction.length - unread)
  (significand, shift + literal.exponent.getD 0)

/-- A natural number with 53 significant bits, rounded to the nearest such number
and from the middle to the even one. -/
def round53 (n : Nat) : Nat :=
  let unit := 1 <<< (n.log2 - 52)
  let quotient := n / unit
  let excess := 2 * (n % unit)
  let rounded :=
    if unit < excess ∨ (excess = unit ∧ quotient % 2 = 1) then quotient + 1 else quotient
  rounded * unit

/-- Whether the literal is within the range of a 64-bit float, when its rounded
significand is multiplied by the rounded power of ten. -/
def isFinite (literal : Number) : Bool :=
  match literal.scaled with
  | (0, _) => true
  | (_, .negSucc _) => true
  | (significand, .ofNat power) =>
    decide (power ≤ 308 ∧
      round53 significand * round53 (Nat.pow 10 power) < (1 <<< 1024) - (1 <<< 970))

end Number

namespace Value

def text (s : String) : Value := .string (some s)

def int (n : Int) : Value := .number (.ofInt n)

/-- An object with one member for each field, in the order given. -/
def record (fields : List (String × Value)) : Value :=
  .object (fields.map fun (name, value) => (some name, value))

mutual

/-- Whether a reader can take the value in before it knows what to make of it:
every string denotes a text, every number is finite, and arrays and objects are
nested at most `levels` deep. -/
def isPlain : Nat → Value → Bool
  | _, .null => true
  | _, .bool _ => true
  | _, .number literal => literal.isFinite
  | _, .string text => text.isSome
  | 0, .array _ => false
  | levels + 1, .array items => areItemsPlain levels items
  | 0, .object _ => false
  | levels + 1, .object members => areMembersPlain levels members

def areItemsPlain : Nat → List Value → Bool
  | _, [] => true
  | levels, item :: items => isPlain levels item && areItemsPlain levels items

def areMembersPlain : Nat → List (Text × Value) → Bool
  | _, [] => true
  | levels, (key, value) :: members =>
    key.isSome && isPlain levels value && areMembersPlain levels members

end

end Value

end TaintFlow.Json
