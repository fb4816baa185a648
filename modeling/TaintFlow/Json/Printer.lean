import TaintFlow.Json.Value

/-!
# Writing JSON values

A value is written on one line without blanks, or spread over lines with each
item and each member on a line of its own, indented by two blanks for every
array or object around it. An empty array or object stays on its line.
-/

namespace TaintFlow.Json

/-- How values are spread over lines. -/
inductive Style where
  | compact
  | indented
deriving DecidableEq

/-- What separates the items `level` deep. -/
def Style.lineBreak : Style → Nat → List Char
  | .compact, _ => []
  | .indented, level => '\n' :: List.replicate (2 * level) ' '

def Style.colonGap : Style → List Char
  | .compact => []
  | .indented => [' ']

def escape (c : Char) : List Char :=
  if c = '"' then ['\\', '"']
  else if c = '\\' then ['\\', '\\']
  else if c = '\x08' then ['\\', 'b']
  else if c = '\x0c' then ['\\', 'f']
  else if c = '\n' then ['\\', 'n']
  else if c = '\r' then ['\\', 'r']
  else if c = '\t' then ['\\', 't']
  else if c < ' ' then
    ['\\', 'u', '0', '0', Nat.digitChar (c.toNat / 16), Nat.digitChar (c.toNat % 16)]
  else [c]

/-- A string literal. One that denotes no text is written as half of a surrogate
pair. -/
def writeText : Text → List Char
  | some text => '"' :: text.toList.flatMap escape ++ ['"']
  | none => ['"', '\\', 'u', 'd', '8', '0', '0', '"']

def Number.write (literal : Number) : List Char :=
  let sign := if literal.negative then ['-'] else []
  let fraction := if literal.fraction.isEmpty then [] else '.' :: literal.fraction
  let exponent :=
    match literal.exponent with
    | none => []
    | some (.ofNat power) => 'e' :: Nat.toDigits 10 power
    | some (.negSucc power) => 'e' :: '-' :: Nat.toDigits 10 (power + 1)
  sign ++ literal.whole ++ fraction ++ exponent

mutual

def Value.write (style : Style) (level : Nat) : Value → List Char
  | .null => ['n', 'u', 'l', 'l']
  | .bool true => ['t', 'r', 'u', 'e']
  | .bool false => ['f', 'a', 'l', 's', 'e']
  | .number literal => literal.write
  | .string text => writeText text
  | .array [] => ['[', ']']
  | .array (item :: items) =>
    '[' :: (style.lineBreak (level + 1) ++ item.write style (level + 1) ++
      writeItems style (level + 1) items ++ style.lineBreak level ++ [']'])
  | .object [] => ['{', '}']
  | .object ((key, value) :: members) =>
    '{' :: (style.lineBreak (level + 1) ++ writeText key ++ ':' :: (style.colonGap ++
      value.write style (level + 1) ++ writeMembers style (level + 1) members ++
        style.lineBreak level ++ ['}']))

/-- The items behind the first of an array. -/
def writeItems (style : Style) (level : Nat) : List Value → List Char
  | [] => []
  | item :: items =>
    ',' :: (style.lineBreak level ++ item.write style level ++ writeItems style level items)

/-- The members behind the first of an object. -/
def writeMembers (style : Style) (level : Nat) : List (Text × Value) → List Char
  | [] => []
  | (key, value) :: members =>
    ',' :: (style.lineBreak level ++ writeText key ++ ':' :: (style.colonGap ++
      value.write style level ++ writeMembers style level members))

end

def Value.render (value : Value) (style : Style) : String :=
  String.ofList (value.write style 0)

end TaintFlow.Json
