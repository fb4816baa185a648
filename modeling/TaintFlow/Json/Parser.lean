import TaintFlow.Json.Token

/-!
# Reading JSON values

The reader takes the tokens one after another and keeps the arrays and objects
that are still open on a stack. It is a plain fold, so that nesting costs stack
entries and not recursion, and a text of any depth is read.
-/

namespace TaintFlow.Json

/-- An array or object that is still open: what it holds so far, the last first. -/
inductive Frame where
  | array (items : List Value)
  /-- The member under `key` is being read. -/
  | object (members : List (Text × Value)) (key : Text)

/-- What the reader expects next, inside the open `frames`, innermost first. -/
inductive Reader where
  | atValue (frames : List Frame)
  /-- The first item of an array, or its end. -/
  | atFirstItem (frames : List Frame)
  /-- The first key of an object, or its end. -/
  | atFirstKey (frames : List Frame)
  /-- A key, behind some members. -/
  | atKey (members : List (Text × Value)) (frames : List Frame)
  /-- The colon behind a key. -/
  | atColon (members : List (Text × Value)) (key : Text) (frames : List Frame)
  /-- A comma or an end behind a value, or nothing where no frame is open. -/
  | behind (value : Value) (frames : List Frame)

namespace Reader

/-- A token where a value is expected. -/
def readValue (frames : List Frame) : Token → Option Reader
  | .openArray => some (.atFirstItem frames)
  | .openObject => some (.atFirstKey frames)
  | .null => some (.behind .null frames)
  | .bool value => some (.behind (.bool value) frames)
  | .number literal => some (.behind (.number literal) frames)
  | .string text => some (.behind (.string text) frames)
  | _ => none

/-- A token behind a value that is complete. -/
def readNext (value : Value) : List Frame → Token → Option Reader
  | .array items :: frames, .comma => some (.atValue (.array (value :: items) :: frames))
  | .array items :: frames, .closeArray =>
    some (.behind (.array (value :: items).reverse) frames)
  | .object members key :: frames, .comma => some (.atKey ((key, value) :: members) frames)
  | .object members key :: frames, .closeObject =>
    some (.behind (.object ((key, value) :: members).reverse) frames)
  | _, _ => none

/-- Takes one token; `none` when it is not what can follow. -/
def step : Reader → Token → Option Reader
  | .atValue frames, token => readValue frames token
  | .atFirstItem frames, .closeArray => some (.behind (.array []) frames)
  | .atFirstItem frames, token => readValue (.array [] :: frames) token
  | .atFirstKey frames, .closeObject => some (.behind (.object []) frames)
  | .atFirstKey frames, .string key => some (.atColon [] key frames)
  | .atKey members frames, .string key => some (.atColon members key frames)
  | .atColon members key frames, .colon => some (.atValue (.object members key :: frames))
  | .behind value frames, token => readNext value frames token
  | _, _ => none

def result? : Reader → Option Value
  | .behind value [] => some value
  | _ => none

end Reader

def Value.ofTokens? (tokens : List Token) : Option Value := do
  let reader ← tokens.foldlM Reader.step (.atValue [])
  reader.result?

def Value.parse? (text : String) : Option Value := do
  let tokens ← tokenize text.toList
  Value.ofTokens? tokens

end TaintFlow.Json
