import TaintFlow.Json.Value

/-!
# The tokens of JSON text

A text is cut into tokens one at a time: blanks are skipped, and the rest begins
with exactly one token or none. Each token takes at least one character, which
is why cutting ends.
-/

namespace TaintFlow.Json

inductive Token where
  | openArray
  | closeArray
  | openObject
  | closeObject
  | comma
  | colon
  | null
  | bool (value : Bool)
  | number (literal : Number)
  | string (text : Text)
deriving DecidableEq

/-! ## Strings -/

/-- One element of a string literal: a character, or one half of a surrogate
pair that an escape names. -/
inductive Piece where
  | char (c : Char)
  | high (unit : Nat)
  | low (unit : Nat)
deriving DecidableEq

def Piece.ofUnit (unit : Nat) : Piece :=
  if 0xD800 ≤ unit ∧ unit < 0xDC00 then .high unit
  else if 0xDC00 ≤ unit ∧ unit < 0xE000 then .low unit
  else .char (Char.ofNat unit)

/-- The character outside the basic plane that a surrogate pair stands for. -/
def pairedChar (high low : Nat) : Char :=
  Char.ofNat (0x10000 + 0x400 * (high - 0xD800) + (low - 0xDC00))

/-- Puts the elements of a literal together behind the characters `done`, the
last of which comes first; `none` when a surrogate stands alone. -/
def assemble (done : List Char) : List Piece → Text
  | [] => some (String.ofList done.reverse)
  | .char c :: rest => assemble (c :: done) rest
  | .high high :: .low low :: rest => assemble (pairedChar high low :: done) rest
  | .high _ :: _ => none
  | .low _ :: _ => none

def hexDigit? (c : Char) : Option Nat :=
  if '0' ≤ c ∧ c ≤ '9' then some (c.toNat - '0'.toNat)
  else if 'a' ≤ c ∧ c ≤ 'f' then some (c.toNat - 'a'.toNat + 10)
  else if 'A' ≤ c ∧ c ≤ 'F' then some (c.toNat - 'A'.toNat + 10)
  else none

def hexUnit? (a b c d : Char) : Option Nat := do
  let a ← hexDigit? a
  let b ← hexDigit? b
  let c ← hexDigit? c
  let d ← hexDigit? d
  return 0x1000 * a + 0x100 * b + 0x10 * c + d

def escaped? : Char → Option Char
  | '"' => some '"'
  | '\\' => some '\\'
  | '/' => some '/'
  | 'b' => some '\x08'
  | 'f' => some '\x0c'
  | 'n' => some '\n'
  | 'r' => some '\r'
  | 't' => some '\t'
  | _ => none

/-- Reads a literal after its opening quote: its elements, behind those already
`done`, and what follows the closing quote. -/
def scanString (done : List Piece) : List Char → Option (List Piece × List Char)
  | [] => none
  | '"' :: rest => some (done.reverse, rest)
  | '\\' :: 'u' :: a :: b :: c :: d :: rest =>
    match hexUnit? a b c d with
    | some unit => scanString (.ofUnit unit :: done) rest
    | none => none
  | '\\' :: c :: rest =>
    match escaped? c with
    | some c => scanString (.char c :: done) rest
    | none => none
  | c :: rest => if c < ' ' then none else scanString (.char c :: done) rest

/-! ## Numbers -/

/-- Whether digits may stand before the point: a zero only alone. -/
def isWhole : List Char → Bool
  | [] => false
  | ['0'] => true
  | digit :: _ => digit != '0'

def scanFraction : List Char → Option (List Char × List Char)
  | '.' :: rest =>
    let digits := rest.takeWhile Char.isDigit
    if digits.isEmpty then none else some (digits, rest.dropWhile Char.isDigit)
  | rest => some ([], rest)

def scanPower (negative : Bool) (text : List Char) : Option (Option Int × List Char) :=
  let digits := text.takeWhile Char.isDigit
  if digits.isEmpty then none
  else
    let magnitude : Int := decimal digits
    some (some (if negative then -magnitude else magnitude), text.dropWhile Char.isDigit)

def scanExponent : List Char → Option (Option Int × List Char)
  | [] => some (none, [])
  | c :: rest =>
    if c = 'e' ∨ c = 'E' then
      match rest with
      | '+' :: rest => scanPower false rest
      | '-' :: rest => scanPower true rest
      | _ => scanPower false rest
    else some (none, c :: rest)

/-- Reads a number after its sign. -/
def scanUnsigned (negative : Bool) (text : List Char) : Option (Number × List Char) :=
  let whole := text.takeWhile Char.isDigit
  if !isWhole whole then none
  else do
    let (fraction, rest) ← scanFraction (text.dropWhile Char.isDigit)
    let (exponent, rest) ← scanExponent rest
    return ({ negative, whole, fraction, exponent }, rest)

def scanNumber : List Char → Option (Number × List Char)
  | '-' :: rest => scanUnsigned true rest
  | text => scanUnsigned false text

/-! ## Texts -/

def isBlank (c : Char) : Bool := c == ' ' || c == '\n' || c == '\t' || c == '\r'

/-- The token that a text begins with, and the text behind it. -/
def Token.scan : List Char → Option (Token × List Char)
  | '[' :: rest => some (.openArray, rest)
  | ']' :: rest => some (.closeArray, rest)
  | '{' :: rest => some (.openObject, rest)
  | '}' :: rest => some (.closeObject, rest)
  | ',' :: rest => some (.comma, rest)
  | ':' :: rest => some (.colon, rest)
  | 'n' :: 'u' :: 'l' :: 'l' :: rest => some (.null, rest)
  | 't' :: 'r' :: 'u' :: 'e' :: rest => some (.bool true, rest)
  | 'f' :: 'a' :: 'l' :: 's' :: 'e' :: rest => some (.bool false, rest)
  | '"' :: rest => (scanString [] rest).map fun (pieces, rest) => (.string (assemble [] pieces), rest)
  | text => (scanNumber text).map fun (literal, rest) => (.number literal, rest)

theorem length_dropWhile_le {α : Type} (p : α → Bool) (l : List α) :
    (l.dropWhile p).length ≤ l.length :=
  (List.dropWhile_sublist p).length_le

theorem length_scanString {done : List Piece} {text : List Char} {pieces : List Piece}
    {rest : List Char} (h : scanString done text = some (pieces, rest)) :
    rest.length < text.length := by
  fun_induction scanString done text with
  | case1 => cases h
  | case2 => cases h; simp
  | case3 done a b c d tail unit _ ih =>
    have := ih h
    simp only [List.length_cons]
    omega
  | case4 => cases h
  | case5 done c tail _ c' _ ih =>
    have := ih h
    simp only [List.length_cons]
    omega
  | case6 => cases h
  | case7 => cases h
  | case8 done c tail _ _ _ _ ih =>
    have := ih h
    simp only [List.length_cons]
    omega

theorem length_scanFraction {text digits rest : List Char}
    (h : scanFraction text = some (digits, rest)) : rest.length ≤ text.length := by
  unfold scanFraction at h
  split at h
  · next tail =>
    simp only at h
    split at h
    · cases h
    · cases h
      have := length_dropWhile_le Char.isDigit tail
      simp only [List.length_cons]
      omega
  · cases h
    exact Nat.le_refl _

theorem length_scanPower {negative : Bool} {text rest : List Char} {power : Option Int}
    (h : scanPower negative text = some (power, rest)) : rest.length ≤ text.length := by
  simp only [scanPower] at h
  split at h
  · cases h
  · cases h
    exact length_dropWhile_le Char.isDigit text

theorem length_scanExponent {text rest : List Char} {power : Option Int}
    (h : scanExponent text = some (power, rest)) : rest.length ≤ text.length := by
  unfold scanExponent at h
  split at h
  · cases h
    exact Nat.le_refl _
  · split at h
    · split at h
      · have := length_scanPower h
        simp only [List.length_cons]
        omega
      · have := length_scanPower h
        simp only [List.length_cons]
        omega
      · have := length_scanPower h
        simp only [List.length_cons]
        omega
    · cases h
      exact Nat.le_refl _

theorem length_scanUnsigned {negative : Bool} {text rest : List Char} {literal : Number}
    (h : scanUnsigned negative text = some (literal, rest)) : rest.length < text.length := by
  simp only [scanUnsigned] at h
  split at h
  · cases h
  · next hwhole =>
    obtain ⟨⟨fraction, afterFraction⟩, hfraction, h⟩ := Option.bind_eq_some_iff.mp h
    obtain ⟨⟨exponent, afterExponent⟩, hexponent, h⟩ := Option.bind_eq_some_iff.mp h
    cases h
    have h₁ := length_scanFraction hfraction
    have h₂ := length_scanExponent hexponent
    have h₃ : (text.dropWhile Char.isDigit).length < text.length := by
      have hsplit := congrArg List.length (List.takeWhile_append_dropWhile (p := Char.isDigit) (l := text))
      have hne : (text.takeWhile Char.isDigit).length ≠ 0 := by
        intro hzero
        rw [List.length_eq_zero_iff.mp hzero] at hwhole
        exact hwhole rfl
      rw [List.length_append] at hsplit
      omega
    dsimp only at h₁ h₂ ⊢
    omega

theorem length_scanNumber {text rest : List Char} {literal : Number}
    (h : scanNumber text = some (literal, rest)) : rest.length < text.length := by
  unfold scanNumber at h
  split at h
  · have := length_scanUnsigned h
    simp only [List.length_cons]
    omega
  · exact length_scanUnsigned h

theorem Token.length_scan {text rest : List Char} {token : Token}
    (h : Token.scan text = some (token, rest)) : rest.length < text.length := by
  unfold Token.scan at h
  split at h
  case h_10 =>
    obtain ⟨⟨pieces, tail⟩, hscan, heq⟩ := Option.map_eq_some_iff.mp h
    cases heq
    have := length_scanString hscan
    simp only [List.length_cons]
    omega
  case h_11 =>
    obtain ⟨⟨literal, tail⟩, hscan, heq⟩ := Option.map_eq_some_iff.mp h
    cases heq
    exact length_scanNumber hscan
  all_goals
    cases h
    simp only [List.length_cons]
    omega

/-- Cuts a text into tokens, behind those already `done`; `none` when some part of
it begins with no token. -/
def tokenizeOnto (done : List Token) (text : List Char) : Option (List Token) :=
  match hblank : text.dropWhile isBlank with
  | [] => some done.reverse
  | c :: rest =>
    match hscan : Token.scan (c :: rest) with
    | none => none
    | some (token, rest') =>
      have : rest'.length < text.length := by
        have h₁ := Token.length_scan hscan
        have h₂ := length_dropWhile_le isBlank text
        rw [hblank] at h₂
        omega
      tokenizeOnto (token :: done) rest'
termination_by text.length

def tokenize (text : List Char) : Option (List Token) := tokenizeOnto [] text

end TaintFlow.Json
