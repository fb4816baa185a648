import TaintFlow.Json.Printer
import TaintFlow.Json.Token

/-!
# Literals are read back

A string literal is read piece by piece, and every character is written as exactly one
piece, so the pieces of a written text are its characters. A number has no closing
mark: its literal ends where no digit, point or exponent follows. The integers that are
written have neither a point nor an exponent, and their first digit is a zero only
where it is the only one.
-/

namespace TaintFlow.Json

/-! ## Strings -/

/-- The two hexadecimal digits of a control character. -/
theorem hexUnit?_control :
    ∀ n < 32, hexUnit? '0' '0' (Nat.digitChar (n / 16)) (Nat.digitChar (n % 16)) = some n := by
  decide

theorem scanString_char {done : List Piece} {c : Char} {text : List Char} (hquote : c ≠ '"')
    (hbackslash : c ≠ '\\') (hcontrol : ¬ c < ' ') :
    scanString done (c :: text) = scanString (.char c :: done) text := by
  rw [scanString.eq_def]
  split
  · next heq => cases heq
  · next heq =>
    cases heq
    exact absurd rfl hquote
  · next heq =>
    cases heq
    exact absurd rfl hbackslash
  · next heq =>
    cases heq
    exact absurd rfl hbackslash
  · next heq =>
    cases heq
    rw [if_neg hcontrol]

/-- A character that is written as a backslash and one more. -/
theorem scanString_escaped {done : List Piece} {c written : Char} {text : List Char}
    (h : escaped? written = some c) :
    scanString done ('\\' :: written :: text) = scanString (.char c :: done) text := by
  have hunit : written ≠ 'u' := by
    rintro rfl
    cases h
  rw [scanString.eq_def]
  split
  · next heq => cases heq
  · next heq => cases heq
  · next heq =>
    cases heq
    exact absurd rfl hunit
  · next heq =>
    cases heq
    rw [h]
  · next hplain heq =>
    cases heq
    exact (hplain _ _ rfl rfl).elim

/-- However a character is written, it is read as one piece. -/
theorem scanString_escape (done : List Piece) (c : Char) (text : List Char) :
    scanString done (escape c ++ text) = scanString (.char c :: done) text := by
  rw [escape]
  split
  · next h =>
    subst h
    exact scanString_escaped rfl
  split
  · next h =>
    subst h
    exact scanString_escaped rfl
  split
  · next h =>
    subst h
    exact scanString_escaped rfl
  split
  · next h =>
    subst h
    exact scanString_escaped rfl
  split
  · next h =>
    subst h
    exact scanString_escaped rfl
  split
  · next h =>
    subst h
    exact scanString_escaped rfl
  split
  · next h =>
    subst h
    exact scanString_escaped rfl
  split
  · next hcontrol =>
    have hlt : c.toNat < 32 := hcontrol
    have hpiece : Piece.ofUnit c.toNat = .char c := by
      rw [Piece.ofUnit, if_neg (by omega), if_neg (by omega), Char.ofNat_toNat]
    simp only [List.cons_append, List.nil_append, scanString, hexUnit?_control _ hlt, hpiece]
  · next hquote hbackslash _ _ _ _ _ hcontrol =>
    exact scanString_char hquote hbackslash hcontrol

theorem scanString_flatMap_escape (done : List Piece) (cs text : List Char) :
    scanString done (cs.flatMap escape ++ '"' :: text) =
      some (done.reverse ++ cs.map .char, text) := by
  induction cs generalizing done with
  | nil => simp [scanString]
  | cons c cs ih =>
      rw [List.flatMap_cons, List.append_assoc, scanString_escape, ih]
      simp

theorem assemble_map_char (done cs : List Char) :
    assemble done (cs.map .char) = some (String.ofList (done.reverse ++ cs)) := by
  induction cs generalizing done with
  | nil => simp [assemble]
  | cons c cs ih =>
      rw [List.map_cons, assemble, ih]
      simp

/-- A string literal with any text, or with none, is read back. -/
theorem scan_writeText (text : Text) (rest : List Char) :
    Token.scan (writeText text ++ rest) = some (.string text, rest) := by
  cases text with
  | none => rfl
  | some s =>
      have hpieces := scanString_flatMap_escape [] s.toList rest
      simp only [writeText, List.cons_append, List.append_assoc, List.nil_append, Token.scan,
        hpieces, Option.map_some, List.reverse_nil, assemble_map_char, String.ofList_toList]

/-! ## Numbers -/

/-- Nothing of a number is left at the front of a text. -/
def Delimited (rest : List Char) : Prop :=
  ∀ c ∈ rest.head?, c.isDigit = false ∧ c ≠ '.' ∧ c ≠ 'e' ∧ c ≠ 'E'

theorem delimited_nil : Delimited [] := by
  intro c hc
  cases hc

theorem delimited_cons {c : Char} {rest : List Char} (hdigit : c.isDigit = false)
    (hpoint : c ≠ '.') (hlower : c ≠ 'e') (hupper : c ≠ 'E') : Delimited (c :: rest) := by
  intro d hd
  cases hd
  exact ⟨hdigit, hpoint, hlower, hupper⟩

theorem Delimited.append {text rest : List Char} (htext : Delimited text)
    (hrest : Delimited rest) : Delimited (text ++ rest) := by
  cases text with
  | nil => exact hrest
  | cons c text => exact htext

section

variable {rest : List Char}

theorem takeWhile_isDigit_append (h : Delimited rest) {digits : List Char}
    (hdigits : ∀ c ∈ digits, c.isDigit = true) :
    (digits ++ rest).takeWhile Char.isDigit = digits ∧
      (digits ++ rest).dropWhile Char.isDigit = rest := by
  rw [List.takeWhile_append_of_pos hdigits, List.dropWhile_append_of_pos hdigits]
  cases rest with
  | nil => exact ⟨List.append_nil digits, rfl⟩
  | cons c rest =>
      have hc := (h c rfl).1
      rw [List.takeWhile_cons_of_neg (by simp [hc]), List.dropWhile_cons_of_neg (by simp [hc])]
      exact ⟨List.append_nil digits, rfl⟩

theorem scanFraction_of_delimited (h : Delimited rest) : scanFraction rest = some ([], rest) := by
  rw [scanFraction.eq_def]
  split
  · exact absurd rfl (h '.' rfl).2.1
  · rfl

theorem scanExponent_of_delimited (h : Delimited rest) :
    scanExponent rest = some (none, rest) := by
  cases rest with
  | nil => rfl
  | cons c rest =>
      have hc := (h c rfl).2.2
      rw [scanExponent.eq_def]
      exact if_neg (not_or.mpr hc)

theorem scanUnsigned_append (h : Delimited rest) (negative : Bool) {digits : List Char}
    (hdigits : ∀ c ∈ digits, c.isDigit = true) (hwhole : isWhole digits = true) :
    scanUnsigned negative (digits ++ rest) = some ({ negative, whole := digits }, rest) := by
  obtain ⟨htake, hdrop⟩ := takeWhile_isDigit_append h hdigits
  simp only [scanUnsigned, htake, hdrop, hwhole, scanFraction_of_delimited h, Option.bind_eq_bind,
    Option.bind_some, scanExponent_of_delimited h]
  rfl

end

/-- The digits of a positive number do not begin with a zero. -/
theorem exists_leadingDigit {n : Nat} (hn : n ≠ 0) :
    ∃ digit digits, Nat.toDigits 10 n = digit :: digits ∧ digit ≠ '0' := by
  induction n using Nat.strongRecOn with
  | ind n ih =>
      by_cases hlt : n < 10
      · have hdigit : ∀ d < 10, d ≠ 0 → Nat.digitChar d ≠ '0' := by decide
        exact ⟨Nat.digitChar n, [], Nat.toDigits_of_lt_base hlt, hdigit n hlt hn⟩
      · obtain ⟨digit, digits, hdigits, hne⟩ := ih (n / 10) (by omega) (by omega)
        refine ⟨digit, digits ++ [Nat.digitChar (n % 10)], ?_, hne⟩
        rw [Nat.toDigits_of_base_le (by decide) (by omega), hdigits, List.cons_append]

theorem isWhole_toDigits (n : Nat) : isWhole (Nat.toDigits 10 n) = true := by
  by_cases hn : n = 0
  · subst hn
    rfl
  · obtain ⟨digit, digits, hdigits, hne⟩ := exists_leadingDigit hn
    rw [hdigits, isWhole.eq_def]
    split
    · next heq => cases heq
    · rfl
    · next heq =>
      cases heq
      exact bne_iff_ne.mpr hne

theorem isDigit_toDigits (n : Nat) : ∀ c ∈ Nat.toDigits 10 n, c.isDigit = true :=
  fun _ hc => Nat.isDigit_of_mem_toDigits (by decide) (by decide) hc

theorem scanNumber_write (n : Int) {rest : List Char} (h : Delimited rest) :
    scanNumber ((Number.ofInt n).write ++ rest) = some (.ofInt n, rest) := by
  have hscan := scanUnsigned_append h (decide (n < 0)) (isDigit_toDigits n.natAbs)
    (isWhole_toDigits n.natAbs)
  have hwrite : (Number.ofInt n).write ++ rest =
      (if n < 0 then ['-'] else []) ++ (Nat.toDigits 10 n.natAbs ++ rest) := by
    simp [Number.write, Number.ofInt]
  rw [hwrite]
  by_cases hneg : n < 0
  · rw [decide_eq_true hneg] at hscan
    rw [if_pos hneg, List.cons_append, List.nil_append, scanNumber, hscan, Number.ofInt,
      decide_eq_true hneg]
  · rw [decide_eq_false hneg] at hscan
    rw [if_neg hneg, List.nil_append, scanNumber.eq_def]
    split
    · next heq =>
      -- the first digit is no minus
      cases hdigits : Nat.toDigits 10 n.natAbs with
      | nil => exact absurd hdigits Nat.toDigits_ne_nil
      | cons digit digits =>
          rw [hdigits] at heq
          cases heq
          have hminus := isDigit_toDigits n.natAbs '-' (by rw [hdigits]; exact List.mem_cons_self)
          cases hminus
    · rw [hscan, Number.ofInt, decide_eq_false hneg]

/-- The marks and words that are tokens of their own do not begin a number. -/
theorem Token.scan_of_scanNumber {text rest : List Char} {literal : Number}
    (h : scanNumber text = some (literal, rest)) :
    Token.scan text = some (.number literal, rest) := by
  rw [Token.scan.eq_def]
  split
  case h_11 => rw [h]; rfl
  all_goals cases h

theorem scan_write (n : Int) {rest : List Char} (h : Delimited rest) :
    Token.scan ((Number.ofInt n).write ++ rest) = some (.number (.ofInt n), rest) :=
  Token.scan_of_scanNumber (scanNumber_write n h)

theorem decimal_toDigits (n : Nat) : decimal (Nat.toDigits 10 n) = n := by
  rw [decimal, ← Nat.ofDigitChars_eq_foldl, Nat.ofDigitChars_ten_toDigits]

/-- The literal of an integer stands for it. -/
theorem Number.toInt?_ofInt (n : Int) : (ofInt n).toInt? = some n := by
  simp only [ofInt, toInt?, decimal_toDigits]
  by_cases hneg : n < 0
  · have hne : n.natAbs ≠ 0 := by omega
    have habs : -(n.natAbs : Int) = n := by omega
    simp only [hneg, hne, habs, decide_true, Bool.not_true, if_false, Bool.false_eq_true]
  · have habs : (n.natAbs : Int) = n := by omega
    simp only [hneg, habs, decide_false, Bool.not_false, if_true]

end TaintFlow.Json
