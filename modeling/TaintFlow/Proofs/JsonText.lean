import TaintFlow.Json.Parser
import TaintFlow.Proofs.Literals

/-!
# Values are read back

A text is read in two stages, and a written value is followed through both. Cutting it
gives the tokens of the value, whatever the style: the breaks between the lines are
blank, and behind every number there is a mark (`Integral.cuts`). Folding the tokens of
a value over the reader leaves the value behind and the open frames as they were
(`Value.read_tokens`). Together, every value whose numbers are integers is read back
from its text.
-/

namespace TaintFlow.Json

/-! ## Tokens -/

mutual

/-- The tokens of a value. -/
def Value.tokens : Value → List Token
  | .null => [.null]
  | .bool value => [.bool value]
  | .number literal => [.number literal]
  | .string text => [.string text]
  | .array [] => [.openArray, .closeArray]
  | .array (item :: items) =>
    .openArray :: (item.tokens ++ (itemTokens items ++ [.closeArray]))
  | .object [] => [.openObject, .closeObject]
  | .object ((key, value) :: members) =>
    .openObject :: .string key :: .colon ::
      (value.tokens ++ (memberTokens members ++ [.closeObject]))

/-- The tokens of the items behind the first of an array. -/
def itemTokens : List Value → List Token
  | [] => []
  | item :: items => .comma :: (item.tokens ++ itemTokens items)

/-- The tokens of the members behind the first of an object. -/
def memberTokens : List (Text × Value) → List Token
  | [] => []
  | (key, value) :: members =>
    .comma :: .string key :: .colon :: (value.tokens ++ memberTokens members)

end

/-- A value of which every number is an integer. -/
inductive Value.Integral : Value → Prop where
  | null : Integral .null
  | bool (value : Bool) : Integral (.bool value)
  | int (n : Int) : Integral (.int n)
  | string (text : Text) : Integral (.string text)
  | array (items : List Value) (h : ∀ item ∈ items, item.Integral) : Integral (.array items)
  | object (members : List (Text × Value)) (h : ∀ member ∈ members, member.2.Integral) :
      Integral (.object members)

/-! ## Cutting -/

/-- No token begins with a blank. -/
theorem Token.scan_blank {c : Char} (hc : isBlank c = true) (text : List Char) :
    Token.scan (c :: text) = none := by
  simp only [isBlank, Bool.or_eq_true, beq_iff_eq] at hc
  rcases hc with ((rfl | rfl) | rfl) | rfl
  · rfl
  · rfl
  · rfl
  · rfl

theorem tokenizeOnto_eq (done : List Token) (text : List Char) :
    tokenizeOnto done text =
      match text.dropWhile isBlank with
      | [] => some done.reverse
      | c :: rest =>
        match Token.scan (c :: rest) with
        | none => none
        | some (token, rest) => tokenizeOnto (token :: done) rest := by
  cases hdrop : text.dropWhile isBlank with
  | nil =>
      rw [tokenizeOnto]
      split
      · rfl
      · next h =>
        rw [hdrop] at h
        cases h
  | cons c tail =>
      rw [tokenizeOnto]
      split
      · next h =>
        rw [hdrop] at h
        cases h
      · next h =>
        rw [hdrop] at h
        cases h
        dsimp only
        split
        · next hscan => rw [hscan]
        · next hscan => rw [hscan]

theorem tokenizeOnto_blanks {gap : List Char} (hgap : ∀ c ∈ gap, isBlank c = true)
    (done : List Token) (text : List Char) :
    tokenizeOnto done (gap ++ text) = tokenizeOnto done text := by
  rw [tokenizeOnto_eq done (gap ++ text), List.dropWhile_append_of_pos hgap, ← tokenizeOnto_eq]

theorem tokenizeOnto_scan {text rest : List Char} {token : Token}
    (h : Token.scan text = some (token, rest)) (done : List Token) :
    tokenizeOnto done text = tokenizeOnto (token :: done) rest := by
  rw [tokenizeOnto_eq done text]
  cases text with
  | nil => cases h
  | cons c tail =>
      have hc : ¬ isBlank c = true := by
        intro hc
        rw [Token.scan_blank hc] at h
        cases h
      rw [List.dropWhile_cons_of_neg hc]
      simp only [h]

/-- The text is cut into the tokens, in front of anything that does not prolong a number. -/
def Cuts (text : List Char) (tokens : List Token) : Prop :=
  ∀ done rest, Delimited rest →
    tokenizeOnto done (text ++ rest) = tokenizeOnto (tokens.reverse ++ done) rest

namespace Cuts

variable {text more : List Char} {token : Token} {tokens others : List Token}

theorem single
    (hscan : ∀ rest, Delimited rest → Token.scan (text ++ rest) = some (token, rest)) :
    Cuts text [token] :=
  fun done rest hrest => tokenizeOnto_scan (hscan rest hrest) done

theorem token_append (hscan : ∀ rest, Token.scan (text ++ rest) = some (token, rest))
    (h : Cuts more tokens) : Cuts (text ++ more) (token :: tokens) := by
  intro done rest hrest
  rw [List.append_assoc, tokenizeOnto_scan (hscan (more ++ rest)), h _ rest hrest,
    List.reverse_cons, List.append_assoc]
  rfl

theorem mark {c : Char} (hscan : ∀ rest, Token.scan (c :: rest) = some (token, rest))
    (h : Cuts text tokens) : Cuts (c :: text) (token :: tokens) :=
  show Cuts ([c] ++ text) _ from token_append hscan h

theorem blanks {gap : List Char} (hgap : ∀ c ∈ gap, isBlank c = true) (h : Cuts text tokens) :
    Cuts (gap ++ text) tokens := by
  intro done rest hrest
  rw [List.append_assoc, tokenizeOnto_blanks hgap, h done rest hrest]

theorem append (h : Cuts text tokens) (hmore : Cuts more others) (hmark : Delimited more) :
    Cuts (text ++ more) (tokens ++ others) := by
  intro done rest hrest
  rw [List.append_assoc, h done _ (hmark.append hrest), hmore _ rest hrest, List.reverse_append,
    List.append_assoc]

end Cuts

theorem isBlank_lineBreak (style : Style) (level : Nat) :
    ∀ c ∈ style.lineBreak level, isBlank c = true := by
  intro c hc
  cases style with
  | compact => cases hc
  | indented =>
      rcases List.mem_cons.mp hc with rfl | hspace
      · rfl
      · rw [List.eq_of_mem_replicate hspace]
        rfl

theorem isBlank_colonGap (style : Style) : ∀ c ∈ style.colonGap, isBlank c = true := by
  cases style with
  | compact => exact fun c hc => nomatch hc
  | indented =>
      intro c hc
      rw [List.mem_singleton.mp hc]
      rfl

theorem delimited_lineBreak (style : Style) (level : Nat) :
    Delimited (style.lineBreak level) := by
  cases style with
  | compact => exact delimited_nil
  | indented => exact delimited_cons (by decide) (by decide) (by decide) (by decide)

theorem delimited_writeItems (style : Style) (level : Nat) (items : List Value) :
    Delimited (writeItems style level items) := by
  cases items with
  | nil => exact delimited_nil
  | cons item items => exact delimited_cons (by decide) (by decide) (by decide) (by decide)

theorem delimited_writeMembers (style : Style) (level : Nat) (members : List (Text × Value)) :
    Delimited (writeMembers style level members) := by
  cases members with
  | nil => exact delimited_nil
  | cons member members => exact delimited_cons (by decide) (by decide) (by decide) (by decide)

section

variable (style : Style) (level : Nat)

theorem cuts_writeItems {items : List Value}
    (h : ∀ item ∈ items, Cuts (item.write style level) item.tokens) :
    Cuts (writeItems style level items) (itemTokens items) := by
  induction items with
  | nil => exact fun _ _ _ => rfl
  | cons item items ih =>
      rw [writeItems, itemTokens, List.append_assoc]
      refine .mark (fun _ => rfl) (.blanks (isBlank_lineBreak style level) ?_)
      refine .append (h item List.mem_cons_self) ?_ (delimited_writeItems style level items)
      exact ih fun item hitem => h item (List.mem_cons_of_mem _ hitem)

theorem cuts_writeMembers {members : List (Text × Value)}
    (h : ∀ member ∈ members, Cuts (member.2.write style level) member.2.tokens) :
    Cuts (writeMembers style level members) (memberTokens members) := by
  induction members with
  | nil => exact fun _ _ _ => rfl
  | cons member members ih =>
      obtain ⟨key, value⟩ := member
      rw [writeMembers, memberTokens, List.append_assoc, List.append_assoc]
      refine .mark (fun _ => rfl) (.blanks (isBlank_lineBreak style level) ?_)
      refine .token_append (scan_writeText key) (.mark (fun _ => rfl) ?_)
      refine .blanks (isBlank_colonGap style) ?_
      refine .append (h _ List.mem_cons_self) ?_ (delimited_writeMembers style level members)
      exact ih fun member hmember => h member (List.mem_cons_of_mem _ hmember)

/-- What stands between the marks of an array or an object, and the mark that closes it. -/
theorem Cuts.enclosed {first more : List Char} {tokens others : List Token} {close : Char}
    {token : Token} (hfirst : Cuts first tokens) (hmore : Cuts more others)
    (hmark : Delimited more) (hclose : Delimited [close])
    (hscan : ∀ rest, Token.scan (close :: rest) = some (token, rest)) :
    Cuts (first ++ (more ++ (style.lineBreak level ++ [close])))
      (tokens ++ (others ++ [token])) := by
  have hbreak : Delimited (style.lineBreak level ++ [close]) :=
    (delimited_lineBreak style level).append hclose
  have hend : Cuts (style.lineBreak level ++ [close]) [token] :=
    .blanks (isBlank_lineBreak style level) (.single fun rest _ => hscan rest)
  exact hfirst.append (hmore.append hend hbreak) (hmark.append hbreak)

end

/-- A written value is cut into its tokens, in either style and at any depth. -/
theorem Value.Integral.cuts {value : Value} (h : value.Integral) (style : Style) (level : Nat) :
    Cuts (value.write style level) value.tokens := by
  induction h generalizing level with
  | null => exact .single fun _ _ => rfl
  | bool value =>
      cases value with
      | true => exact .single fun _ _ => rfl
      | false => exact .single fun _ _ => rfl
  | int n => exact .single fun _ hrest => scan_write n hrest
  | string text => exact .single fun rest _ => scan_writeText text rest
  | array items _ ih =>
      cases items with
      | nil => exact .mark (fun _ => rfl) (.single fun _ _ => rfl)
      | cons item items =>
          rw [write, tokens, List.append_assoc, List.append_assoc, List.append_assoc]
          refine .mark (fun _ => rfl) (.blanks (isBlank_lineBreak style _) ?_)
          refine .enclosed style level (ih item List.mem_cons_self _) ?_
            (delimited_writeItems style _ items)
            (delimited_cons (by decide) (by decide) (by decide) (by decide)) fun _ => rfl
          exact cuts_writeItems style _ fun item hitem => ih item (List.mem_cons_of_mem _ hitem) _
  | object members _ ih =>
      cases members with
      | nil => exact .mark (fun _ => rfl) (.single fun _ _ => rfl)
      | cons member members =>
          obtain ⟨key, value⟩ := member
          rw [write, tokens, List.append_assoc, List.append_assoc, List.append_assoc,
            List.append_assoc]
          refine .mark (fun _ => rfl) (.blanks (isBlank_lineBreak style _) ?_)
          refine .token_append (scan_writeText key) (.mark (fun _ => rfl) ?_)
          refine .blanks (isBlank_colonGap style) ?_
          refine .enclosed style level (ih _ List.mem_cons_self _) ?_
            (delimited_writeMembers style _ members)
            (delimited_cons (by decide) (by decide) (by decide) (by decide)) fun _ => rfl
          exact cuts_writeMembers style _ fun member hmember =>
            ih member (List.mem_cons_of_mem _ hmember) _

theorem Value.Integral.tokenize_render {value : Value} (h : value.Integral) (style : Style) :
    tokenize (value.render style).toList = some value.tokens := by
  have hcuts := h.cuts style 0 [] [] delimited_nil
  rw [List.append_nil, List.append_nil, tokenizeOnto_eq value.tokens.reverse []] at hcuts
  rw [tokenize, render, String.toList_ofList, hcuts]
  exact congrArg some (List.reverse_reverse value.tokens)

/-! ## Reading -/

/-- A value does not begin with the end of an array. -/
theorem Value.exists_tokens (value : Value) :
    ∃ token tokens, value.tokens = token :: tokens ∧ token ≠ .closeArray := by
  cases value with
  | null => exact ⟨_, _, rfl, by decide⟩
  | bool value => exact ⟨_, _, rfl, nofun⟩
  | number literal => exact ⟨_, _, rfl, nofun⟩
  | string text => exact ⟨_, _, rfl, nofun⟩
  | array items =>
      cases items with
      | nil => exact ⟨_, _, rfl, by decide⟩
      | cons item items => exact ⟨_, _, rfl, by decide⟩
  | object members =>
      cases members with
      | nil => exact ⟨_, _, rfl, by decide⟩
      | cons member members => exact ⟨_, _, rfl, by decide⟩

theorem Reader.step_atFirstItem {token : Token} (h : token ≠ .closeArray)
    (frames : List Frame) :
    step (.atFirstItem frames) token = step (.atValue (.array [] :: frames)) token := by
  cases token with
  | closeArray => exact absurd rfl h
  | _ => rfl

/-- The first item of an array is read as a value is anywhere else. -/
theorem Value.foldlM_atFirstItem (value : Value) (more : List Token) (frames : List Frame) :
    (value.tokens ++ more).foldlM Reader.step (.atFirstItem frames) =
      (value.tokens ++ more).foldlM Reader.step (.atValue (.array [] :: frames)) := by
  obtain ⟨token, tokens, htokens, hne⟩ := value.exists_tokens
  rw [htokens, List.cons_append, List.foldlM_cons, List.foldlM_cons, Reader.step_atFirstItem hne]

mutual

theorem Value.read_tokens : ∀ (value : Value) (frames : List Frame),
    value.tokens.foldlM Reader.step (.atValue frames) = some (.behind value frames)
  | .null, _ => rfl
  | .bool _, _ => rfl
  | .number _, _ => rfl
  | .string _, _ => rfl
  | .array [], _ => rfl
  | .array (item :: items), frames => by
      have hitem := item.read_tokens (.array [] :: frames)
      have hitems := read_itemTokens items item [] frames
      rw [Value.tokens, List.foldlM_cons]
      show (item.tokens ++ _).foldlM Reader.step (.atFirstItem frames) = _
      rw [item.foldlM_atFirstItem, List.foldlM_append, hitem]
      exact hitems
  | .object [], _ => rfl
  | .object ((key, value) :: members), frames => by
      have hvalue := value.read_tokens (.object [] key :: frames)
      have hmembers := read_memberTokens members value key [] frames
      rw [Value.tokens]
      show (value.tokens ++ _).foldlM Reader.step (.atValue (.object [] key :: frames)) = _
      rw [List.foldlM_append, hvalue]
      exact hmembers

theorem read_itemTokens : ∀ (items : List Value) (item : Value) (done : List Value)
    (frames : List Frame),
    (itemTokens items ++ [Token.closeArray]).foldlM Reader.step
        (.behind item (.array done :: frames)) =
      some (.behind (.array (done.reverse ++ item :: items)) frames)
  | [], item, done, frames => by
      show some (Reader.behind (.array (item :: done).reverse) frames) = _
      rw [List.reverse_cons]
  | next :: items, item, done, frames => by
      have hnext := next.read_tokens (.array (item :: done) :: frames)
      have hitems := read_itemTokens items next (item :: done) frames
      rw [itemTokens, List.cons_append, List.append_assoc, List.foldlM_cons]
      show (next.tokens ++ _).foldlM Reader.step (.atValue (.array (item :: done) :: frames)) = _
      rw [List.foldlM_append, hnext]
      refine hitems.trans ?_
      rw [List.reverse_cons, List.append_assoc]
      rfl

theorem read_memberTokens : ∀ (members : List (Text × Value)) (value : Value) (key : Text)
    (done : List (Text × Value)) (frames : List Frame),
    (memberTokens members ++ [Token.closeObject]).foldlM Reader.step
        (.behind value (.object done key :: frames)) =
      some (.behind (.object (done.reverse ++ (key, value) :: members)) frames)
  | [], value, key, done, frames => by
      show some (Reader.behind (.object ((key, value) :: done).reverse) frames) = _
      rw [List.reverse_cons]
  | (name, next) :: members, value, key, done, frames => by
      have hnext := next.read_tokens (.object ((key, value) :: done) name :: frames)
      have hmembers := read_memberTokens members next name ((key, value) :: done) frames
      rw [memberTokens]
      show ((next.tokens ++ memberTokens members) ++ [Token.closeObject]).foldlM Reader.step
        (.atValue (.object ((key, value) :: done) name :: frames)) = _
      rw [List.append_assoc, List.foldlM_append, hnext]
      refine hmembers.trans ?_
      rw [List.reverse_cons, List.append_assoc]
      rfl

end

theorem Value.ofTokens?_tokens (value : Value) : ofTokens? value.tokens = some value := by
  rw [ofTokens?, value.read_tokens]
  rfl

/-- A value whose numbers are integers is read back from its text in either style. -/
theorem Value.Integral.parse?_render {value : Value} (h : value.Integral) (style : Style) :
    parse? (value.render style) = some value := by
  rw [parse?, h.tokenize_render]
  exact value.ofTokens?_tokens

end TaintFlow.Json
