/-
# DeferFetch.Parser.Basic — parsers over a list of tokens.

A parser reads tokens off the front of a list and writes diagnostics. It may fail, and the tokens it
has read by then stay read. That tokens leave the list only from its front, that no diagnostic is
taken back, and that a token which stands for a lexical error is reported exactly when it is read,
holds of every parser by its type (`Follows`).

Decisions are made on the kinds of at most three tokens ahead.
-/
import DeferFetch.Syntax.Declaration

namespace DeferFetch

/-! ## What can be wrong -/

/-- **`Expectation`** — what the parser was looking for. -/
inductive Expectation where
  | packageName
  | importedName
  | typeName
  | annotationName
  | semicolon
  | openingBrace
  | typeWord
  | enumConstant
  | token
  | openingBracket
  | atSign
  | commaOrParenthesis
  | elementValue
  | commaOrBrace
  | endOfInput
deriving DecidableEq, Repr, Inhabited

/-- How an error message names what was looked for. -/
def Expectation.text : Expectation → String
  | .packageName => "a package name"
  | .importedName => "an imported name"
  | .typeName => "a type name"
  | .annotationName => "an annotation name"
  | .semicolon => "`;`"
  | .openingBrace => "`\x7b`"
  | .typeWord => "`class`, `interface`, `enum`, `record` or `@interface`"
  | .enumConstant => "an enum constant"
  | .token => "a token"
  | .openingBracket => "`(`, `\x7b` or `[`"
  | .atSign => "`@`"
  | .commaOrParenthesis => "`,` or `)`"
  | .elementValue => "an element value"
  | .commaOrBrace => "`,` or `\x7d`"
  | .endOfInput => "end of input"

/-- **`SyntaxError`** — why the tokens form no file or annotation. -/
inductive SyntaxError where
  | unexpected (expected : Expectation)
  | unclosed (delimiter : Delimiter) (opening : Token)
  | mismatched (delimiter : Delimiter) (opening : Token)
  | nestingTooDeep
  | modifierOnPackage (modifier : Modifier)
  | unnamedAmongOthers (argument : Option Token)

namespace SyntaxError

/-- The span of the token ahead, or the default one at the end of a token list. -/
def spanOf (next : Option Token) : Span := (next.map Token.span).getD {}

/-- The note that points at an opening bracket. -/
def openedHere (delimiter : Delimiter) (opening : Token) : Note :=
  .pointing ("`" ++ delimiter.openingText ++ "` opened here") opening.span

/-- The token that was found, as an error message names it; none at the end of the input. -/
def found (next : Option Token) : Option String :=
  (next.filter (·.kind ≠ .eof)).map (·.kind.describe)

/-- The sentence that reports an error met before the token `next`. -/
def message (next : Option Token) : SyntaxError → String
  | .unexpected expected =>
    "expected " ++ expected.text ++ ", found "
      ++ ((found next).map fun text => "`" ++ text ++ "`").getD "end of input"
  | .unclosed delimiter _ => "unclosed `" ++ delimiter.openingText ++ "`"
  | .mismatched delimiter _ =>
    "mismatched delimiter: expected `" ++ delimiter.closingText ++ "`, found `"
      ++ (next.map Token.text).getD "" ++ "`"
  | .nestingTooDeep => "maximum nesting depth exceeded"
  | .modifierOnPackage modifier =>
    "modifier `" ++ Text.trim (print modifier.tokens)
      ++ "` is not allowed on a package declaration"
  | .unnamedAmongOthers _ => "an element value without a name must be the only argument"

/-- What the error is about: usually the token `next`. -/
def span (next : Option Token) : SyntaxError → Span
  | .modifierOnPackage modifier => modifier.first.span
  | .unnamedAmongOthers argument => spanOf argument
  | _ => spanOf next

/-- The class of an error met before the token `next`. -/
def kind (next : Option Token) : SyntaxError → Diagnostic.Kind
  | .unexpected expected =>
    match found next with
    | none => .unexpectedEnd [expected.text]
    | some text => .unexpectedToken [expected.text] text
  | .unclosed delimiter _ => .unclosedDelimiter delimiter.openingText
  | .mismatched delimiter _ =>
    .mismatchedDelimiter delimiter.closingText ((next.map Token.text).getD "")
  | .nestingTooDeep => .nestingTooDeep
  | .modifierOnPackage _ => .invalidSyntax
  | .unnamedAmongOthers _ => .invalidSyntax

/-- The remarks on the error. -/
def notes : SyntaxError → List Note
  | .unclosed delimiter opening =>
    [openedHere delimiter opening, .help ("Add a closing `" ++ delimiter.closingText ++ "`")]
  | .mismatched delimiter opening => [openedHere delimiter opening]
  | .modifierOnPackage _ => [.help "Only annotations may precede `package`"]
  | _ => []

/-- **`e.diagnostic next`** — the report on an error that is met before the token `next`. -/
def diagnostic (next : Option Token) (e : SyntaxError) : Diagnostic :=
  ⟨e.message next, e.span next, e.kind next, e.notes⟩

/-- A syntax error is never reported as a lexical one. -/
theorem kind_ne_lexical (next : Option Token) (e : SyntaxError) : e.kind next ≠ .lexical := by
  cases e with
  | unexpected expected => cases h : found next <;> simp [kind, h]
  | _ => simp [kind]

end SyntaxError

/-! ## States and parsers -/

/-- **`ParserState`** — the tokens still to be read, how many have been read, and what has been
reported so far. -/
structure ParserState where
  rest : List Token
  position : Nat := 0
  diagnostics : List Diagnostic := []

/-- The lexical errors among some diagnostics. -/
def lexicalErrors (ds : List Diagnostic) : List Diagnostic := ds.filter (·.kind = .lexical)

namespace ParserState

/-- **`s.consume n`** — reads `n` tokens, reporting those that stand for lexical errors. -/
def consume (s : ParserState) (n : Nat) : ParserState :=
  let consumed := s.rest.take n
  { rest := s.rest.drop n
    position := s.position + consumed.length
    diagnostics := s.diagnostics ++ consumed.filterMap Token.diagnostic? }

/-- Adds the report on a syntax error before the next token. -/
def report (s : ParserState) (e : SyntaxError) : ParserState :=
  { s with diagnostics := s.diagnostics ++ [e.diagnostic s.rest.head?] }

end ParserState

/-- **`Follows s t`** — `t` can come after `s`: some tokens have been read and counted, just the
lexical errors among them have been reported as such, and no diagnostic is gone. -/
structure Follows (s t : ParserState) : Prop where
  read : ∃ consumed, s.rest = consumed ++ t.rest ∧
    t.position = s.position + consumed.length ∧
    lexicalErrors t.diagnostics =
      lexicalErrors s.diagnostics ++ consumed.filterMap Token.diagnostic?
  kept : s.diagnostics <+: t.diagnostics

namespace Follows

protected theorem refl (s : ParserState) : Follows s s := ⟨⟨[], by simp⟩, List.prefix_refl _⟩

protected theorem trans {s t u : ParserState} (h₁ : Follows s t) (h₂ : Follows t u) :
    Follows s u := by
  obtain ⟨⟨xs, hs, ps, ds⟩, k₁⟩ := h₁
  obtain ⟨⟨ys, ht, pt, dt⟩, k₂⟩ := h₂
  refine ⟨⟨xs ++ ys, ?_, ?_, ?_⟩, k₁.trans k₂⟩
  · rw [hs, ht, List.append_assoc]
  · rw [pt, ps, List.length_append, Nat.add_assoc]
  · rw [dt, ds, List.filterMap_append, List.append_assoc]

/-- What is reported of tokens is lexical. -/
theorem lexicalErrors_filterMap (ts : List Token) :
    lexicalErrors (ts.filterMap Token.diagnostic?) = ts.filterMap Token.diagnostic? := by
  refine List.filter_eq_self.2 fun d hd => ?_
  obtain ⟨t, -, ht⟩ := List.mem_filterMap.1 hd
  unfold Token.diagnostic? at ht
  split at ht
  · cases ht; rfl
  · cases ht

protected theorem consume (s : ParserState) (n : Nat) : Follows s (s.consume n) := by
  refine ⟨⟨s.rest.take n, (List.take_append_drop n s.rest).symm, rfl, ?_⟩, List.prefix_append _ _⟩
  rw [← lexicalErrors_filterMap (s.rest.take n)]
  exact List.filter_append ..

protected theorem report (s : ParserState) (e : SyntaxError) : Follows s (s.report e) := by
  refine ⟨⟨[], rfl, rfl, ?_⟩, List.prefix_append _ _⟩
  simp [ParserState.report, lexicalErrors, SyntaxError.diagnostic, e.kind_ne_lexical]

/-- What has been read and what has not are as many tokens as before. -/
theorem position_add_length {s t : ParserState} (h : Follows s t) :
    t.position + t.rest.length = s.position + s.rest.length := by
  obtain ⟨⟨xs, hs, ps, -⟩, -⟩ := h
  rw [hs, ps, List.length_append, Nat.add_assoc]

/-- Reading never makes the token list longer. -/
theorem length_le {s t : ParserState} (h : Follows s t) : t.rest.length ≤ s.rest.length := by
  obtain ⟨⟨xs, hs, -⟩, -⟩ := h
  rw [hs, List.length_append]
  exact Nat.le_add_left ..

/-- After a token has been read, fewer are left. -/
theorem length_lt {s t : ParserState} (h : Follows s t) (progress : s.position < t.position) :
    t.rest.length < s.rest.length := by
  have := h.position_add_length
  omega

end Follows

/-- **`Parser α`** — reads tokens and gives a result, or none if it fails. -/
structure Parser (α : Type) where
  run : ParserState → Option α × ParserState
  follows : ∀ s, Follows s (run s).2

namespace Parser

variable {α β σ : Type}

/-- Runs `next` on the result of `p`, unless `p` fails. -/
def andThen (p : Parser α) (next : α → Parser β) : Parser β where
  run s :=
    match p.run s with
    | (some a, t) => (next a).run t
    | (none, t) => (none, t)
  follows s := by
    have h := p.follows s
    revert h
    rcases p.run s with ⟨_ | a, t⟩
    · exact id
    · exact fun h => h.trans ((next a).follows t)

instance : Monad Parser where
  pure a := ⟨fun s => (some a, s), .refl⟩
  bind := andThen

@[simp] theorem run_pure (a : α) (s : ParserState) : (pure a : Parser α).run s = (some a, s) := rfl

theorem run_bind (p : Parser α) (next : α → Parser β) (s : ParserState) :
    (p >>= next).run s =
      match p.run s with
      | (some a, t) => (next a).run t
      | (none, t) => (none, t) := rfl

/-! ## Looking ahead -/

/-- The next token. -/
def peek : Parser (Option Token) := ⟨fun s => (some s.rest.head?, s), .refl⟩

/-- The kinds of the next three tokens, or of fewer at the end. -/
def ahead : Parser (List TokenKind) :=
  ⟨fun s => (some ((s.rest.take 3).map Token.kind), s), .refl⟩

/-! ## Reporting and failing -/

/-- Reports an error before the next token and goes on. -/
def report (e : SyntaxError) : Parser Unit := ⟨fun s => (some (), s.report e), (.report · e)⟩

/-- Reports an error before the next token and fails. -/
def fail (e : SyntaxError) : Parser α := ⟨fun s => (none, s.report e), (.report · e)⟩

/-- Fails because something else was expected. -/
def unexpected (expected : Expectation) : Parser α := fail (.unexpected expected)

/-! ## Reading -/

/-- Reads the next token, whatever it is. -/
def token : Parser Token where
  run s :=
    match s.rest with
    | t :: _ => (some t, s.consume 1)
    | [] => (none, s.report (.unexpected .token))
  follows s := by
    rcases s with ⟨_ | ⟨t, ts⟩, ds⟩
    · exact .report _ _
    · exact .consume _ 1

/-- Reads the next token if it is of a fitting kind. -/
def expect (fits : TokenKind → Bool) (expected : Expectation) : Parser Token := do
  if (← ahead).head?.any fits then token else unexpected expected

/-! ## Going on after a failure, and going on and on -/

/-- **`p.orSkip count`** — the result of `p` or, if it fails, none after skipping as many tokens as
`count` says. -/
def orSkip (p : Parser α) (count : List Token → Nat) : Parser (Option α) where
  run s :=
    match p.run s with
    | (some a, t) => (some (some a), t)
    | (none, t) => (some none, t.consume (count t.rest))
  follows s := by
    have h := p.follows s
    revert h
    rcases p.run s with ⟨_ | a, t⟩
    · exact fun h => h.trans (.consume t _)
    · exact id

/-- **`Step`** — what one round of a repetition comes to: what the next round starts from, and
perhaps an item, or else the end. -/
inductive Step (α β σ : Type) where
  | again (item : Option α) (next : σ)
  | stop (b : β)

/-- Runs rounds until one stops. A round that has read nothing and would go on ends the repetition
as a failure. -/
def runRounds (round : σ → Parser (Step α β σ)) (a : σ) (s : ParserState) :
    Option (List α × β) × ParserState :=
  match h : (round a).run s with
  | (none, t) => (none, t)
  | (some (.stop b), t) => (some ([], b), t)
  | (some (.again item next), t) =>
    if progress : s.position < t.position then
      have follows : Follows s t := by
        have := (round a).follows s
        rwa [h] at this
      have := follows.length_lt progress
      let (result, u) := runRounds round next t
      (result.map fun (items, b) => (item.toList ++ items, b), u)
    else (none, t)
termination_by s.rest.length

/-- **`rounds round a`** — repeats `round`, starting from `a`, until it stops, and collects the
items. -/
def rounds (round : σ → Parser (Step α β σ)) (a : σ) : Parser (List α × β) where
  run := runRounds round a
  follows s := by
    fun_induction runRounds round a s with
    | case1 a s t h => simpa only [h] using (round a).follows s
    | case2 a s b t h => simpa only [h] using (round a).follows s
    | case3 a s item next t h _ step _ result u hu ih =>
      rw [hu] at ih
      exact step.trans ih
    | case4 a s item next t h => simpa only [h] using (round a).follows s

end Parser

/-! ## What a parse comes to -/

/-- **`ParseResult`** — the tree, if there is one, and everything that was reported. A tree beside
reports is what could be made of the text; it lacks the tokens that were skipped. -/
structure ParseResult (α : Type) where
  tree? : Option α
  diagnostics : List Diagnostic

namespace ParseResult

variable {α : Type}

/-- The tree of a parse without reports. -/
def valid? (r : ParseResult α) : Option α := if r.diagnostics.isEmpty then r.tree? else none

/-- The tree, or the reports if there are any. -/
def toExcept (r : ParseResult α) : Except (List Diagnostic) α :=
  match r.valid? with
  | some a => .ok a
  | none => .error r.diagnostics

end ParseResult

end DeferFetch
