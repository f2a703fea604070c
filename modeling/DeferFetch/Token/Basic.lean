/-
# DeferFetch.Token.Basic — tokens with the blanks and comments before them.

Whatever stands between two tokens belongs to the second as its trivia, and what follows the last
one belongs to the token that ends the text. So a text is the concatenation of its tokens' sources.
-/
import DeferFetch.Token.Kind

namespace DeferFetch

/-- The three forms of text between tokens. -/
inductive TriviaKind where
  | blank
  | lineComment
  | blockComment
deriving DecidableEq, Repr, Inhabited

/-- **`Trivia`** — a run of blanks or one comment, its delimiters included; a line comment stops
before the end of its line. -/
structure Trivia where
  kind : TriviaKind
  text : String
  span : Span := {}
deriving DecidableEq, Repr, Inhabited

/-- The trivia is a comment of either form. -/
def Trivia.isComment (t : Trivia) : Bool := t.kind ≠ .blank

/-- **`Token`** — a token, the trivia before it and the span of its own text. -/
structure Token where
  kind : TokenKind
  trivia : List Trivia := []
  span : Span := {}
deriving DecidableEq, Repr

namespace Token

/-- The token's own text. -/
abbrev text (t : Token) : String := t.kind.text

/-- The text of everything before the token. -/
def leadingText (t : Token) : String := String.join (t.trivia.map Trivia.text)

/-- **`t.source`** — the trivia and then the token, as they stand in the source. -/
def source (t : Token) : String := t.leadingText ++ t.text

/-- **`synthetic kind leading`** — a token that comes from no text, after the blanks `leading`. -/
def synthetic (kind : TokenKind) (leading : String := "") : Token :=
  { kind, trivia := if leading.isEmpty then [] else [⟨.blank, leading, {}⟩] }

/-- **`t.diagnostic?`** — the report on a token that stands for a lexical error. -/
def diagnostic? (t : Token) : Option Diagnostic :=
  match t.kind with
  | .error _ cause => some ⟨cause.message, t.span, .lexical, cause.notes t.span.start⟩
  | _ => none

end Token

/-- **`print tokens`** — the source text of a sequence of tokens. -/
def print (tokens : List Token) : String := String.join (tokens.map Token.source)

end DeferFetch
