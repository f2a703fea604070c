/-
# DeferFetch.Token.Lexer — the tokens of a text.

The lexemes of the text are placed by a cursor, the blanks and comments among them are gathered as
trivia of the token that follows, and a token without text ends the sequence. Bad text becomes error
tokens, so every text has tokens, and they print as the text they were read from.
-/
import DeferFetch.Token.Lexeme

namespace DeferFetch

/-- The span from one cursor to another. -/
def Cursor.spanTo (start stop : Cursor) (file : Option String) : Span :=
  ⟨start.position, stop.position, file⟩

/-- **`assemble file k pending lexemes`** — the tokens that the lexemes form when the first of them
stands at `k` and the trivia `pending` still waits for its token. -/
def assemble (file : Option String) : Cursor → List Trivia → List Lexeme → List Token
  | k, pending, [] => [⟨.eof, pending, k.spanTo k file⟩]
  | k, pending, ⟨.trivia kind, text⟩ :: more =>
    let next := k.advance text
    assemble file next (pending ++ [⟨kind, String.ofList text, k.spanTo next file⟩]) more
  | k, pending, ⟨.token kind, text⟩ :: more =>
    let next := k.advance text
    ⟨kind, pending, k.spanTo next file⟩ :: assemble file next [] more

/-- **`tokenize source file`** — the tokens of a text that was read from `file`, if from any. -/
def tokenize (source : String) (file : Option String := none) : List Token :=
  assemble file {} [] (lexemes source.toList)

end DeferFetch
