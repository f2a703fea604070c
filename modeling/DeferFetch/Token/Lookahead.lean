/-
# DeferFetch.Token.Lookahead — a token source read through a buffer.

Looking ahead draws as many tokens from the source as it needs into the buffer, and consuming takes
the first one out of it. What has been buffered, followed by the source, is always what is left of
the tokens.
-/
import DeferFetch.Token.Basic

namespace DeferFetch

/-- **`Lookahead`** — tokens already drawn but not consumed, and those still in the source. -/
structure Lookahead where
  buffer : List Token := []
  source : List Token
deriving Repr

namespace Lookahead

/-- The tokens that are left, buffered or not. -/
def remaining (s : Lookahead) : List Token := s.buffer ++ s.source

/-- **`s.fill n`** — draws tokens until `n` are buffered or the source is empty. -/
def fill (s : Lookahead) (n : Nat) : Lookahead :=
  let missing := n - s.buffer.length
  ⟨s.buffer ++ s.source.take missing, s.source.drop missing⟩

/-- The token `n` places ahead, and the stream after looking. -/
def peekNth (s : Lookahead) (n : Nat) : Option Token × Lookahead :=
  let s := s.fill (n + 1)
  (s.buffer[n]?, s)

/-- The next token, and the stream after looking. -/
def peek (s : Lookahead) : Option Token × Lookahead := s.peekNth 0

/-- The kind of the token `n` places ahead, and the stream after looking. -/
def peekKindNth (s : Lookahead) (n : Nat) : Option TokenKind × Lookahead :=
  let (token, s) := s.peekNth n
  (token.map Token.kind, s)

/-- The next token, taken out of the stream. -/
def consume (s : Lookahead) : Option Token × Lookahead :=
  let s := s.fill 1
  (s.buffer.head?, { s with buffer := s.buffer.tail })

/-- Whether no token is left but perhaps the one that ends the text, and the stream after looking.
-/
def isAtEnd (s : Lookahead) : Bool × Lookahead :=
  let (token, s) := s.peek
  (token.all (·.kind = .eof), s)

/-- Drawing tokens into the buffer leaves the remaining ones as they are. -/
@[simp] theorem remaining_fill (s : Lookahead) (n : Nat) : (s.fill n).remaining = s.remaining := by
  simp [fill, remaining]

end Lookahead

end DeferFetch
