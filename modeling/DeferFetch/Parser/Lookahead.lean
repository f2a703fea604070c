/-
# DeferFetch.Parser.Lookahead — what the kinds of the next tokens begin.

Every test reads the kinds of the next tokens and needs at most three of them. The second part says
how far a parser skips after a failure.
-/
import DeferFetch.Token.Basic

namespace DeferFetch

/-! ## What begins here -/

/-- No token is left, or only the one that ends the text. -/
def atEnd : List TokenKind → Bool
  | [] => true
  | k :: _ => k = .eof

/-- A bracket opens. -/
def atOpening (ks : List TokenKind) : Bool := ks.head?.any TokenKind.isOpening

/-- A bracket closes. -/
def atClosing (ks : List TokenKind) : Bool := ks.head?.any TokenKind.isClosing

/-- The next token is of the kind `k`. -/
def atKind (k : TokenKind) (ks : List TokenKind) : Bool := ks.head? = some k

/-- An annotation begins: an at sign that does not declare an annotation type. -/
def atAnnotation : List TokenKind → Bool
  | .at :: .keyword w :: _ => w ≠ .interfaceWord
  | .at :: _ => true
  | _ => false

/-- A type declaration begins, its modifiers aside: `class`, `interface`, `enum`, `@interface`, or
`record` with a name and then parameters of either sort. -/
def atTypeWord : List TokenKind → Bool
  | .keyword w :: _ => w = .classWord || w = .interfaceWord || w = .enumWord
  | .at :: .keyword w :: _ => w = .interfaceWord
  | .identifier name :: .identifier _ :: k :: _ =>
    name = "record" && (k = .opening .paren || k = .lessThan)
  | _ => false

/-- A type declaration may begin, with its modifiers. -/
def atTypeStart (ks : List TokenKind) : Bool :=
  atTypeWord ks || ks.head?.any fun k => k = .at || k.isModifierKeyword

/-- The word `sealed` is a modifier here: a keyword or a name follows. -/
def atSealed : List TokenKind → Bool
  | .identifier name :: k :: _ => name = "sealed" && (k.isKeyword || k.isIdentifier)
  | _ => false

/-- The words `non-sealed` come next. -/
def atNonSealed : List TokenKind → Bool
  | .identifier non :: .operator minus :: .identifier name :: _ =>
    non = "non" && minus = "-" && name = "sealed"
  | _ => false

/-- A dot and a star come next. -/
def atWildcard : List TokenKind → Bool
  | .dot :: .operator star :: _ => star = "*"
  | _ => false

/-- A dot and an identifier come next. -/
def atSegment : List TokenKind → Bool
  | .dot :: .identifier _ :: _ => true
  | _ => false

/-- A name and an equals sign come next. -/
def atLabel : List TokenKind → Bool
  | .identifier _ :: .equals :: _ => true
  | _ => false

/-! ## How far to skip -/

/-- The kinds of the first three tokens. -/
def kindsAhead (ts : List Token) : List TokenKind := (ts.take 3).map Token.kind

/-- **`skipLength before after depth ts`** — how many tokens to skip, starting within `depth`
groups. Groups are skipped whole, up to the end of the text if they are not closed; a closing
bracket outside a group counts as any token. Outside of groups the skipping stops before tokens of
which `before` holds, and past a token of which `after` holds. -/
def skipLength (before : List TokenKind → Bool) (after : TokenKind → Bool) : Nat → List Token → Nat
  | _, [] => 0
  | 0, t :: ts =>
    if t.kind = .eof || before (kindsAhead (t :: ts)) then 0
    else if after t.kind then 1
    else 1 + skipLength before after (if t.kind.isOpening then 1 else 0) ts
  | depth + 1, t :: ts =>
    if t.kind = .eof then 0
    else if t.kind.isOpening then 1 + skipLength before after (depth + 2) ts
    else if t.kind.isClosing then 1 + skipLength before after depth ts
    else 1 + skipLength before after (depth + 1) ts

/-- **`toNextType ts`** — skips the first tree and then everything before the next type
declaration. -/
def toNextType : List Token → Nat
  | [] => 0
  | t :: ts =>
    if t.kind = .eof then 0
    else 1 + skipLength atTypeStart (fun _ => false) (if t.kind.isOpening then 1 else 0) ts

/-- **`pastSemicolon ts`** — skips through the next semicolon, but no type declaration. -/
def pastSemicolon (ts : List Token) : Nat := skipLength atTypeWord (· = .semicolon) 0 ts

/-- **`toNextMember ts`** — skips through the next semicolon, but not the brace that closes the
body. -/
def toNextMember (ts : List Token) : Nat :=
  skipLength (atKind (.closing .brace)) (· = .semicolon) 0 ts

end DeferFetch
