/-
# DeferFetch.Token.Kind — what a token can be.

The angle brackets are always tokens of one character, so `>>` is two tokens. Nothing below the
level of declarations is evaluated, hence literals keep only their text.
-/
import DeferFetch.Token.Keyword
import DeferFetch.Diagnostic.Basic

namespace DeferFetch

/-- **`Delimiter`** — a pair of brackets that must nest. -/
inductive Delimiter where
  | paren
  | brace
  | bracket
deriving DecidableEq, Repr, Inhabited

namespace Delimiter

/-- The bracket that opens a group. -/
def openingText : Delimiter → String
  | .paren => "("
  | .brace => "\x7b"
  | .bracket => "["

/-- The bracket that closes a group. -/
def closingText : Delimiter → String
  | .paren => ")"
  | .brace => "\x7d"
  | .bracket => "]"

end Delimiter

/-- **`LexicalError`** — why a piece of text is no token. -/
inductive LexicalError where
  | unterminatedComment
  | unterminatedString
  | unterminatedTextBlock
  | unterminatedCharacter
  | unexpectedCharacter (c : Char)
deriving DecidableEq, Repr, Inhabited

namespace LexicalError

/-- The code point in hexadecimal, with capital digits and at least four of them. -/
def codePoint (c : Char) : String :=
  let digits := Nat.toDigits 16 c.toNat
  String.ofList (List.replicate (4 - digits.length) '0' ++ digits.map Char.toUpper)

/-- **`quoted c`** — the character between backticks. A control or blank character other than the
space would not show, so its escape and its code point are written instead. -/
def quoted (c : Char) : String :=
  if Text.isControl c || (Text.isBlank c && c ≠ ' ') then
    "`\\u\x7b" ++ String.ofList (Nat.toDigits 16 c.toNat) ++ "\x7d` (U+" ++ codePoint c ++ ")"
  else
    "`" ++ String.singleton c ++ "`"

/-- The sentence that reports the error. -/
def message : LexicalError → String
  | .unterminatedComment => "Unterminated block comment"
  | .unterminatedString => "Unterminated string literal"
  | .unterminatedTextBlock => "Unterminated text block"
  | .unterminatedCharacter => "Unterminated character literal"
  | .unexpectedCharacter c => "Unexpected character " ++ quoted c

/-- **`notes e start`** — the remarks on an error whose text starts at `start`. -/
def notes (e : LexicalError) (start : Position) : List Note :=
  match e with
  | .unterminatedComment =>
    [.pointing "Comment started here" (.point start), .help "Add a closing `*/`"]
  | .unterminatedString =>
    [.help "Add a closing `\"`, or use a text block (`\"\"\"`) for multi-line strings"]
  | .unterminatedTextBlock => [.help "Add a closing `\"\"\"`"]
  | .unterminatedCharacter => [.help "Add a closing `'`"]
  | .unexpectedCharacter _ => []

end LexicalError

/-- **`TokenKind`** — the kinds of tokens, with the text of those that are not always spelled the
same. `eof` ends every text and has none. -/
inductive TokenKind where
  | opening (delimiter : Delimiter)
  | closing (delimiter : Delimiter)
  | at
  | colon
  | comma
  | dot
  | doubleColon
  | ellipsis
  | equals
  | greaterThan
  | lessThan
  | question
  | semicolon
  | operator (text : String)
  | identifier (name : String)
  | keyword (word : Keyword)
  | integer (text : String)
  | floating (text : String)
  | character (text : String)
  | string (text : String)
  | textBlock (text : String)
  | boolean (value : Bool)
  | null
  | eof
  | error (raw : String) (cause : LexicalError)
deriving DecidableEq, Repr

namespace TokenKind

/-- **`k.text`** — the token as it is written in the source. -/
def text : TokenKind → String
  | .opening d => d.openingText
  | .closing d => d.closingText
  | .at => "@"
  | .colon => ":"
  | .comma => ","
  | .dot => "."
  | .doubleColon => "::"
  | .ellipsis => "..."
  | .equals => "="
  | .greaterThan => ">"
  | .lessThan => "<"
  | .question => "?"
  | .semicolon => ";"
  | .operator s | .identifier s | .integer s | .floating s | .character s | .string s
  | .textBlock s | .error s _ => s
  | .keyword w => w.text
  | .boolean true => "true"
  | .boolean false => "false"
  | .null => "null"
  | .eof => ""

/-- **`k.describe`** — how an error message names a token it did not expect. -/
def describe : TokenKind → String
  | .eof => "end of input"
  | .error _ cause => cause.message
  | k => k.text

/-- The delimiter that this token opens. -/
def opens? : TokenKind → Option Delimiter
  | .opening d => some d
  | _ => none

/-- The token opens a group. -/
def isOpening (k : TokenKind) : Bool := k.opens?.isSome

/-- The token closes some group. -/
def isClosing : TokenKind → Bool
  | .closing _ => true
  | _ => false

/-- The token is an identifier. -/
def isIdentifier : TokenKind → Bool
  | .identifier _ => true
  | _ => false

/-- The token is a keyword. -/
def isKeyword : TokenKind → Bool
  | .keyword _ => true
  | _ => false

/-- The token is a keyword that may be a modifier. -/
def isModifierKeyword : TokenKind → Bool
  | .keyword w => w.isModifier
  | _ => false

end TokenKind

end DeferFetch
