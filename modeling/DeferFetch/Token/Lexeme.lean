/-
# DeferFetch.Token.Lexeme — cutting a text into its lexemes.

A lexeme is a run of blanks, a comment, or the text of one token. Each scanner below answers with a
`Cut` of the characters before it, so nothing can get lost or be read twice, and every lexeme has at
least the character that it was recognised by; the text is used up after finitely many.

Blank here is what Java takes for white space, and the byte order mark.
-/
import DeferFetch.Token.Basic

namespace DeferFetch

/-! ## Cuts -/

/-- **`Cut cs`** — the characters `cs` in two parts: those taken and the rest. -/
structure Cut (cs : List Char) where
  taken : List Char
  rest : List Char
  whole : taken ++ rest = cs

namespace Cut

/-- Takes nothing. -/
def empty (cs : List Char) : Cut cs := ⟨[], cs, rfl⟩

/-- Takes everything. -/
def all (cs : List Char) : Cut cs := ⟨cs, [], List.append_nil cs⟩

/-- Takes the first `n` characters, or all if there are fewer. -/
def first (n : Nat) (cs : List Char) : Cut cs := ⟨cs.take n, cs.drop n, List.take_append_drop n cs⟩

/-- Takes the longest beginning whose characters all satisfy `p`. -/
def takeWhile (p : Char → Bool) (cs : List Char) : Cut cs :=
  ⟨cs.takeWhile p, cs.dropWhile p, List.takeWhile_append_dropWhile⟩

/-- Takes one character more in front. -/
def cons {cs : List Char} (c : Char) (cut : Cut cs) : Cut (c :: cs) :=
  ⟨c :: cut.taken, cut.rest, congrArg (List.cons c) cut.whole⟩

/-- Takes what `cut` takes and then what `next` takes of its rest. -/
def andThen {cs : List Char} (cut : Cut cs) (next : (rest : List Char) → Cut rest) : Cut cs :=
  let more := next cut.rest
  ⟨cut.taken ++ more.taken, more.rest, by rw [List.append_assoc, more.whole, cut.whole]⟩

/-- The rest is never longer than the whole. -/
theorem rest_length_le {cs : List Char} (cut : Cut cs) : cut.rest.length ≤ cs.length := by
  have h := congrArg List.length cut.whole
  simp at h
  omega

end Cut

/-! ## Character classes -/

/-- Java's white space, and the byte order mark. -/
def isJavaBlank (c : Char) : Bool :=
  c = ' ' || c = '\t' || c = '\n' || c = '\r' || c = '\x0c' || c = '\ufeff'

/-- A character that ends a line. -/
def isLineEnd (c : Char) : Bool := c = '\n' || c = '\r'

/-- A character that an identifier may begin with. -/
def isIdentifierStart (c : Char) : Bool := c = '_' || c = '$' || Text.isAlphabetic c

/-- A character that may follow within an identifier. -/
def isIdentifierPart (c : Char) : Bool := isIdentifierStart c || Text.isNumeric c

/-- A decimal digit or the underscore that may stand between digits. -/
def isDigitPart (c : Char) : Bool := Text.isDigit c || c = '_'

/-- A hexadecimal digit or an underscore. -/
def isHexPart (c : Char) : Bool := Text.isHexDigit c || c = '_'

/-- A binary digit or an underscore. -/
def isBinaryPart (c : Char) : Bool := c = '0' || c = '1' || c = '_'

/-! ## Comments and quoted literals -/

/-- **`throughCommentEnd cs`** — takes everything up to the first end of a block comment and that
end too; none if the comment has no end. -/
def throughCommentEnd : (cs : List Char) → Option (Cut cs)
  | [] => none
  | '*' :: '/' :: cs => some (((Cut.empty cs).cons '/').cons '*')
  | c :: cs => (throughCommentEnd cs).map (·.cons c)

/-- **`throughQuote quote cs`** — takes the rest of a literal on one line, its closing `quote`
included, and says whether there was one. A backslash takes the character after it along. -/
def throughQuote (quote : Char) : (cs : List Char) → Bool × Cut cs
  | [] => (false, .empty [])
  | '\\' :: c :: cs =>
    if isLineEnd c then (false, (Cut.empty (c :: cs)).cons '\\')
    else
      let (closed, cut) := throughQuote quote cs
      (closed, (cut.cons c).cons '\\')
  | c :: cs =>
    if isLineEnd c then (false, .empty (c :: cs))
    else if c = quote then (true, (Cut.empty cs).cons c)
    else
      let (closed, cut) := throughQuote quote cs
      (closed, cut.cons c)

/-- **`throughTripleQuote cs`** — takes the rest of a text block, its three closing quotes included,
and says whether there were any. A backslash takes the character after it along. -/
def throughTripleQuote : (cs : List Char) → Bool × Cut cs
  | [] => (false, .empty [])
  | '\\' :: c :: cs =>
    let (closed, cut) := throughTripleQuote cs
    (closed, (cut.cons c).cons '\\')
  | '"' :: '"' :: '"' :: cs => (true, (((Cut.empty cs).cons '"').cons '"').cons '"')
  | c :: cs =>
    let (closed, cut) := throughTripleQuote cs
    (closed, cut.cons c)

/-! ## Numbers

A number is scanned part by part. A part that is absent takes nothing, so whether the number is a
floating-point literal can be read off the parts.
-/

/-- The rest of a fraction of which the point stands before `cs`. A point before a name or another
point is no fraction. -/
def beginsFraction : (cs : List Char) → Bool
  | [] => true
  | c :: _ => Text.isDigit c || (!isIdentifierStart c && c ≠ '.')

/-- A point and the decimal digits after it, if the point is part of the number. -/
def fractionPart : (cs : List Char) → Cut cs
  | '.' :: cs => if beginsFraction cs then (Cut.takeWhile isDigitPart cs).cons '.' else .empty _
  | cs => .empty cs

/-- A point and the hexadecimal digits after it. -/
def hexFractionPart : (cs : List Char) → Cut cs
  | '.' :: cs => (Cut.takeWhile isHexPart cs).cons '.'
  | cs => .empty cs

/-- An optional sign and digits. -/
def signedDigits : (cs : List Char) → Cut cs
  | c :: cs =>
    if c = '+' || c = '-' then (Cut.takeWhile isDigitPart cs).cons c
    else .takeWhile isDigitPart (c :: cs)
  | [] => .empty []

/-- A digit comes next, perhaps after a sign. -/
def beginsSignedDigits : (cs : List Char) → Bool
  | c :: d :: _ => Text.isDigit c || ((c = '+' || c = '-') && Text.isDigit d)
  | [c] => Text.isDigit c
  | [] => false

/-- The exponent of a decimal number, which needs a digit. -/
def exponentPart : (cs : List Char) → Cut cs
  | c :: cs =>
    if (c = 'e' || c = 'E') && beginsSignedDigits cs then (signedDigits cs).cons c else .empty _
  | [] => .empty []

/-- The exponent of a hexadecimal number. -/
def hexExponentPart : (cs : List Char) → Cut cs
  | c :: cs => if c = 'p' || c = 'P' then (signedDigits cs).cons c else .empty _
  | [] => .empty []

/-- The letter that says how a number is stored. -/
def isFloatSuffix (c : Char) : Bool := c = 'f' || c = 'F' || c = 'd' || c = 'D'

/-- The letter of a long integer or of a floating-point number. -/
def suffixPart : (cs : List Char) → Cut cs
  | c :: cs => if c = 'l' || c = 'L' || isFloatSuffix c then (Cut.empty cs).cons c else .empty _
  | [] => .empty []

/-- **`scanNumber c cs`** — takes the rest of the number that begins with `c`, and says whether it
is a floating-point literal: one with a fraction, an exponent or the suffix of one. -/
def scanNumber (c : Char) (cs : List Char) : Bool × Cut cs :=
  let withSuffix (floating : Bool) (number : Cut cs) : Bool × Cut cs :=
    (floating || (suffixPart number.rest).taken.any isFloatSuffix, number.andThen suffixPart)
  let isRadix (marks : List Char) : Bool := c = '0' && cs.head?.any (· ∈ marks)
  if isRadix ['x', 'X'] then
    let digits := (Cut.first 1 cs).andThen (.takeWhile isHexPart)
    let fraction := digits.andThen hexFractionPart
    let exponent := fraction.andThen hexExponentPart
    withSuffix (digits.taken.length < exponent.taken.length) exponent
  else if isRadix ['b', 'B'] then
    withSuffix false ((Cut.first 1 cs).andThen (.takeWhile isBinaryPart))
  else
    let digits := Cut.takeWhile isDigitPart cs
    let fraction := if c = '.' then digits else digits.andThen fractionPart
    let exponent := fraction.andThen exponentPart
    withSuffix (c = '.' || digits.taken.length < exponent.taken.length) exponent

/-! ## Words and operators -/

/-- The kind of a token spelled like an identifier. -/
def wordKind (name : String) : TokenKind :=
  if name = "true" then .boolean true
  else if name = "false" then .boolean false
  else if name = "null" then .null
  else match Keyword.ofText? name with
    | some word => .keyword word
    | none => .identifier name

/-- The operators that are not separators too; no operator stands after a beginning of its own. -/
def operators : List (List Char) :=
  [['-', '>'], ['+', '+'], ['-', '-'], ['&', '&'], ['|', '|'], ['!', '='], ['+', '='], ['-', '='],
   ['*', '='], ['/', '='], ['&', '='], ['|', '='], ['^', '='], ['%', '='], ['+'], ['-'], ['*'],
   ['/'], ['&'], ['|'], ['^'], ['%'], ['!'], ['~']]

/-- The separators of one character that no longer token begins with. -/
def separatorKind? (c : Char) : Option TokenKind :=
  match c with
  | '(' => some (.opening .paren)
  | ')' => some (.closing .paren)
  | '\x7b' => some (.opening .brace)
  | '\x7d' => some (.closing .brace)
  | '[' => some (.opening .bracket)
  | ']' => some (.closing .bracket)
  | ';' => some .semicolon
  | ',' => some .comma
  | '@' => some .at
  | '?' => some .question
  | '<' => some .lessThan
  | '>' => some .greaterThan
  | _ => none

/-! ## Lexemes -/

/-- What a lexeme is. -/
inductive LexemeKind where
  | trivia (kind : TriviaKind)
  | token (kind : TokenKind)
deriving DecidableEq, Repr

/-- **`Lexeme`** — a piece of the text and what it is. -/
structure Lexeme where
  kind : LexemeKind
  text : List Char
deriving DecidableEq, Repr

/-- A lexeme recognised before `cs`: its kind, and how much of `cs` belongs to it. -/
structure Scan (cs : List Char) where
  kind : LexemeKind
  cut : Cut cs

namespace Scan

/-- A token of a kind that keeps its text, `c` and what is taken. -/
def spelled {cs : List Char} (c : Char) (kind : String → TokenKind) (cut : Cut cs) : Scan cs :=
  ⟨.token (kind (String.ofList (c :: cut.taken))), cut⟩

/-- A literal of the given kind if it is closed, else an error of the given cause. -/
def literal {cs : List Char} (c : Char) (kind : String → TokenKind) (cause : LexicalError)
    (scanned : Bool × Cut cs) : Scan cs :=
  spelled c (if scanned.1 then kind else (.error · cause)) scanned.2

/-- A number that begins with `c`. -/
def number (c : Char) (cs : List Char) : Scan cs :=
  let scanned := scanNumber c cs
  spelled c (if scanned.1 then .floating else .integer) scanned.2

/-- A block comment, of which the slash stands before `cs`. -/
def blockComment : (cs : List Char) → Scan cs
  | star :: body =>
    match throughCommentEnd body with
    | some cut => ⟨.trivia .blockComment, cut.cons star⟩
    | none => spelled '/' (.error · .unterminatedComment) (.all (star :: body))
  | [] => spelled '/' (.error · .unterminatedComment) (.all [])

/-- A string literal or a text block, of which the first quote stands before `cs`. -/
def string : (cs : List Char) → Scan cs
  | '"' :: '"' :: body =>
    let (closed, cut) := throughTripleQuote body
    literal '"' .textBlock .unterminatedTextBlock (closed, (cut.cons '"').cons '"')
  | cs => literal '"' .string .unterminatedString (throughQuote '"' cs)

/-- An operator that begins with `c`, or else a character that begins no token. -/
def operator (c : Char) (cs : List Char) : Scan cs :=
  match operators.find? (·.isPrefixOf (c :: cs)) with
  | some op => spelled c .operator (.first (op.length - 1) cs)
  | none => spelled c (.error · (.unexpectedCharacter c)) (.empty cs)

end Scan

/-- **`scan c cs`** — the lexeme that begins with `c` when `cs` follows. -/
def scan (c : Char) (cs : List Char) : Scan cs :=
  if isJavaBlank c then ⟨.trivia .blank, .takeWhile isJavaBlank cs⟩
  else if c = '/' && cs.head? = some '/' then ⟨.trivia .lineComment, .takeWhile (!isLineEnd ·) cs⟩
  else if c = '/' && cs.head? = some '*' then .blockComment cs
  else match separatorKind? c with
  | some kind => ⟨.token kind, .empty cs⟩
  | none =>
    if c = ':' then
      if cs.head? = some ':' then ⟨.token .doubleColon, .first 1 cs⟩
      else ⟨.token .colon, .empty cs⟩
    else if c = '=' then
      if cs.head? = some '=' then .spelled c .operator (.first 1 cs)
      else ⟨.token .equals, .empty cs⟩
    else if c = '.' then
      if cs.head?.any Text.isDigit then .number c cs
      else if ['.', '.'].isPrefixOf cs then ⟨.token .ellipsis, .first 2 cs⟩
      else ⟨.token .dot, .empty cs⟩
    else if c = '"' then .string cs
    else if c = '\'' then .literal c .character .unterminatedCharacter (throughQuote c cs)
    else if Text.isDigit c then .number c cs
    else if isIdentifierStart c then .spelled c wordKind (.takeWhile isIdentifierPart cs)
    else .operator c cs

/-- **`lexemes cs`** — the lexemes of a text, in order. -/
def lexemes : List Char → List Lexeme
  | [] => []
  | c :: cs =>
    let scanned := scan c cs
    ⟨scanned.kind, c :: scanned.cut.taken⟩ :: lexemes scanned.cut.rest
termination_by cs => cs.length
decreasing_by exact Nat.lt_succ_of_le scanned.cut.rest_length_le

/-- **Nothing is lost** — the lexemes of a text, one after the other, are the text. -/
theorem lexemes_flatten (cs : List Char) : (lexemes cs).flatMap Lexeme.text = cs := by
  fun_induction lexemes cs with
  | case1 => rfl
  | case2 c cs scanned ih =>
    simp [ih, scanned.cut.whole]

end DeferFetch
