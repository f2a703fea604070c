/-
# DeferFetch.Text.CharClass — character classes and trimming.

Membership in the Unicode properties of `DeferFetch.Text.CharClass.Ranges`, and the two ways blank
characters are cut off the ends of a text.
-/
import DeferFetch.Text.CharClass.Ranges

namespace DeferFetch.Text

/-- **`covers ranges n`** — some range of the ascending list `ranges` holds the code point `n`.
The search stops at the first range that starts past `n`. -/
def covers : List CodeRange → Nat → Bool
  | [], _ => false
  | (low, high) :: ranges, n =>
    if n < low then false else if n ≤ high then true else covers ranges n

/-- The character has the property Alphabetic. -/
def isAlphabetic (c : Char) : Bool := covers alphabeticRanges c.toNat

/-- The character is a decimal digit, a letter number or another number. -/
def isNumeric (c : Char) : Bool := covers numericRanges c.toNat

/-- The character has the property White_Space. -/
def isBlank (c : Char) : Bool := covers whiteSpaceRanges c.toNat

/-- The character is a control character. -/
def isControl (c : Char) : Bool := covers controlRanges c.toNat

/-- An ASCII decimal digit. -/
def isDigit (c : Char) : Bool := '0' ≤ c && c ≤ '9'

/-- An ASCII hexadecimal digit, of either case. -/
def isHexDigit (c : Char) : Bool :=
  isDigit c || ('a' ≤ c && c ≤ 'f') || ('A' ≤ c && c ≤ 'F')

/-- How many UTF-16 code units the character takes. -/
def units16 (c : Char) : Nat := if c.toNat < 0x10000 then 1 else 2

/-! ## Trimming -/

/-- The characters without the blanks at their end. -/
def dropBlankEnd (cs : List Char) : List Char :=
  (cs.reverse.dropWhile isBlank).reverse

/-- **`trimEnd s`** — `s` without the blank characters at its end. -/
def trimEnd (s : String) : String := String.ofList (dropBlankEnd s.toList)

/-- **`trim s`** — `s` without the blank characters at either end. -/
def trim (s : String) : String := String.ofList (dropBlankEnd (s.toList.dropWhile isBlank))

/-! ## Splitting -/

/-- The pieces of a character list between the separators `sep`; one more than there are
separators, so never none. -/
def piecesBy (sep : Char) : List Char → List Char × List (List Char)
  | [] => ([], [])
  | c :: cs =>
    let (first, others) := piecesBy sep cs
    if c = sep then ([], first :: others) else (c :: first, others)

/-- **`split sep s`** — the pieces of `s` between the separators `sep`, the empty ones included. -/
def split (sep : Char) (s : String) : List String :=
  let (first, others) := piecesBy sep s.toList
  (first :: others).map String.ofList

/-- **`lines s`** — the lines of `s`. A line ends at a line feed, and a carriage return right before
that line feed belongs to the terminator. Text after the last line feed is a line unless empty. -/
def lines (s : String) : List String :=
  let (first, others) := piecesBy '\n' s.toList
  let pieces := first :: others
  let last := pieces.getLast?.getD []
  let terminated := pieces.dropLast.map fun line =>
    if line.getLast? = some '\r' then line.dropLast else line
  (terminated ++ if last.isEmpty then [] else [last]).map String.ofList

end DeferFetch.Text
