/-
# DeferFetch.Syntax.Name — dotted names.

A name in plain text is cut at its dots by `splitQualified` and `splitFirst`; a `QualifiedName` is a
name as it stands in a source, with a token for every identifier and dot.
-/
import DeferFetch.Token.Basic

namespace DeferFetch

/-! ## Names as text -/

/-- **`splitQualified name`** — the part before the last dot, if there is a dot, and the simple name
after it. -/
def splitQualified (name : String) : Option String × String :=
  let cs := name.toList.reverse
  let simple := (cs.takeWhile (· ≠ '.')).reverse
  match cs.dropWhile (· ≠ '.') with
  | [] => (none, String.ofList simple)
  | _ :: qualifier => (some (String.ofList qualifier.reverse), String.ofList simple)

/-- The part of a name before its last dot. -/
def qualifierOf (name : String) : Option String := (splitQualified name).1

/-- The part of a name after its last dot. -/
def simpleNameOf (name : String) : String := (splitQualified name).2

/-- **`splitFirst name`** — the part before the first dot and the part after it, if there is one. -/
def splitFirst (name : String) : Option (String × String) :=
  match name.toList.dropWhile (· ≠ '.') with
  | [] => none
  | _ :: rest => some (String.ofList (name.toList.takeWhile (· ≠ '.')), String.ofList rest)

/-- Names joined by dots. -/
def dotted (names : List String) : String := String.intercalate "." names

/-! ## Names in a source -/

/-- A further identifier of a name, and the dot before it. -/
structure NameSegment where
  dot : Token
  identifier : Token
deriving DecidableEq, Repr

/-- **`QualifiedName`** — one identifier or several with dots between them. -/
structure QualifiedName where
  first : Token
  others : List NameSegment := []
deriving DecidableEq, Repr

namespace QualifiedName

/-- The tokens of the name, dots included. -/
def tokens (n : QualifiedName) : List Token :=
  n.first :: n.others.flatMap fun segment => [segment.dot, segment.identifier]

/-- The identifiers of the name. -/
def identifiers (n : QualifiedName) : List Token := n.first :: n.others.map NameSegment.identifier

/-- The last identifier. -/
def last (n : QualifiedName) : Token := (n.others.getLast?.map NameSegment.identifier).getD n.first

/-- **`n.dotted`** — the name as plain text, without anything between its parts but the dots. -/
def dotted (n : QualifiedName) : String := DeferFetch.dotted (n.identifiers.map Token.text)

/-- The text of the last identifier. -/
def simpleName (n : QualifiedName) : String := n.last.text

/-- The name has more than one identifier. -/
def isQualified (n : QualifiedName) : Bool := !n.others.isEmpty

/-- Everything before the last identifier, if there are more than one. -/
def qualifier (n : QualifiedName) : Option String :=
  if n.isQualified then qualifierOf n.dotted else none

/-- From the first identifier to the last. -/
def span (n : QualifiedName) : Span := n.first.span.through n.last.span

/-- **`ofDotted name leading`** — the name written out as tokens, after the blanks `leading`. -/
def ofDotted (name : String) (leading : String := "") : QualifiedName :=
  match Text.split '.' name with
  | [] => ⟨.synthetic (.identifier "") leading, []⟩
  | first :: others =>
    ⟨.synthetic (.identifier first) leading,
     others.map fun part => ⟨.synthetic .dot, .synthetic (.identifier part)⟩⟩

end QualifiedName

end DeferFetch
