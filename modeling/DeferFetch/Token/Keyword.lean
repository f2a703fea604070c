/-
# DeferFetch.Token.Keyword — the reserved words of Java.

Words that are reserved only in some places (`record`, `sealed`, `permits`, …) are identifiers here,
and `true`, `false` and `null` are literals.
-/

namespace DeferFetch

/-- Every reserved word. -/
def reservedWords : List String :=
  ["abstract", "assert", "boolean", "break", "byte", "case", "catch", "char", "class", "const",
   "continue", "default", "do", "double", "else", "enum", "extends", "final", "finally", "float",
   "for", "goto", "if", "implements", "import", "instanceof", "int", "interface", "long", "native",
   "new", "package", "private", "protected", "public", "return", "short", "static", "strictfp",
   "super", "switch", "synchronized", "this", "throw", "throws", "transient", "try", "void",
   "volatile", "while"]

/-- The reserved words that may stand among the modifiers of a declaration. -/
def modifierWords : List String :=
  ["public", "protected", "private", "static", "abstract", "final", "native", "synchronized",
   "transient", "volatile", "strictfp", "default"]

/-- **`Keyword`** — one of the reserved words. -/
structure Keyword where
  text : String
  reserved : text ∈ reservedWords
deriving DecidableEq, Repr

namespace Keyword

/-- **`ofText? s`** — the keyword spelled `s`, if that word is reserved. -/
def ofText? (s : String) : Option Keyword :=
  if h : s ∈ reservedWords then some ⟨s, h⟩ else none

/-- The keyword may be a modifier. -/
def isModifier (k : Keyword) : Bool := k.text ∈ modifierWords

/-- The word that declares a class. -/
def classWord : Keyword := ⟨"class", by decide⟩

/-- The word that declares an interface and, after an at sign, an annotation type. -/
def interfaceWord : Keyword := ⟨"interface", by decide⟩

/-- The word that declares an enumeration. -/
def enumWord : Keyword := ⟨"enum", by decide⟩

/-- The word that opens an import. -/
def importWord : Keyword := ⟨"import", by decide⟩

/-- The word that opens a package declaration. -/
def packageWord : Keyword := ⟨"package", by decide⟩

/-- The word that makes an import static. -/
def staticWord : Keyword := ⟨"static", by decide⟩

/-- The word before the default value of an annotation element. -/
def defaultWord : Keyword := ⟨"default", by decide⟩

end Keyword

end DeferFetch
