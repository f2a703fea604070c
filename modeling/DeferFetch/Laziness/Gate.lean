/-
# DeferFetch.Laziness.Gate — cheap tests of whether a file can hold an association.

`mentionsAny` looks at the text alone and saves parsing it. `usesType` looks at the tokens of a
file: it holds if they spell the qualified name of the type, or if they contain its simple name
and the package of the type is visible. Neither looks at what a name really means.
-/
import DeferFetch.Syntax.Declaration
import DeferFetch.Naming.SymbolTable

namespace DeferFetch

/-! ## Texts -/

/-- The characters of `word` occur in a row. -/
def occursIn (word : List Char) : List Char → Bool
  | [] => word.isEmpty
  | c :: cs => word.isPrefixOf (c :: cs) || occursIn word cs

/-- **`mentionsAny source words`** — one of the words occurs somewhere in the text. -/
def mentionsAny (source : String) (words : List String) : Bool :=
  words.any fun word => occursIn word.toList source.toList

/-! ## Tokens -/

/-- **`namePattern name`** — the kinds of the tokens that spell a dotted name. -/
def namePattern (name : String) : List TokenKind :=
  ((Text.split '.' name).map TokenKind.identifier).intersperse .dot

/-- **`nextMatched pattern matched k`** — how much of the pattern is matched after a token, if
`matched` of it were before: one more, or else just its beginning or nothing. -/
def nextMatched (pattern : List TokenKind) (matched : Nat) (k : TokenKind) : Nat :=
  if pattern[matched]? = some k then matched + 1 else if pattern.head? = some k then 1 else 0

/-- **`spellsOrNames pattern simple? matched kinds`** — the tokens complete the pattern, of which
`matched` are matched already, or one of them is the name `simple?`. -/
def spellsOrNames (pattern : List TokenKind) (simple? : Option String) :
    Nat → List TokenKind → Bool
  | _, [] => false
  | matched, k :: kinds =>
    if simple?.any fun simple => k = .identifier simple then true
    else
      let matched := nextMatched pattern matched k
      if matched = pattern.length then true else spellsOrNames pattern simple? matched kinds

/-- **`simpleNameVisible name unit`** — a type of that qualified name can be meant by its simple
name: it has no package, or its package is the file's own or imported on demand. -/
def simpleNameVisible (name : String) (unit : CompilationUnit) : Bool :=
  match qualifierOf name with
  | none => true
  | some package =>
    unit.packageName = some package
      || unit.imports.any (·.packageOnDemand? = some package)

/-- **`usesType name unit`** — the file refers to the type of that qualified name. -/
def usesType (name : String) (unit : CompilationUnit) : Bool :=
  let simple? := if simpleNameVisible name unit then some (simpleNameOf name) else none
  spellsOrNames (namePattern name) simple? 0 (unit.tokens.map Token.kind)

/-- The file refers to one of the types. -/
def usesAny (names : List String) (unit : CompilationUnit) : Bool := names.any (usesType · unit)

end DeferFetch
