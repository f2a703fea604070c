/-
# DeferFetch.Naming.Scope — what a name means in a file.

A simple type name means, in this order: a type that the file declares, one that it imports by name,
one whose import is pending, one of its own package, one of a package imported on demand, or one of
`java.lang`. A name that two packages on demand offer means nothing.

On top of names, `valueType?` gives the type of an element value as far as it shows without looking
into expressions that are more than a constant.
-/
import DeferFetch.Naming.SymbolTable

namespace DeferFetch

/-- **`Scope`** — a symbol table and the imports, by simple name, that will be added to the file. -/
structure Scope where
  symbols : SymbolTable
  pending : NameMap String := []

/-- The only member of a list that has just one. -/
def only? {α : Type} : List α → Option α
  | [a] => some a
  | _ => none

namespace Scope

/-! ## Names -/

/-- The name of a type in a package, if the catalog has it. -/
def inPackage? (s : Scope) (package name : String) : Option String :=
  let qualified := package ++ "." ++ name
  if s.symbols.catalog.contains qualified then some qualified else none

/-- The types of that simple name in the packages that are imported on demand. -/
def onDemandHits (s : Scope) (name : String) : List String :=
  s.symbols.onDemand.filterMap (s.inPackage? · name)

/-- **`s.resolveSimple name`** — the type that a simple name means. -/
def resolveSimple (s : Scope) (name : String) : Option String :=
  s.symbols.declared.get? name
  <|> s.symbols.singleType.get? name
  <|> s.pending.get? name
  <|> s.symbols.package?.bind (s.inPackage? · name)
  <|> match s.onDemandHits name with
      | [] => s.inPackage? "java.lang" name
      | hits => only? hits

/-- **`s.resolve name`** — the type that a dotted name means: first as a type nested in the one that
its first part means, then as a qualified name. -/
def resolve (s : Scope) (name : String) : Option String :=
  match splitFirst name with
  | none => s.resolveSimple name
  | some (first, rest) =>
    let nested := (s.resolveSimple first).map (· ++ "." ++ rest)
    nested.filter s.symbols.knows <|> (some name).filter s.symbols.knows

/-- **`s.resolveStatic member`** — the type whose static member a simple name means. -/
def resolveStatic (s : Scope) (member : String) : Option String :=
  s.symbols.staticSingle.get? member
  <|> only? (s.symbols.staticOnDemand.filter (s.symbols.catalog.hasConstant · member))

/-- The type of an annotation. -/
def annotationType? (s : Scope) (a : Annotation) : Option String := s.resolve a.name.dotted

/-! ## Values -/

/-- The enumeration `owner`, if it has the constant. -/
def constantOf? (s : Scope) (constant owner : String) : Option ElementType :=
  if s.symbols.catalog.hasConstant owner constant then some (.class owner) else none

/-- The type of an expression that is a single token. -/
def literalType? (s : Scope) : TokenKind → Option ElementType
  | .integer text =>
    some (.primitive (if text.toList.getLast?.any (· ∈ ['l', 'L']) then .long else .int))
  | .floating text =>
    some (.primitive (if text.toList.getLast?.any (· ∈ ['f', 'F']) then .float else .double))
  | .character _ => some (.primitive .char)
  | .boolean _ => some (.primitive .boolean)
  | .string _ => some .string
  | .textBlock _ => some .string
  | .identifier name => (s.resolveStatic name).bind (s.constantOf? name)
  | _ => none

/-- The identifiers of a dotted name. -/
def dottedIdentifiers? : List TokenKind → Option (List String)
  | [.identifier name] => some [name]
  | .identifier name :: .dot :: more => (dottedIdentifiers? more).map (name :: ·)
  | _ => none

/-- The type of an expression that is a constant of an enumeration after the name of that. -/
def constantType? (s : Scope) (kinds : List TokenKind) : Option ElementType := do
  let names ← dottedIdentifiers? kinds
  let constant ← names.getLast?
  let qualifier := names.dropLast
  if qualifier.isEmpty then none
  else
    let owner ← s.resolve (dotted qualifier)
    s.constantOf? constant owner

/-- The token is the literal of a text. -/
def isText : TokenKind → Bool
  | .string _ | .textBlock _ => true
  | _ => false

/-- The token is a plus or minus sign. -/
def isSign (k : TokenKind) : Bool := k = .operator "-" || k = .operator "+"

/-- The tokens end in a class literal. -/
def endsInClass (kinds : List TokenKind) : Bool :=
  [.keyword .classWord, .dot].isPrefixOf kinds.reverse

/-- **`s.tokensType? kinds`** — the type of an expression without groups. -/
def tokensType? (s : Scope) (kinds : List TokenKind) : Option ElementType :=
  match kinds with
  | [] => none
  | [k] => s.literalType? k
  | first :: others =>
    if others.length = 1 && isSign first then
      (others.head?.bind s.literalType?).filter ElementType.isPrimitive
    else if isText first then some .string
    else if endsInClass kinds then some (.class "java.lang.Class")
    else s.constantType? kinds

mutual

/-- **`s.treesType? trees`** — the type of an expression. A single group has the type of what is in
it, and no other expression with a group or an annotation has a type. -/
def treesType? (s : Scope) : List TokenTree → Option ElementType
  | [tree] => s.treeType? tree
  | trees => (trees.mapM TokenTree.token?).bind fun tokens => s.tokensType? (tokens.map Token.kind)
termination_by structural trees => trees

/-- The type of an expression that is a single tree. -/
def treeType? (s : Scope) : TokenTree → Option ElementType
  | .token t => s.tokensType? [t.kind]
  | .group ⟨_, _, trees, _⟩ => s.treesType? trees
  | .annot _ => none
termination_by structural tree => tree

end

/-- **`s.valueType? value`** — the type of an element value; that of values between braces goes by
the first of them. -/
def valueType? (s : Scope) : ElementValue → Option ElementType
  | .expression trees => s.treesType? trees
  | .annot a => (s.annotationType? a).map .class
  | .array _ [] _ _ => none
  | .array _ (value :: _) _ _ => (s.valueType? value).map .array

/-- **`s.argumentType? argument annotationType`** — the type that the annotation type declares for
the argument's element or, if that is not known, the type of the argument's value. -/
def argumentType? (s : Scope) (argument : Argument) (annotationType : Option String) :
    Option ElementType :=
  let declared := annotationType.bind fun name =>
    argument.name?.bind (s.symbols.catalog.elementType? name)
  declared <|> s.valueType? argument.value

end Scope

end DeferFetch
