/-
# DeferFetch.Syntax.Declaration — declarations and whole files.

Packages, imports, types, members and modifiers are told apart; what they are made of beyond that is
kept as token trees. As in `DeferFetch.Syntax.Tree`, each node lists its tokens in the order of the
source.
-/
import DeferFetch.Syntax.Tree

namespace DeferFetch

/-- **`Words`** — one token or several that belong together, such as `non-sealed`. -/
structure Words where
  first : Token
  others : List Token := []
deriving DecidableEq, Repr

/-- The words in order. -/
def Words.tokens (w : Words) : List Token := w.first :: w.others

/-- **`Modifier`** — a keyword, a word that is reserved only before a declaration, or an
annotation. -/
inductive Modifier where
  | keyword (token : Token)
  | contextual (words : Words)
  | annot (annot : Annotation)

namespace Modifier

/-- The tokens of a modifier. -/
def tokens : Modifier → List Token
  | .keyword t => [t]
  | .contextual words => words.tokens
  | .annot a => a.tokens

/-- The modifier's first token. -/
def first : Modifier → Token
  | .keyword t => t
  | .contextual words => words.first
  | .annot a => a.sigil

/-- The annotation that the modifier is. -/
def annot? : Modifier → Option Annotation
  | .annot a => some a
  | _ => none

/-- The tokens of several modifiers. -/
def listTokens (ms : List Modifier) : List Token := ms.flatMap tokens

end Modifier

/-- **`TypeKind`** — what a type declaration declares. -/
inductive TypeKind where
  | «class»
  | interface
  | enumeration
  | record
  | annotationType
deriving DecidableEq, Repr, Inhabited

/-- **`MethodBody`** — the block of a method, or the semicolon of one that has none. -/
inductive MethodBody where
  | block (block : Group)
  | semicolon (token : Token)

/-- The tokens of a method's body. -/
def MethodBody.tokens : MethodBody → List Token
  | .block g => g.tokens
  | .semicolon t => [t]

mutual

/-- **`TypeDeclaration`** — the declaration of a type: modifiers, the words that tell what it is,
its name, everything up to its body, and the members between braces. -/
structure TypeDeclaration where
  modifiers : List Modifier
  kind : TypeKind
  introducer : Words
  name : Token
  header : List TokenTree
  opening : Token
  members : List Member
  closing : Token

/-- **`Member`** — what stands in the body of a type. The constants of an enumeration come first in
its body; the semicolon after them may be missing. -/
inductive Member where
  | field (modifiers : List Modifier) (trees : List TokenTree) (semicolon : Token)
  | method (modifiers : List Modifier) (signature : List TokenTree) (body : MethodBody)
  | type (declaration : TypeDeclaration)
  | block (modifiers : List Modifier) (block : Group)
  | constants (trees : List TokenTree) (semicolon : Option Token)
  | empty (semicolon : Token)

end

mutual

/-- **`d.tokens`** — the tokens of a type declaration. -/
def TypeDeclaration.tokens : TypeDeclaration → List Token
  | ⟨modifiers, _, introducer, name, header, opening, members, closing⟩ =>
    Modifier.listTokens modifiers ++ introducer.tokens ++ name :: TokenTree.listTokens header
      ++ opening :: (Member.listTokens members ++ [closing])

/-- **`m.tokens`** — the tokens of a member. -/
def Member.tokens : Member → List Token
  | .field modifiers trees semicolon =>
    Modifier.listTokens modifiers ++ TokenTree.listTokens trees ++ [semicolon]
  | .method modifiers signature body =>
    Modifier.listTokens modifiers ++ TokenTree.listTokens signature ++ body.tokens
  | .type declaration => declaration.tokens
  | .block modifiers block => Modifier.listTokens modifiers ++ block.tokens
  | .constants trees semicolon => TokenTree.listTokens trees ++ semicolon.toList
  | .empty semicolon => [semicolon]

/-- The tokens of several members. -/
def Member.listTokens : List Member → List Token
  | [] => []
  | member :: members => member.tokens ++ Member.listTokens members

end

/-- The annotations among the declaration's modifiers. -/
def TypeDeclaration.annotations (d : TypeDeclaration) : List Annotation :=
  d.modifiers.filterMap Modifier.annot?

mutual

/-- The simple names of a type and of the types nested in it, outer before inner. -/
def TypeDeclaration.declaredNames : TypeDeclaration → List String
  | ⟨_, _, _, name, _, _, members, _⟩ => name.text :: Member.listDeclaredNames members

/-- The simple names of the types that a member declares. -/
def Member.declaredNames : Member → List String
  | .type declaration => declaration.declaredNames
  | _ => []

/-- The simple names of the types that several members declare. -/
def Member.listDeclaredNames : List Member → List String
  | [] => []
  | member :: members => member.declaredNames ++ Member.listDeclaredNames members

end

/-! ## Packages, imports and whole files -/

/-- **`PackageDeclaration`** — the package of a file, with its annotations. -/
structure PackageDeclaration where
  annotations : List Annotation
  word : Token
  name : QualifiedName
  semicolon : Token

/-- The tokens of a package declaration. -/
def PackageDeclaration.tokens (p : PackageDeclaration) : List Token :=
  p.annotations.flatMap Annotation.tokens ++ p.word :: (p.name.tokens ++ [p.semicolon])

/-- The `.*` at the end of an import on demand. -/
structure Wildcard where
  dot : Token
  star : Token
deriving DecidableEq, Repr

/-- **`ImportDeclaration`** — the import of one type or static member or, with a wildcard, of a
whole package or of all static members of a type. -/
structure ImportDeclaration where
  word : Token
  static? : Option Token := none
  name : QualifiedName
  wildcard? : Option Wildcard := none
  semicolon : Token
deriving DecidableEq, Repr

namespace ImportDeclaration

/-- The tokens of an import. -/
def tokens (i : ImportDeclaration) : List Token :=
  i.word :: (i.static?.toList ++ i.name.tokens
    ++ (i.wildcard?.map fun w => [w.dot, w.star]).getD [] ++ [i.semicolon])

/-- The import is of static members. -/
def isStatic (i : ImportDeclaration) : Bool := i.static?.isSome

/-- The import is on demand. -/
def isOnDemand (i : ImportDeclaration) : Bool := i.wildcard?.isSome

/-- **`i.importedName`** — the name that is imported, without a wildcard. -/
def importedName (i : ImportDeclaration) : String := i.name.dotted

/-- The import as it stands in the source, with what precedes it. -/
def source (i : ImportDeclaration) : String := print i.tokens

/-- **`ofType name leading`** — the import of one type, written out after the blanks `leading`. -/
def ofType (name : String) (leading : String := "") : ImportDeclaration :=
  { word := .synthetic (.keyword .importWord) leading
    name := .ofDotted name " "
    semicolon := .synthetic .semicolon }

/-- **`ofPackage name leading`** — the import on demand of a package, written out after the blanks
`leading`. -/
def ofPackage (name : String) (leading : String := "") : ImportDeclaration :=
  { ofType name leading with wildcard? := some ⟨.synthetic .dot, .synthetic (.operator "*")⟩ }

end ImportDeclaration

/-- A declaration at the top of a file, or a stray semicolon. -/
inductive TopLevel where
  | type (declaration : TypeDeclaration)
  | empty (semicolon : Token)

namespace TopLevel

/-- The tokens of a top-level declaration. -/
def tokens : TopLevel → List Token
  | .type d => d.tokens
  | .empty t => [t]

/-- The declaration of a type that this is. -/
def type? : TopLevel → Option TypeDeclaration
  | .type d => some d
  | .empty _ => none

end TopLevel

/-- **`CompilationUnit`** — a whole file. The token that ends it carries what follows the last
declaration. -/
structure CompilationUnit where
  package? : Option PackageDeclaration
  imports : List ImportDeclaration
  types : List TopLevel
  eof : Token

namespace CompilationUnit

/-- **`u.tokens`** — all tokens of a file in the order of the source. -/
def tokens (u : CompilationUnit) : List Token :=
  (u.package?.map PackageDeclaration.tokens).getD [] ++ u.imports.flatMap ImportDeclaration.tokens
    ++ u.types.flatMap TopLevel.tokens ++ [u.eof]

/-- The whole text of the file. -/
def source (u : CompilationUnit) : String := print u.tokens

/-- The name of the package that the file declares. -/
def packageName (u : CompilationUnit) : Option String := u.package?.map (·.name.dotted)

/-- The declarations of types at the top of the file. -/
def declarations (u : CompilationUnit) : List TypeDeclaration := u.types.filterMap TopLevel.type?

/-- The simple names of all types that the file declares, outer before inner. -/
def declaredNames (u : CompilationUnit) : List String :=
  u.declarations.flatMap TypeDeclaration.declaredNames

end CompilationUnit

end DeferFetch
