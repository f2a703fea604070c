/-
# DeferFetch.Parser.Unit — parsing whole files, and single annotations.

Parsing a file always gives a tree, whatever the tokens are: what cannot be parsed is reported and
skipped. The tree of a parse without reports is the one to work with.
-/
import DeferFetch.Parser.Declaration
import DeferFetch.Token.Lexer

namespace DeferFetch

namespace Parser

/-! ## Packages and imports -/

/-- Keeps the annotations among the modifiers of a package and reports the others. -/
def packageAnnotations : List Modifier → Parser (List Annotation)
  | [] => return []
  | .annot a :: modifiers => return a :: (← packageAnnotations modifiers)
  | modifier :: modifiers => do
    report (.modifierOnPackage modifier)
    packageAnnotations modifiers

/-- A package declaration after its modifiers. -/
def packageDeclaration (modifiers : List Modifier) : Parser PackageDeclaration := do
  let annotations ← packageAnnotations modifiers
  let word ← token
  let name ← qualifiedName .packageName
  let semicolon ← expect (· = .semicolon) .semicolon
  return { annotations, word, name, semicolon }

/-- The wildcard of an import on demand, if it comes next. -/
def wildcard? : Parser (Option Wildcard) := do
  if atWildcard (← ahead) then
    let dot ← token
    let star ← token
    return some ⟨dot, star⟩
  else
    return none

/-- The word that makes an import static, if it comes next. -/
def staticWord? : Parser (Option Token) := do
  if atKind (.keyword .staticWord) (← ahead) then
    return some (← token)
  else
    return none

/-- An import declaration. -/
def importDeclaration : Parser ImportDeclaration := do
  let word ← token
  let static? ← staticWord?
  let name ← qualifiedName .importedName
  let wildcard? ← wildcard?
  let semicolon ← expect (· = .semicolon) .semicolon
  return { word, static?, name, wildcard?, semicolon }

/-- An import declaration, if one comes next. -/
def importRound : Unit → Parser (Step ImportDeclaration Unit Unit) := fun () => do
  if atKind (.keyword .importWord) (← ahead) then
    return .again (← importDeclaration.orSkip pastSemicolon) ()
  else
    return .stop ()

/-- All import declarations that come next. -/
def importDeclarations : Parser (List ImportDeclaration) := do
  let (imports, ()) ← rounds importRound ()
  return imports

/-! ## Files -/

/-- A type declaration at the top of a file, after its modifiers; none if it had to be skipped. -/
def topLevelType (modifiers : List Modifier) : Parser (Option TopLevel) := do
  return (← (typeOfBudget maxNesting modifiers).orSkip toNextType).map .type

/-- A type declaration at the top of a file with its modifiers; none if part of it had to be
skipped. -/
def topLevelDeclaration : Parser (Option TopLevel) := do
  match ← (modifiers (.ofBudget maxNesting)).orSkip toNextType with
  | some modifiers => topLevelType modifiers
  | none => return none

/-- The next declaration at the top of a file, or its end. `pending` holds the modifiers that were
read already; they go to the next type. -/
def topLevelRound (pending : List Modifier) : Parser (Step TopLevel Unit (List Modifier)) := do
  let ks ← ahead
  if atEnd ks then
    return .stop ()
  else if !pending.isEmpty then
    return .again (← topLevelType pending) []
  else if atKind .semicolon ks then
    return .again (some (.empty (← token))) []
  else
    return .again (← topLevelDeclaration) []

/-- Everything after the imports. `pending` holds the modifiers that were read at the top of the
file and belong to no package; they go to the first type. -/
def topLevels (pending : List Modifier) : Parser (List TopLevel) := do
  let (types, ()) ← rounds topLevelRound pending
  return types

/-- The token that ends the text, or one made up if the token list ends without it. -/
def endToken : Parser Token := do
  if (← peek).isSome then token else return .synthetic .eof

/-- The package declaration after the modifiers of the file, if there is one, and the modifiers that
are left for the first type. -/
def packagePart (leading : List Modifier) :
    Parser (Option PackageDeclaration × List Modifier) := do
  if atKind (.keyword .packageWord) (← ahead) then
    return (← (packageDeclaration leading).orSkip pastSemicolon, [])
  else
    return (none, leading)

/-- The imports; there are none where modifiers wait for a type. -/
def importPart (pending : List Modifier) : Parser (List ImportDeclaration) :=
  if pending.isEmpty then importDeclarations else return []

/-- **`compilationUnit`** — a whole file. Modifiers at its top belong to the package if that is
declared, and to the first type otherwise; in that case no imports can follow. -/
def compilationUnit : Parser CompilationUnit := do
  let leading ← (modifiers (.ofBudget maxNesting)).orSkip toNextType
  let (package?, pending) ← packagePart (leading.getD [])
  let imports ← importPart pending
  let types ← topLevels pending
  let eof ← endToken
  return { package?, imports, types, eof }

/-- An annotation that must be all there is. What follows it is reported, but it is kept. -/
def wholeAnnotation : Parser Annotation := do
  let a ← (Grammar.ofBudget maxNesting).annot
  if !atEnd (← ahead) then report (.unexpected .endOfInput)
  return a

/-- Runs the parser on a list of tokens. -/
def parse {α : Type} (p : Parser α) (tokens : List Token) : ParseResult α :=
  let (tree?, state) := p.run { rest := tokens }
  { tree?, diagnostics := state.diagnostics }

end Parser

/-! ## From texts -/

/-- **`parseUnit source file`** — parses the text of a whole file. -/
def parseUnit (source : String) (file : Option String := none) : ParseResult CompilationUnit :=
  Parser.compilationUnit.parse (tokenize source file)

/-- **`parseAnnotation source`** — parses a text that is one annotation. -/
def parseAnnotation (source : String) : ParseResult Annotation :=
  Parser.wholeAnnotation.parse (tokenize source)

end DeferFetch
