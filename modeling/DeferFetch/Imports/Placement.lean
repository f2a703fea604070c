/-
# DeferFetch.Imports.Placement — where new imports go.

A new import goes to the imports that share the longest beginning of its package, in alphabetical
position among them. It takes over the blanks and comments above an import that it displaces. A
package of which many types are imported can be folded into one import on demand.
-/
import DeferFetch.Imports.Plan

namespace DeferFetch

/-- A run of blanks that comes from no text. -/
def blankTrivia (text : String) : Trivia := ⟨.blank, text, {}⟩

/-! ## Choosing a place -/

/-- The length of the longest common beginning. -/
def commonLength : List String → List String → Nat
  | x :: xs, y :: ys => if x = y then commonLength xs ys + 1 else 0
  | _, _ => 0

/-- How many parts two package names share from the beginning. -/
def sharedSegments : Option String → Option String → Nat
  | some a, some b => commonLength (Text.split '.' a) (Text.split '.' b)
  | _, _ => 0

namespace ImportDeclaration

/-- The package that an import is filed under; an import on demand under the whole of its name. -/
def filedUnder (i : ImportDeclaration) : Option String :=
  if i.isOnDemand then some i.importedName else qualifierOf i.importedName

/-- How near an import is to a package; a static one is not compared. -/
def nearness? (i : ImportDeclaration) (package? : Option String) : Option Nat :=
  if i.isStatic then none else some (sharedSegments i.filedUnder package?)

end ImportDeclaration

/-- The largest number that occurs. -/
def largest? (ns : List (Option Nat)) : Option Nat := (ns.filterMap id).max?

/-- **`nearest imports package`** — the positions of the imports that are nearest to a package. -/
def nearest (imports : List ImportDeclaration) (package? : Option String) : List Nat :=
  let scores := imports.map (·.nearness? package?)
  match largest? scores with
  | none => []
  | some best => (List.range imports.length).filter fun i => scores[i]? = some (some best)

/-- **`ImportPlace`** — a place for a new import: before or after the one at a position. -/
inductive ImportPlace where
  | before (index : Nat)
  | after (index : Nat)
deriving DecidableEq, Repr

/-- **`placeFor imports name`** — the place for a type among other imports: before the first of the
nearest ones that comes later in the alphabet, or else after the last of them; at the very front if
all imports are static. -/
def placeFor (imports : List ImportDeclaration) (name : String) : ImportPlace :=
  let group := nearest imports (qualifierOf name)
  let later := group.find? fun i => imports[i]?.any fun other => name < other.importedName
  match later, group.getLast? with
  | some i, _ => .before i
  | none, some i => .after i
  | none, none => .before 0

/-! ## Inserting -/

/-- Puts `x` before the element at `index`. -/
def insertAt {α : Type} (xs : List α) (index : Nat) (x : α) : List α :=
  xs.take index ++ x :: xs.drop index

/-- **`insertBefore imports index name`** — inserts an import before another one, from which it
takes over what stands above. -/
def insertBefore (imports : List ImportDeclaration) (index : Nat) (name : String) :
    List ImportDeclaration :=
  match imports.drop index with
  | [] => imports ++ [.ofType name]
  | displaced :: after =>
    let fresh := ImportDeclaration.ofType name
    let fresh := { fresh with word := { fresh.word with trivia := displaced.word.trivia } }
    let displaced :=
      { displaced with word := { displaced.word with trivia := [blankTrivia "\n"] } }
    imports.take index ++ fresh :: displaced :: after

/-- The imports with one more, at its place; there must be some already. -/
def insertAmong (imports : List ImportDeclaration) (name : String) : List ImportDeclaration :=
  match placeFor imports name with
  | .before index => insertBefore imports index name
  | .after index => insertAt imports (index + 1) (.ofType name "\n")

/-- Adds trivia in front of all that a token has. -/
def Token.prependTrivia (trivia : Trivia) (t : Token) : Token :=
  { t with trivia := trivia :: t.trivia }

/-- Changes the first token of a modifier. -/
def Modifier.mapFirst (f : Token → Token) : Modifier → Modifier
  | .keyword t => .keyword (f t)
  | .contextual words => .contextual { words with first := f words.first }
  | .annot a => .annot { a with sigil := f a.sigil }

/-- Changes the first token of a type declaration. -/
def TypeDeclaration.mapFirst (f : Token → Token) (d : TypeDeclaration) : TypeDeclaration :=
  match d.modifiers with
  | modifier :: modifiers => { d with modifiers := modifier.mapFirst f :: modifiers }
  | [] => { d with introducer := { d.introducer with first := f d.introducer.first } }

namespace CompilationUnit

/-- Changes the first token after the imports. -/
def mapFirstAfterImports (f : Token → Token) (u : CompilationUnit) : CompilationUnit :=
  match u.types with
  | .type d :: types => { u with types := .type (d.mapFirst f) :: types }
  | .empty t :: types => { u with types := .empty (f t) :: types }
  | [] => { u with eof := f u.eof }

/-- **`u.insertImport name`** — inserts the import of one type. In a file without imports it comes
after the package declaration, or at the top, with an empty line between. -/
def insertImport (u : CompilationUnit) (name : String) : CompilationUnit :=
  if !u.imports.isEmpty then { u with imports := insertAmong u.imports name }
  else if u.package?.isSome then { u with imports := [.ofType name "\n\n"] }
  else { u.mapFirstAfterImports (.prependTrivia (blankTrivia "\n\n")) with
         imports := [.ofType name] }

end CompilationUnit

/-! ## Folding -/

/-- The import is of a single type of that package. -/
def ImportDeclaration.isSingleTypeOf (i : ImportDeclaration) (package : String) : Bool :=
  !i.isStatic && !i.isOnDemand && qualifierOf i.importedName = some package

/-- Replaces the first import that `p` holds of by its image and leaves the others of them out. -/
def replaceFirst {α : Type} (p : α → Bool) (image : α → α) : List α → List α
  | [] => []
  | x :: xs => if p x then image x :: xs.filter (!p ·) else x :: replaceFirst p image xs

/-- **`foldImports imports package threshold`** — replaces the imports of single types of a package
by one on demand, which stands where the first of them stood, if there are at least `threshold` of
them and no such import is there yet. -/
def foldImports (imports : List ImportDeclaration) (package : String) (threshold : Nat) :
    List ImportDeclaration :=
  let isSingle (i : ImportDeclaration) : Bool := i.isSingleTypeOf package
  let folded (i : ImportDeclaration) : ImportDeclaration :=
    let fresh := ImportDeclaration.ofPackage package
    { fresh with word := { fresh.word with trivia := i.word.trivia } }
  if imports.any (·.packageOnDemand? = some package) then imports
  else if imports.countP isSingle < threshold then imports
  else replaceFirst isSingle folded imports

namespace ImportPlan

/-- The packages of the types to import, each once. -/
def addedPackages (p : ImportPlan) : List String :=
  (p.addedTypes.filterMap qualifierOf).eraseDups

/-- How many imports carrying out the plan inserts, before any of them are folded. -/
def insertions (p : ImportPlan) : Nat := p.added.length

/-- **`p.applyTo unit fold?`** — the file with the new imports, after which the packages that got
one are folded if a threshold is given. -/
def applyTo (p : ImportPlan) (unit : CompilationUnit) (fold? : Option Nat) : CompilationUnit :=
  let extended := p.addedTypes.foldl CompilationUnit.insertImport unit
  match fold? with
  | none => extended
  | some threshold =>
    let imports := p.addedPackages.foldl (foldImports · · threshold) extended.imports
    { extended with imports }

end ImportPlan

end DeferFetch
