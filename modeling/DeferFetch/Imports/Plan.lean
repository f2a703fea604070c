/-
# DeferFetch.Imports.Plan — which imports a file still needs.

A plan starts from what a file imports. Types are registered with it one after the other, and it
keeps those for which the file needs a new import. `DeferFetch.Imports.Placement` inserts them.
-/
import DeferFetch.Naming.SymbolTable

namespace DeferFetch

/-- **`ImportPlan`** — the package and the imports of a file, static ones aside, and what is to be
imported besides, by simple name in the order of registration. -/
structure ImportPlan where
  package? : Option String
  singleType : NameMap String
  onDemand : List String
  added : NameMap String := []
deriving DecidableEq, Repr

/-- **`ImportOutcome`** — what registering a type comes to: it will be imported, it is or will be
imported already, it is visible without an import, or another type of its name is imported. -/
inductive ImportOutcome where
  | added
  | alreadyImported
  | implicit
  | conflict (existing : String)
deriving DecidableEq, Repr

namespace ImportPlan

/-- The plan of a file, with nothing to add yet. -/
def ofUnit (unit : CompilationUnit) : ImportPlan where
  package? := unit.packageName
  singleType := .firstOfEach (unit.imports.filterMap ImportDeclaration.singleType?)
  onDemand := (unit.imports.filterMap ImportDeclaration.packageOnDemand?).eraseDups

/-- **`p.isImplicit package`** — the types of a package are visible without imports of their own:
`java.lang`, the file's own package, and what it imports on demand. Types without a package cannot
be imported at all. -/
def isImplicit (p : ImportPlan) : Option String → Bool
  | none => true
  | some package =>
    package = "java.lang" || p.package? = some package || p.onDemand.contains package

/-- The type that is or will be imported under a simple name. -/
def imported? (p : ImportPlan) (simple : String) : Option String :=
  p.singleType.get? simple <|> p.added.get? simple

/-- What registering a type would come to. -/
def outcome (p : ImportPlan) (name : String) : ImportOutcome :=
  match p.imported? (simpleNameOf name) with
  | some existing => if existing = name then .alreadyImported else .conflict existing
  | none => if p.isImplicit (qualifierOf name) then .implicit else .added

/-- **`p.register name`** — the plan after registering the type of that qualified name. Only a type
that needs an import changes it. -/
def register (p : ImportPlan) (name : String) : ImportPlan :=
  match p.outcome name with
  | .added => { p with added := p.added ++ [(simpleNameOf name, name)] }
  | _ => p

/-- The types to import, in the order of their registration. -/
def addedTypes (p : ImportPlan) : List String := p.added.map Prod.snd

end ImportPlan

end DeferFetch
