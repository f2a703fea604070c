/-
# DeferFetch.Naming.SymbolTable — what a file makes visible.

A `SymbolTable` records the types that a file declares, its imports and its package, and the catalog
in which names of other types are looked up.
-/
import DeferFetch.Catalog.Persistence
import DeferFetch.Syntax.Declaration

namespace DeferFetch

/-! ## The imports of a file, sorted -/

/-- The import of a single type: its simple name and its qualified name. -/
def ImportDeclaration.singleType? (i : ImportDeclaration) : Option (String × String) :=
  if i.isStatic || i.isOnDemand then none
  else some (simpleNameOf i.importedName, i.importedName)

/-- The package of which an import makes all types visible. -/
def ImportDeclaration.packageOnDemand? (i : ImportDeclaration) : Option String :=
  if !i.isStatic && i.isOnDemand then some i.importedName else none

/-- The import of a single static member: its name and the type that has it. -/
def ImportDeclaration.staticSingle? (i : ImportDeclaration) : Option (String × String) :=
  if i.isStatic && !i.isOnDemand then
    (qualifierOf i.importedName).map fun owner => (simpleNameOf i.importedName, owner)
  else none

/-- The type of which an import makes all static members visible. -/
def ImportDeclaration.staticOnDemand? (i : ImportDeclaration) : Option String :=
  if i.isStatic && i.isOnDemand then some i.importedName else none

/-! ## Declared types -/

/-- The name within a package or type, if there is one around it. -/
def qualifyIn (outer : Option String) (name : String) : String :=
  match outer with
  | some outer => outer ++ "." ++ name
  | none => name

mutual

/-- **`d.qualifiedNames outer`** — the simple and the qualified name of a type declared within
`outer` and of the types nested in it, inner before outer. -/
def TypeDeclaration.qualifiedNames (outer : Option String) :
    TypeDeclaration → List (String × String)
  | ⟨_, _, _, name, _, _, members, _⟩ =>
    let qualified := qualifyIn outer name.text
    Member.listQualifiedNames qualified members ++ [(name.text, qualified)]

/-- The names of the types that a member of `outer` declares. -/
def Member.qualifiedNames (outer : String) : Member → List (String × String)
  | .type declaration => declaration.qualifiedNames (some outer)
  | _ => []

/-- The names of the types that several members of `outer` declare. -/
def Member.listQualifiedNames (outer : String) : List Member → List (String × String)
  | [] => []
  | member :: members => member.qualifiedNames outer ++ Member.listQualifiedNames outer members

end

/-! ## Symbol tables -/

/-- **`SymbolTable`** — what a file makes visible, by simple name. Of entries with the same name the
first one counts. -/
structure SymbolTable where
  catalog : Catalog
  package? : Option String
  declared : NameMap String
  singleType : NameMap String
  onDemand : List String
  staticSingle : NameMap String
  staticOnDemand : List String

namespace SymbolTable

/-- **`ofUnit unit catalog`** — the table of a file. -/
def ofUnit (unit : CompilationUnit) (catalog : Catalog) : SymbolTable where
  catalog
  package? := unit.packageName
  declared := .firstOfEach
    (unit.declarations.flatMap (·.qualifiedNames unit.packageName))
  singleType := .firstOfEach (unit.imports.filterMap ImportDeclaration.singleType?)
  onDemand := (unit.imports.filterMap ImportDeclaration.packageOnDemand?).eraseDups
  staticSingle := .firstOfEach (unit.imports.filterMap ImportDeclaration.staticSingle?)
  staticOnDemand := (unit.imports.filterMap ImportDeclaration.staticOnDemand?).eraseDups

/-- The file declares a type of that qualified name. -/
def declares (t : SymbolTable) (name : String) : Bool := t.declared.any (·.2 = name)

/-- The qualified name is that of a type in the catalog or in the file. -/
def knows (t : SymbolTable) (name : String) : Bool := t.catalog.contains name || t.declares name

end SymbolTable

end DeferFetch
