/-
# DeferFetch.Catalog.Basic — the types that names can mean.

A `Catalog` stands in for the classes a program is compiled against: which qualified names there
are, which constants an enumeration has, and which elements an annotation type.
-/
import DeferFetch.Catalog.NameMap
import DeferFetch.Catalog.ElementType

namespace DeferFetch

/-- **`TypeShape`** — what is known of a type. -/
inductive TypeShape where
  | «class»
  | enumeration (constants : List String)
  | annotationType (elements : NameMap ElementType)
deriving DecidableEq, Repr, Inhabited

/-- **`CatalogType`** — a type by its qualified name. -/
structure CatalogType where
  name : String
  shape : TypeShape
deriving DecidableEq, Repr, Inhabited

namespace CatalogType

/-- A class of which only the name matters. -/
def ofClass (name : String) : CatalogType := ⟨name, .class⟩

/-- An enumeration; a constant that is listed again is ignored. -/
def ofConstants (name : String) (constants : List String) : CatalogType :=
  ⟨name, .enumeration constants.eraseDups⟩

/-- An annotation type; an element that is listed again changes its type. -/
def ofElements (name : String) (elements : List (String × ElementType)) : CatalogType :=
  ⟨name, .annotationType (.lastOfEach elements)⟩

end CatalogType

/-- **`Catalog`** — the known types, in the order in which they were added. -/
structure Catalog where
  shapes : NameMap TypeShape := []
deriving DecidableEq, Repr, Inhabited

namespace Catalog

/-- What is known of the type of that name. -/
def get? (c : Catalog) (name : String) : Option CatalogType :=
  (c.shapes.get? name).map (⟨name, ·⟩)

/-- **`c.register type`** — adds a type, in the place of one of the same name if there is one. -/
def register (c : Catalog) (type : CatalogType) : Catalog := ⟨c.shapes.put type.name type.shape⟩

/-- Adds several types in order. -/
def registerAll (c : Catalog) (types : List CatalogType) : Catalog := types.foldl register c

/-- The types in order. -/
def types (c : Catalog) : List CatalogType := c.shapes.map fun (name, shape) => ⟨name, shape⟩

/-- The number of types. -/
def size (c : Catalog) : Nat := c.shapes.length

/-- The name is that of a known type. -/
def contains (c : Catalog) (name : String) : Bool := (c.shapes.get? name).isSome

/-- The name is that of a known enumeration that has the constant. -/
def hasConstant (c : Catalog) (name constant : String) : Bool :=
  match c.shapes.get? name with
  | some (.enumeration constants) => constants.contains constant
  | _ => false

/-- The type of an element of a known annotation type. -/
def elementType? (c : Catalog) (name element : String) : Option ElementType :=
  match c.shapes.get? name with
  | some (.annotationType elements) => elements.get? element
  | _ => none

end Catalog

end DeferFetch
