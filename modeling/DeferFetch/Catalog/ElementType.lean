/-
# DeferFetch.Catalog.ElementType — the types that elements of annotations can have.
-/

namespace DeferFetch

/-- The primitive types. -/
inductive PrimitiveType where
  | boolean
  | byte
  | char
  | double
  | float
  | int
  | long
  | short
deriving DecidableEq, Repr, Inhabited

namespace PrimitiveType

/-- The keyword of the type. -/
def text : PrimitiveType → String
  | .boolean => "boolean"
  | .byte => "byte"
  | .char => "char"
  | .double => "double"
  | .float => "float"
  | .int => "int"
  | .long => "long"
  | .short => "short"

/-- Every primitive type. -/
def all : List PrimitiveType := [.boolean, .byte, .char, .double, .float, .int, .long, .short]

end PrimitiveType

/-- **`ElementType`** — a primitive type, a class known by its qualified name, or an array. -/
inductive ElementType where
  | primitive (type : PrimitiveType)
  | class (name : String)
  | array (element : ElementType)
deriving DecidableEq, Repr, Inhabited

namespace ElementType

/-- The type of texts. -/
def string : ElementType := .class "java.lang.String"

/-- The type as it is written. -/
def text : ElementType → String
  | .primitive p => p.text
  | .class name => name
  | .array element => element.text ++ "[]"

/-- The type is the class of that name. -/
def isClass (t : ElementType) (name : String) : Bool := t = .class name

/-- The type is primitive. -/
def isPrimitive : ElementType → Bool
  | .primitive _ => true
  | _ => false

/-- The name of the class that the type is. -/
def className? : ElementType → Option String
  | .class name => some name
  | _ => none

/-- What an array of any depth holds in the end; the type itself if it is no array. -/
def innermost : ElementType → ElementType
  | .array element => element.innermost
  | t => t

/-- The type without any array, of which `cs` is the text. -/
def scalarOfChars (cs : List Char) : ElementType :=
  match PrimitiveType.all.find? (·.text = String.ofList cs) with
  | some p => .primitive p
  | none => .class (String.ofList cs)

/-- The type of which `cs` is the text, read backwards: brackets at the end make arrays. -/
def ofReversed : List Char → ElementType
  | ']' :: '[' :: cs => .array (ofReversed cs)
  | cs => scalarOfChars cs.reverse

/-- **`ofText s`** — the type written as `s`. A name that is not that of a primitive type is one
of a class. -/
def ofText (s : String) : ElementType := ofReversed s.toList.reverse

end ElementType

end DeferFetch
