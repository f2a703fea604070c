/-
# DeferFetch.Catalog.Persistence — the mapping annotations of a persistence package.

The package exists under two names, its present one and the one before. Of it the catalog lists what
entity classes mention most, beside the types of `java.lang`. The targets are the two annotations
that associate an entity with a single other one, and the enumeration of fetch modes.
-/
import DeferFetch.Catalog.Basic
import DeferFetch.Text.CharClass

namespace DeferFetch

/-- **`Namespace`** — the two names of the persistence package. -/
inductive Namespace where
  | jakarta
  | javax
deriving DecidableEq, Repr, Inhabited

namespace Namespace

/-- The short name. -/
def text : Namespace → String
  | .jakarta => "jakarta"
  | .javax => "javax"

/-- The name of the package. -/
def package (n : Namespace) : String := n.text ++ ".persistence"

/-- The qualified name of a type of the package. -/
def qualify (n : Namespace) (name : String) : String := n.package ++ "." ++ name

/-- **`ofText? s`** — the namespace that `s` names, by its short name or its package. Blanks around
the name do not count. -/
def ofText? (s : String) : Option Namespace :=
  let name := Text.trim s
  [jakarta, javax].find? fun n => name = n.text || name = n.package

/-- The complaint about a text that names neither. -/
def unknownMessage (s : String) : String :=
  "unknown persistence namespace `" ++ Text.trim s ++ "` (expected `jakarta` or `javax`)"

end Namespace

/-- **`Targets`** — the qualified names of the annotations to make lazy and of the fetch modes. -/
structure Targets where
  oneToOne : String
  manyToOne : String
  fetchType : String
deriving DecidableEq, Repr, Inhabited

namespace Targets

/-- The targets in one of the persistence packages. -/
def ofNamespace (n : Namespace) : Targets where
  oneToOne := n.qualify "OneToOne"
  manyToOne := n.qualify "ManyToOne"
  fetchType := n.qualify "FetchType"

/-- The annotations to make lazy. -/
def annotationTypes (t : Targets) : List String := [t.manyToOne, t.oneToOne]

end Targets

namespace Catalog

/-- The types of `java.lang` that arguments of annotations mention. -/
def langTypes : List CatalogType :=
  ["Boolean", "Byte", "Character", "Class", "Double", "Enum", "Float", "Integer", "Long", "Number",
    "Object", "Short", "String", "Void"].map (fun name => .ofClass ("java.lang." ++ name))
  ++ [.ofElements "java.lang.Deprecated"
        [("since", .string), ("forRemoval", .primitive .boolean)],
      .ofElements "java.lang.Override" [],
      .ofElements "java.lang.SuppressWarnings" [("value", .array .string)]]

/-- **`lang`** — the catalog of those types alone. -/
def lang : Catalog := registerAll {} langTypes

/-- The types of a persistence package. -/
def persistenceTypes (n : Namespace) : List CatalogType :=
  let q := n.qualify
  let boolean : ElementType := .primitive .boolean
  let target := ("targetEntity", ElementType.class "java.lang.Class")
  let fetch := ("fetch", ElementType.class (q "FetchType"))
  let cascade := ("cascade", ElementType.array (.class (q "CascadeType")))
  let optional := ("optional", boolean)
  let mappedBy := ("mappedBy", ElementType.string)
  let orphanRemoval := ("orphanRemoval", boolean)
  let name := ("name", ElementType.string)
  let flags := [("insertable", boolean), ("updatable", boolean)]
  [.ofConstants (q "FetchType") ["LAZY", "EAGER"],
   .ofConstants (q "CascadeType") ["ALL", "PERSIST", "MERGE", "REMOVE", "REFRESH", "DETACH"],
   .ofConstants (q "GenerationType") ["TABLE", "SEQUENCE", "IDENTITY", "UUID", "AUTO"],
   .ofConstants (q "EnumType") ["ORDINAL", "STRING"],
   .ofElements (q "OneToOne") [target, cascade, fetch, optional, mappedBy, orphanRemoval],
   .ofElements (q "ManyToOne") [target, cascade, fetch, optional],
   .ofElements (q "OneToMany") [target, cascade, fetch, mappedBy, orphanRemoval],
   .ofElements (q "ManyToMany") [target, cascade, fetch, mappedBy],
   .ofElements (q "Basic") [fetch, optional],
   .ofElements (q "ElementCollection") [("targetClass", .class "java.lang.Class"), fetch],
   .ofElements (q "Entity") [name],
   .ofElements (q "Table") [name, ("catalog", .string), ("schema", .string)],
   .ofElements (q "Column")
     ([name, ("unique", boolean), ("nullable", boolean)] ++ flags
       ++ [("length", .primitive .int)]),
   .ofElements (q "JoinColumn")
     ([name, ("referencedColumnName", .string), ("unique", boolean), ("nullable", boolean)]
       ++ flags),
   .ofElements (q "GeneratedValue")
     [("strategy", .class (q "GenerationType")), ("generator", .string)],
   .ofElements (q "Enumerated") [("value", .class (q "EnumType"))],
   .ofElements (q "MapsId") [("value", .string)]]
  ++ ["Embeddable", "Embedded", "Id", "MappedSuperclass", "Transient", "Version"].map
      fun name => .ofElements (q name) []

/-- **`persistence n`** — the catalog of `java.lang` and one persistence package. -/
def persistence (n : Namespace) : Catalog := lang.registerAll (persistenceTypes n)

end Catalog

end DeferFetch
