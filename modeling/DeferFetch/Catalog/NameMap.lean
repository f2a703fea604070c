/-
# DeferFetch.Catalog.NameMap — values by name, in the order in which the names came.

A map is the list of its entries. Looking a name up finds its first entry, so adding a name that is
there already can be done in two ways: the old value stays (`insertNew`), or the new one takes its
place in the order (`put`).
-/

namespace DeferFetch

/-- **`NameMap α`** — the entries of a map from names to values, in order. -/
abbrev NameMap (α : Type) := List (String × α)

namespace NameMap

variable {α : Type}

/-- The value of the first entry with that name. -/
def get? : NameMap α → String → Option α
  | [], _ => none
  | (key, a) :: m, name => if name = key then some a else get? m name

/-- **`m.insertNew name a`** — adds an entry at the end, unless the name has one. -/
def insertNew (m : NameMap α) (name : String) (a : α) : NameMap α :=
  if (m.get? name).isSome then m else m ++ [(name, a)]

/-- **`m.put name a`** — gives the name a new value where its entry stands, or else adds an entry at
the end. -/
def put : NameMap α → String → α → NameMap α
  | [], name, a => [(name, a)]
  | (key, b) :: m, name, a => if name = key then (key, a) :: m else (key, b) :: put m name a

/-- The map of some entries in which the first one of a name counts. -/
def firstOfEach (entries : List (String × α)) : NameMap α :=
  entries.foldl (fun m (name, a) => m.insertNew name a) []

/-- The map of some entries in which the last one of a name counts, where the first one stood. -/
def lastOfEach (entries : List (String × α)) : NameMap α :=
  entries.foldl (fun m (name, a) => m.put name a) []

end NameMap

end DeferFetch
