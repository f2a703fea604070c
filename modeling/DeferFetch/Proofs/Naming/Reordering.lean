/-
# DeferFetch.Proofs.Naming.Reordering — the order of the imports gives no name its meaning.

A name that is imported once, or several times with the same type, is found wherever its import
stands; packages and types that are searched on demand are all searched before one is chosen. So the
imports of a file can be put in another order without changing what names mean, unless two of them
give one name to different types. Then the first counts.
-/
import DeferFetch.Proofs.Grammar.Text
import DeferFetch.Proofs.Imports.Insertion

namespace DeferFetch

/-! ## Lists with the same members -/

/-- Of lists with the same members, each without its repetitions is the other in another order. -/
theorem eraseDups_perm {α : Type} [BEq α] [LawfulBEq α] {as bs : List α}
    (same : ∀ a, a ∈ as ↔ a ∈ bs) : as.eraseDups.Perm bs.eraseDups := by
  refine (List.perm_ext_iff_of_nodup (nodup_eraseDups as) (nodup_eraseDups bs)).2 ?_
  intro a
  rw [List.mem_eraseDups, List.mem_eraseDups, same]

namespace NameMap

variable {α : Type} {m m' : NameMap α} {name : String} {a : α}

/-- **`m.SingleValued`** — entries of one name have one value. -/
def SingleValued (m : NameMap α) : Prop :=
  ∀ entry ∈ m, ∀ other ∈ m, entry.1 = other.1 → entry.2 = other.2

instance [DecidableEq α] (m : NameMap α) : Decidable m.SingleValued :=
  inferInstanceAs (Decidable (∀ entry ∈ m, ∀ other ∈ m, entry.1 = other.1 → entry.2 = other.2))

/-- What is found under a name is the value of any of its entries. -/
theorem SingleValued.get?_eq_some_iff (h : SingleValued m) :
    m.get? name = some a ↔ (name, a) ∈ m := by
  refine ⟨mem_of_get?, fun mem => ?_⟩
  cases found : m.get? name with
  | none => exact absurd (List.mem_map_of_mem mem) (not_mem_of_get?_eq_none found)
  | some b => exact congrArg some (h _ (mem_of_get? found) _ mem rfl)

/-- Single-valued maps with the same entries find the same, in whatever order the entries are. -/
theorem SingleValued.get?_congr (h : SingleValued m) (same : ∀ entry, entry ∈ m ↔ entry ∈ m')
    (name : String) : m.get? name = m'.get? name := by
  have h' : SingleValued m' := fun entry mem other mem' =>
    h entry ((same entry).2 mem) other ((same other).2 mem')
  refine Option.ext fun a => ?_
  rw [h.get?_eq_some_iff, h'.get?_eq_some_iff, same]

end NameMap

/-! ## Files with the same imports -/

/-- What is read off the outlines of imports has the same members if the outlines have. -/
theorem ImportDeclaration.mem_filterMap_congr {α : Type} {g : ImportDeclaration → Option α}
    (congr : ∀ {i j : ImportDeclaration}, i.outline = j.outline → g i = g j)
    {imports imports' : List ImportDeclaration}
    (same : ∀ outline, outline ∈ imports.map ImportDeclaration.outline ↔
      outline ∈ imports'.map ImportDeclaration.outline) (a : α) :
    a ∈ imports.filterMap g ↔ a ∈ imports'.filterMap g := by
  have half {is js : List ImportDeclaration}
      (found : ∀ outline ∈ is.map ImportDeclaration.outline,
        outline ∈ js.map ImportDeclaration.outline)
      (mem : a ∈ is.filterMap g) : a ∈ js.filterMap g := by
    obtain ⟨i, hi, hit⟩ := List.mem_filterMap.1 mem
    obtain ⟨j, hj, outline⟩ := List.mem_map.1 (found i.outline (List.mem_map_of_mem hi))
    exact List.mem_filterMap.2 ⟨j, hj, (congr outline).trans hit⟩
  exact ⟨half fun outline => (same outline).1, half fun outline => (same outline).2⟩

namespace CompilationUnit

variable {u v : CompilationUnit}

/-- The static members that are imported by name, with their types, in the order of the imports. -/
def staticMembers (u : CompilationUnit) : List (String × String) :=
  u.imports.filterMap ImportDeclaration.staticSingle?

/-- **The same imports make the same visible** — in whatever order and however often a file has
them, unless two of them give one name to different types. -/
theorem alike (package : u.packageName = v.packageName) (types : u.typeEntries = v.typeEntries)
    (same : ∀ outline, outline ∈ u.imports.map ImportDeclaration.outline ↔
      outline ∈ v.imports.map ImportDeclaration.outline)
    (single : NameMap.SingleValued u.singleTypes)
    (static : NameMap.SingleValued u.staticMembers)
    (catalog : Catalog) (pending : NameMap String) :
    Scope.Alike ⟨.ofUnit u catalog, pending⟩ ⟨.ofUnit v catalog, pending⟩ where
  catalog := rfl
  package? := package
  declared := congrArg NameMap.firstOfEach types
  imported? simple := by
    have mem := ImportDeclaration.mem_filterMap_congr ImportDeclaration.singleType?_congr same
    have found := single.get?_congr mem simple
    simp only [Scope.imported?, SymbolTable.ofUnit, NameMap.get?_firstOfEach]
    exact congrArg (· <|> pending.get? simple) found
  onDemand := eraseDups_perm
    (ImportDeclaration.mem_filterMap_congr ImportDeclaration.packageOnDemand?_congr same)
  staticSingle member := by
    have mem := ImportDeclaration.mem_filterMap_congr ImportDeclaration.staticSingle?_congr same
    simp only [SymbolTable.ofUnit, NameMap.get?_firstOfEach]
    exact static.get?_congr mem member
  staticOnDemand := eraseDups_perm
    (ImportDeclaration.mem_filterMap_congr ImportDeclaration.staticOnDemand?_congr same)

/-- **Names do not depend on the order of the imports** — files of one package that declare the same
types and have the same imports in different orders give every name the same type and every static
member the same owner, unless two imports of single types, or of single static members, give one
name to different types. -/
theorem resolve_reordered (catalog : Catalog) (pending : NameMap String)
    (package : u.packageName = v.packageName) (types : u.typeEntries = v.typeEntries)
    (imports : (u.imports.map ImportDeclaration.outline).Perm
      (v.imports.map ImportDeclaration.outline))
    (single : NameMap.SingleValued u.singleTypes)
    (static : NameMap.SingleValued u.staticMembers) :
    (∀ name, Scope.resolve ⟨.ofUnit u catalog, pending⟩ name =
      Scope.resolve ⟨.ofUnit v catalog, pending⟩ name) ∧
    ∀ member, Scope.resolveStatic ⟨.ofUnit u catalog, pending⟩ member =
      Scope.resolveStatic ⟨.ofUnit v catalog, pending⟩ member := by
  have alike := alike package types (fun outline => imports.mem_iff) single static catalog pending
  exact ⟨alike.resolve, alike.resolveStatic⟩

/-- Imports of all four kinds, one of them twice, and two packages that both have a `List`. -/
theorem resolve_reordered_rivals :
    let catalog : Catalog := ⟨[("a.List", .class), ("b.List", .class), ("a.Set", .class),
      ("a.Set.Entry", .class), ("c.Mode", .enumeration ["ON", "OFF"])]⟩
    let source := "package p;\nimport a.*;\nimport b.*;\nimport a.Set;\nimport a.Set;\n" ++
      "import static c.Mode.*;\nimport static c.Mode.ON;\nclass A \x7b\x7d\n"
    let reordered := "package p;\nimport static c.Mode.ON;\nimport a.Set; // moved\nimport b.*;\n" ++
      "import static c.Mode.*;\nimport a.Set;\nimport a.*;\nclass A \x7b\x7d\n"
    ∃ u v, (parseUnit source).toExcept = .ok u ∧ (parseUnit reordered).toExcept = .ok v ∧
      u.packageName = v.packageName ∧ u.typeEntries = v.typeEntries ∧
      (u.imports.map ImportDeclaration.outline).Perm (v.imports.map ImportDeclaration.outline) ∧
      NameMap.SingleValued u.singleTypes ∧ NameMap.SingleValued u.staticMembers ∧
      (∀ name, Scope.resolve ⟨.ofUnit u catalog, []⟩ name =
        Scope.resolve ⟨.ofUnit v catalog, []⟩ name) ∧
      ∀ member, Scope.resolveStatic ⟨.ofUnit u catalog, []⟩ member =
        Scope.resolveStatic ⟨.ofUnit v catalog, []⟩ member := by
  intro catalog source reordered
  have first : ((parseUnit source).toExcept.toOption.map
      fun u => (u.packageName, u.typeEntries, u.imports.map ImportDeclaration.outline,
        decide (NameMap.SingleValued u.singleTypes ∧ NameMap.SingleValued u.staticMembers))) =
      some (some "p", [("A", "p.A")],
        [⟨false, true, "a"⟩, ⟨false, true, "b"⟩, ⟨false, false, "a.Set"⟩, ⟨false, false, "a.Set"⟩,
          ⟨true, true, "c.Mode"⟩, ⟨true, false, "c.Mode.ON"⟩], true) := by decide +kernel
  have second : ((parseUnit reordered).toExcept.toOption.map
      fun v => (v.packageName, v.typeEntries, v.imports.map ImportDeclaration.outline)) =
      some (some "p", [("A", "p.A")],
        [⟨true, false, "c.Mode.ON"⟩, ⟨false, false, "a.Set"⟩, ⟨false, true, "b"⟩,
          ⟨true, true, "c.Mode"⟩, ⟨false, false, "a.Set"⟩, ⟨false, true, "a"⟩]) := by
    decide +kernel
  obtain ⟨u, parsed, facts⟩ := exists_of_toOption_map first
  obtain ⟨v, parsed', facts'⟩ := exists_of_toOption_map second
  simp only [Prod.mk.injEq] at facts facts'
  obtain ⟨package, types, imports, singleValued⟩ := facts
  obtain ⟨package', types', imports'⟩ := facts'
  have package := package.trans package'.symm
  have types := types.trans types'.symm
  have perm : (u.imports.map ImportDeclaration.outline).Perm
      (v.imports.map ImportDeclaration.outline) := by
    rw [imports, imports']
    decide
  obtain ⟨single, static⟩ := of_decide_eq_true singleValued
  have same := resolve_reordered catalog [] package types perm single static
  exact ⟨u, v, parsed, parsed', package, types, perm, single, static, same⟩

end CompilationUnit

end DeferFetch
