/-
# DeferFetch.Proofs.Naming.Agreement — scopes in which every name means the same.

Whether a type is imported already or its import is still pending makes no difference to what names
mean, nor does the order of the imports. Scopes that agree in the rest resolve every name alike:
`Agree` leaves open in which of two tables a single type is found, `Alike` in which order packages
and types are searched as well.
-/
import DeferFetch.Naming.Scope

namespace DeferFetch

namespace Scope

/-- The type that a simple name means by an import, pending or not. -/
def imported? (s : Scope) (simple : String) : Option String :=
  s.symbols.singleType.get? simple <|> s.pending.get? simple

/-- **`Alike s s'`** — the scopes may search what is imported on demand in another order, and differ
in nothing else that a name can get its meaning from. -/
structure Alike (s s' : Scope) : Prop where
  catalog : s.symbols.catalog = s'.symbols.catalog
  package? : s.symbols.package? = s'.symbols.package?
  declared : s.symbols.declared = s'.symbols.declared
  imported? : ∀ simple, s.imported? simple = s'.imported? simple
  onDemand : s.symbols.onDemand.Perm s'.symbols.onDemand
  staticSingle : ∀ member,
    s.symbols.staticSingle.get? member = s'.symbols.staticSingle.get? member
  staticOnDemand : s.symbols.staticOnDemand.Perm s'.symbols.staticOnDemand

end Scope

/-- The only member of a list is that of the list in any order. -/
theorem only?_perm {α : Type} {as bs : List α} (perm : as.Perm bs) : only? as = only? bs := by
  match as with
  | [] => rw [perm.nil_eq]
  | [a] => rw [List.perm_singleton.1 perm.symm]
  | a :: a' :: as =>
    match bs, perm.length_eq with
    | b :: b' :: bs, _ => rfl

namespace Scope

namespace Alike

variable {s s' : Scope}

theorem inPackage? (h : Alike s s') (package name : String) :
    s.inPackage? package name = s'.inPackage? package name := by
  simp only [Scope.inPackage?, h.catalog]

theorem onDemandHits (h : Alike s s') (name : String) :
    (s.onDemandHits name).Perm (s'.onDemandHits name) := by
  have same : (s.inPackage? · name) = (s'.inPackage? · name) :=
    funext fun package => h.inPackage? package name
  unfold Scope.onDemandHits
  rw [same]
  exact h.onDemand.filterMap _

theorem resolveSimple (h : Alike s s') (name : String) :
    s.resolveSimple name = s'.resolveSimple name := by
  -- the imports of the file and the pending ones are one step of the search
  have imports (s : Scope) (others : Option String) :
      (s.symbols.singleType.get? name <|> s.pending.get? name <|> others) =
        (s.imported? name <|> others) := by
    simp only [Scope.imported?, Option.orElse_eq_orElse, Option.orElse_eq_or, Option.or_assoc]
  unfold Scope.resolveSimple
  rw [imports, imports, h.imported?, h.declared, h.package?]
  simp only [h.inPackage?]
  -- packages that offer the name do so in any order: there are none, or the same only one
  have perm := h.onDemandHits name
  cases hits : s.onDemandHits name with
  | nil =>
    rw [hits] at perm
    rw [perm.symm.eq_nil]
  | cons hit more =>
    cases hits' : s'.onDemandHits name with
    | nil =>
      rw [hits, hits'] at perm
      exact absurd perm.eq_nil (List.cons_ne_nil hit more)
    | cons hit' more' =>
      rw [hits, hits'] at perm
      simp only [only?_perm perm]

theorem knows (h : Alike s s') (name : String) : s.symbols.knows name = s'.symbols.knows name := by
  simp only [SymbolTable.knows, SymbolTable.declares, h.catalog, h.declared]

/-- **Every name means the same** in scopes that are alike. -/
theorem resolve (h : Alike s s') (name : String) : s.resolve name = s'.resolve name := by
  have known : s.symbols.knows = s'.symbols.knows := funext h.knows
  simp only [Scope.resolve, h.resolveSimple, known]

/-- Every static member is that of the same type in scopes that are alike. -/
theorem resolveStatic (h : Alike s s') (member : String) :
    s.resolveStatic member = s'.resolveStatic member := by
  unfold Scope.resolveStatic
  rw [h.staticSingle, h.catalog, only?_perm (h.staticOnDemand.filter _)]

end Alike

/-- **`Agree s s'`** — the scopes differ in nothing that a name can get its meaning from. -/
structure Agree (s s' : Scope) : Prop where
  catalog : s.symbols.catalog = s'.symbols.catalog
  package? : s.symbols.package? = s'.symbols.package?
  declared : s.symbols.declared = s'.symbols.declared
  imported? : ∀ simple, s.imported? simple = s'.imported? simple
  onDemand : s.symbols.onDemand = s'.symbols.onDemand
  staticSingle : s.symbols.staticSingle = s'.symbols.staticSingle
  staticOnDemand : s.symbols.staticOnDemand = s'.symbols.staticOnDemand

namespace Agree

variable {s s' : Scope}

/-- Scopes that agree are alike. -/
theorem alike (h : Agree s s') : Alike s s' :=
  ⟨h.catalog, h.package?, h.declared, h.imported?, .of_eq h.onDemand,
    fun member => congrArg (NameMap.get? · member) h.staticSingle, .of_eq h.staticOnDemand⟩

theorem resolveSimple (h : Agree s s') (name : String) :
    s.resolveSimple name = s'.resolveSimple name :=
  h.alike.resolveSimple name

/-- **Every name means the same** in scopes that agree. -/
theorem resolve (h : Agree s s') (name : String) : s.resolve name = s'.resolve name :=
  h.alike.resolve name

theorem annotationType? (h : Agree s s') (a : Annotation) :
    s.annotationType? a = s'.annotationType? a :=
  h.resolve _

end Agree

end Scope

end DeferFetch
