/-
# DeferFetch.Proofs.Naming.FetchModes — what the simple name of the fetch modes means.

Where that name means nothing yet, the enumeration of fetch modes is neither imported nor seen, so
registering it plans an import, and from then on the name means it. No other name changes its meaning
by that.
-/
import DeferFetch.Proofs.Naming.Meaning
import DeferFetch.Proofs.Lexing.Boundary
import DeferFetch.Imports.Plan
import DeferFetch.Laziness.Association

namespace DeferFetch

/-! ## The catalog -/

namespace Namespace

/-- The qualified name of the fetch modes. -/
abbrev fetchType (n : Namespace) : String := n.qualify "FetchType"

theorem get?_fetchType (n : Namespace) : (Catalog.persistence n).shapes.get? n.fetchType =
    some (.enumeration ["LAZY", "EAGER"]) := by
  cases n <;> decide

theorem contains_fetchType (n : Namespace) : (Catalog.persistence n).contains n.fetchType = true := by
  rw [Catalog.contains, get?_fetchType]
  rfl

theorem hasConstant_lazy (n : Namespace) :
    (Catalog.persistence n).hasConstant n.fetchType "LAZY" = true := by
  rw [Catalog.hasConstant, get?_fetchType]
  decide

theorem splitQualified_fetchType (n : Namespace) :
    splitQualified n.fetchType = (some n.package, "FetchType") :=
  splitQualified_append_dot n.package (of_decide_eq_false rfl)

theorem simpleNameOf_fetchType (n : Namespace) : simpleNameOf n.fetchType = "FetchType" :=
  congrArg Prod.snd n.splitQualified_fetchType

theorem qualifierOf_fetchType (n : Namespace) : qualifierOf n.fetchType = some n.package :=
  congrArg Prod.fst n.splitQualified_fetchType

theorem text_ne (n : Namespace) : n.text ≠ "FetchType" := by cases n <;> decide

/-- The types of `java.lang` that the catalog has. -/
def langNames : List String :=
  ["Boolean", "Byte", "Character", "Class", "Double", "Enum", "Float", "Integer", "Long", "Number",
    "Object", "Short", "String", "Void", "Deprecated", "Override", "SuppressWarnings"]

/-- The types of a persistence package that the catalog has. -/
def persistenceNames : List String :=
  ["FetchType", "CascadeType", "GenerationType", "EnumType", "OneToOne", "ManyToOne", "OneToMany",
    "ManyToMany", "Basic", "ElementCollection", "Entity", "Table", "Column", "JoinColumn",
    "GeneratedValue", "Enumerated", "MapsId", "Embeddable", "Embedded", "Id", "MappedSuperclass",
    "Transient", "Version"]

theorem names_persistence (n : Namespace) : (Catalog.persistence n).shapes.map Prod.fst =
    langNames.map ("java.lang" ++ "." ++ ·) ++ persistenceNames.map n.qualify := by
  cases n <;> decide

/-- Of all packages, the catalog has fetch modes in one. -/
theorem eq_package_of_contains {n : Namespace} {package : String}
    (h : (Catalog.persistence n).contains (package ++ "." ++ "FetchType") = true) :
    package = n.package := by
  have simple : IsSimple "FetchType" := of_decide_eq_false rfl
  have cut {outer x : String} (hx : IsSimple x)
      (same : outer ++ "." ++ x = package ++ "." ++ "FetchType") : outer = package ∧ x = "FetchType" := by
    have := congrArg splitQualified same
    rw [splitQualified_append_dot _ simple, splitQualified_append_dot _ hx, Prod.mk.injEq] at this
    exact ⟨Option.some.inj this.1, this.2⟩
  obtain ⟨shape, hshape⟩ := Option.isSome_iff_exists.1 h
  have mem := List.mem_map_of_mem (f := Prod.fst) (NameMap.mem_of_get? hshape)
  rw [names_persistence, List.mem_append, List.mem_map, List.mem_map] at mem
  rcases mem with ⟨x, hx, same⟩ | ⟨x, hx, same⟩
  · have apart : ∀ x ∈ langNames, ¬ '.' ∈ x.toList ∧ x ≠ "FetchType" :=
      forall_of_all (by decide)
    exact absurd (cut (apart x hx).1 same).2 (apart x hx).2
  · have apart : ∀ x ∈ persistenceNames, ¬ '.' ∈ x.toList := forall_of_all (by decide)
    exact (cut (apart x hx) same).1.symm

end Namespace

/-- The first part of a qualified name of the package. -/
theorem splitFirst_qualify (n : Namespace) (simple : String) :
    splitFirst (n.qualify simple) = some (n.text, "persistence" ++ "." ++ simple) := by
  have text : IsSimple n.text := by cases n <;> exact of_decide_eq_false rfl
  rw [← splitFirst_append_dot text ("persistence" ++ "." ++ simple)]
  congr 1
  apply String.toList_injective
  simp [Namespace.qualify, Namespace.package]

/-! ## Plans -/

/-- **`plan.Reached n u`** — the plan is that of the file `u`, and no import but that of the fetch modes
has been added to it. -/
structure ImportPlan.Reached (n : Namespace) (u : CompilationUnit) (plan : ImportPlan) : Prop where
  base : { plan with added := [] } = ImportPlan.ofUnit u
  added : ∀ entry ∈ plan.added, entry = ("FetchType", n.fetchType)

namespace ImportPlan.Reached

variable {n : Namespace} {u : CompilationUnit} {plan : ImportPlan}

theorem start (n : Namespace) (u : CompilationUnit) : (ImportPlan.ofUnit u).Reached n u :=
  ⟨rfl, nofun⟩

theorem register (h : plan.Reached n u) : (plan.register n.fetchType).Reached n u := by
  unfold ImportPlan.register
  split
  · refine ⟨h.base, fun entry hentry => ?_⟩
    rw [n.simpleNameOf_fetchType] at hentry
    rcases List.mem_append.1 hentry with hentry | hentry
    · exact h.added entry hentry
    · exact List.mem_singleton.1 hentry
  · exact h

/-- No other name is imported by the plan. -/
theorem get?_added (h : plan.Reached n u) {name : String} (hname : name ≠ "FetchType") :
    plan.added.get? name = none := by
  cases hget : plan.added.get? name with
  | none => rfl
  | some type =>
    have := h.added _ (NameMap.mem_of_get? hget)
    exact absurd (congrArg Prod.fst this) hname

theorem package?_eq (h : plan.Reached n u) : plan.package? = u.packageName :=
  congrArg ImportPlan.package? h.base

theorem singleType_eq (h : plan.Reached n u) (catalog : Catalog) :
    plan.singleType = (SymbolTable.ofUnit u catalog).singleType := by
  have := congrArg ImportPlan.singleType h.base
  exact this

theorem onDemand_eq (h : plan.Reached n u) (catalog : Catalog) :
    plan.onDemand = (SymbolTable.ofUnit u catalog).onDemand := by
  have := congrArg ImportPlan.onDemand h.base
  exact this

end ImportPlan.Reached

/-! ## Scopes -/

/-- **`planScope n u plan`** — the scope of a file with the imports of a plan, for the default catalog. -/
def planScope (n : Namespace) (u : CompilationUnit) (plan : ImportPlan) : Scope :=
  ⟨.ofUnit u (.persistence n), plan.added⟩

section Scopes

variable {n : Namespace} {u : CompilationUnit} {plan : ImportPlan}

/-- Where the simple name means nothing, it is to be imported. -/
theorem outcome_eq_added (reached : plan.Reached n u)
    (h : (planScope n u plan).resolveSimple "FetchType" = none) : plan.outcome n.fetchType = .added := by
  simp only [planScope, Scope.resolveSimple, Option.orElse_eq_orElse, Option.orElse_eq_or,
    Option.or_eq_none_iff] at h
  obtain ⟨-, single, pending, package, demand⟩ := h
  have imported : plan.imported? (simpleNameOf n.fetchType) = none := by
    rw [n.simpleNameOf_fetchType, ImportPlan.imported?,
      reached.singleType_eq (.persistence n), pending, single]
    rfl
  have hit : (planScope n u plan).inPackage? n.package "FetchType" = some n.fetchType := by
    rw [Scope.inPackage?]
    exact if_pos n.contains_fetchType
  have lang : n.package ≠ "java.lang" := by cases n <;> decide
  have hidden : plan.isImplicit (some n.package) = false := by
    simp only [ImportPlan.isImplicit, reached.package?_eq, reached.onDemand_eq (.persistence n), lang,
      decide_false,
      Bool.false_or, Bool.or_eq_false_iff, decide_eq_false_iff_not]
    constructor
    · intro own
      rw [show (SymbolTable.ofUnit u (.persistence n)).package? = some n.package from own,
        Option.bind_some] at package
      exact Option.some_ne_none _ (hit.symm.trans package)
    · cases hmem : (SymbolTable.ofUnit u (.persistence n)).onDemand.contains n.package with
      | false => rfl
      | true =>
        -- one package on demand has the name, so it would mean that
        have hits : (planScope n u plan).onDemandHits "FetchType" = [n.fetchType] := by
          refine filterMap_eq_singleton (nodup_eraseDups _) (List.contains_iff_mem.1 hmem) hit ?_
          intro package _ found
          obtain ⟨type, found⟩ := Option.isSome_iff_exists.1 found
          obtain ⟨rfl, found⟩ := Scope.inPackage?_eq_some found
          exact Namespace.eq_package_of_contains found
        rw [show Scope.onDemandHits ⟨.ofUnit u (.persistence n), plan.added⟩ "FetchType" =
          [n.fetchType] from hits] at demand
        cases demand
  rw [ImportPlan.outcome, imported, n.qualifierOf_fetchType, hidden]
  rfl

/-- Only the name of the fetch modes can mean different things for different plans. -/
theorem resolveSimple_congr {plan' : ImportPlan} (h : plan.Reached n u) (h' : plan'.Reached n u)
    {name : String} (hname : name ≠ "FetchType") :
    (planScope n u plan).resolveSimple name = (planScope n u plan').resolveSimple name := by
  simp only [planScope, Scope.resolveSimple, h.get?_added hname, h'.get?_added hname]
  rfl

/-- The name of the fetch modes and the plan with the import that it needs. -/
theorem reached_staged (reached : plan.Reached n u) {fetch : FetchReference} :
    (if fetch.needsImport then plan.register n.fetchType else plan).Reached n u := by
  split
  · exact reached.register
  · exact reached

/-- Once it is to be imported, the simple name means the fetch modes. -/
theorem resolveSimple_register (reached : plan.Reached n u)
    (unknown : (planScope n u plan).resolveSimple "FetchType" = none) :
    (planScope n u (plan.register n.fetchType)).resolveSimple "FetchType" = some n.fetchType := by
  have added : (plan.register n.fetchType).added = plan.added ++ [("FetchType", n.fetchType)] := by
    rw [ImportPlan.register, outcome_eq_added reached unknown, n.simpleNameOf_fetchType]
  simp only [planScope, Scope.resolveSimple, Option.orElse_eq_orElse, Option.orElse_eq_or,
    Option.or_eq_none_iff] at unknown ⊢
  obtain ⟨declared, single, pending, -, -⟩ := unknown
  rw [declared, single, added, NameMap.get?_append, pending]
  rfl

/-- **The name that is written means the fetch modes** — with the import that it needs, and if the
qualified name does in case it has to be written. -/
theorem resolve_fetchReference_of_qualified (reached : plan.Reached n u)
    (qualified : ∀ type, (planScope n u plan).resolveSimple "FetchType" = some type →
      type ≠ n.fetchType → (planScope n u plan).resolve n.fetchType = some n.fetchType) :
    let fetch := fetchReference (planScope n u plan) (.ofNamespace n)
    let staged := if fetch.needsImport then plan.register n.fetchType else plan
    (planScope n u staged).resolve fetch.text = some n.fetchType := by
  have bySimple (s : Scope) : s.resolve "FetchType" = s.resolveSimple "FetchType" := by
    have : splitFirst "FetchType" = none := by decide
    rw [Scope.resolve, this]
  simp only [fetchReference, show (Targets.ofNamespace n).fetchType = n.fetchType from rfl,
    n.simpleNameOf_fetchType]
  cases meant : (planScope n u plan).resolveSimple "FetchType" with
  | none =>
    simp only [if_true, bySimple]
    exact resolveSimple_register reached meant
  | some type =>
    by_cases same : type = n.fetchType
    · simp only [same, if_true, bySimple, Bool.false_eq_true, if_false]
      rw [meant, same]
    · simp only [same, if_false, Bool.false_eq_true]
      exact qualified type meant same

/-- The name that is written means the fetch modes if the first part of the package is no type in the
file. -/
theorem resolve_fetchReference (reached : plan.Reached n u)
    (apart : (planScope n u (.ofUnit u)).resolveSimple n.text = none) :
    let fetch := fetchReference (planScope n u plan) (.ofNamespace n)
    let staged := if fetch.needsImport then plan.register n.fetchType else plan
    (planScope n u staged).resolve fetch.text = some n.fetchType := by
  refine resolve_fetchReference_of_qualified reached fun _ _ _ => ?_
  rw [Scope.resolve, splitFirst_qualify]
  simp only [resolveSimple_congr reached (.start n u) n.text_ne, apart]
  have known : (planScope n u plan).symbols.knows n.fetchType = true := by
    rw [SymbolTable.knows, show (planScope n u plan).symbols.catalog = .persistence n from rfl,
      n.contains_fetchType, Bool.true_or]
  simp [known]

/-- **What a name means does not change** — where the fetch modes have to be imported, names of other
types of the package mean what they meant before. -/
theorem resolve_register {name simple : String} (reached : plan.Reached n u)
    (unknown : (planScope n u plan).resolveSimple "FetchType" = none)
    (h : (planScope n u plan).resolve name = some (n.qualify simple)) :
    (planScope n u (plan.register n.fetchType)).resolve name = some (n.qualify simple) := by
  have stays {name : String} (hname : name ≠ "FetchType") :
      (planScope n u (plan.register n.fetchType)).resolveSimple name =
        (planScope n u plan).resolveSimple name :=
    resolveSimple_congr reached.register reached hname
  unfold Scope.resolve at h ⊢
  split at h
  · rename_i hfirst
    have hname : name ≠ "FetchType" := by
      rintro rfl
      rw [unknown] at h
      cases h
    rw [stays hname, h]
  · rename_i first rest hfirst
    have hne : first ≠ "FetchType" := by
      rintro rfl
      -- then the name is that of the type itself, which begins otherwise
      simp only [unknown, Option.map_none, Option.filter_none, Option.orElse_eq_orElse,
        Option.orElse_eq_or, Option.none_or, Option.filter_eq_some_iff, Option.some.injEq] at h
      rw [h.1, splitFirst_qualify] at hfirst
      exact n.text_ne (congrArg Prod.fst (Option.some.inj hfirst))
    simp only [stays hne]
    exact h

end Scopes

end DeferFetch
