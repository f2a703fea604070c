/-
# DeferFetch.Proofs.Laziness.Gate — the gate lets every file through that would be changed.

The gate looks at tokens only. It misses a name in one way alone: the persistence package may itself
be the name of a type that the file declares or imports, and the annotation type be looked up within
it. In every other file, an annotation that means an association is seen (`usesType_of_resolve`), so
where the gate says no, every attempt leaves its annotation alone.
-/
import DeferFetch.Proofs.Grammar.Text
import DeferFetch.Proofs.Laziness.Matching
import DeferFetch.Proofs.Naming.Meaning
import DeferFetch.Proofs.Walk.Visit
import DeferFetch.Laziness.Recipe

namespace DeferFetch

/-! ## Names in a file -/

/-- **`u.introduces name`** — the file declares a type of that qualified name, or imports one. -/
def CompilationUnit.introduces (u : CompilationUnit) (name : String) : Prop :=
  (∃ entry ∈ u.typeEntries, entry.2 = name) ∨
    ∃ entry ∈ u.imports.filterMap ImportDeclaration.singleType?, entry.2 = name

/-- Identifiers in a readable file have no dot. -/
theorem CompilationUnit.Readable.isSimple {u : CompilationUnit} (hu : u.Readable) {t : Token}
    (ht : t ∈ u.tokens) {name : String} (hk : t.kind = .identifier name) : IsSimple name := by
  rw [u.tokens_eq] at ht
  rcases List.mem_append.1 ht with h | h
  · exact (hu.legible.isIdentifier t h name hk).dotless
  · rw [List.mem_singleton.1 h, hu.fits.eof] at hk
    cases hk

/-- The texts of the identifiers of a name. -/
def QualifiedName.names (n : QualifiedName) : List String := n.identifiers.map Token.text

/-- A name made of identifiers and dots spells its text. -/
theorem QualifiedName.Fits.kinds_tokens {n : QualifiedName} {f : List TokenKind} (h : n.Fits f) :
    kinds n.tokens = (n.names.map TokenKind.identifier).intersperse .dot := by
  obtain ⟨first, others⟩ := n
  obtain ⟨hfirst, hothers, -⟩ := h
  have hk := TokenKind.eq_identifier_text hfirst
  induction others generalizing first with
  | nil => simpa [QualifiedName.tokens, QualifiedName.names, QualifiedName.identifiers] using hk
  | cons segment others ih =>
    obtain ⟨⟨hdot, hid⟩, hothers⟩ := List.forall_mem_cons.1 hothers
    have := ih segment.identifier hid hothers (TokenKind.eq_identifier_text hid)
    simp only [QualifiedName.tokens, QualifiedName.names, QualifiedName.identifiers, List.map_cons,
      List.flatMap_cons, kinds_cons, List.cons_append, List.nil_append,
      List.intersperse_cons_cons, hdot] at this ⊢
    rw [this, ← hk]

/-- Every identifier of a name that fits is an identifier token. -/
theorem QualifiedName.Fits.identifiers {n : QualifiedName} {f : List TokenKind} (h : n.Fits f) :
    ∀ t ∈ n.identifiers, t ∈ n.tokens ∧ t.kind = .identifier t.text := by
  rintro t ht
  rcases List.mem_cons.1 ht with rfl | ht
  · exact ⟨List.mem_cons_self .., TokenKind.eq_identifier_text h.1⟩
  · obtain ⟨segment, hs, rfl⟩ := List.mem_map.1 ht
    refine ⟨List.mem_cons_of_mem _ (List.mem_flatMap.2 ⟨segment, hs, ?_⟩),
      TokenKind.eq_identifier_text (h.2.1 segment hs).2⟩
    simp

namespace CompilationUnit

variable {u : CompilationUnit} {n : Namespace} {simple : String}

/-- **`u.Names name`** — the tokens of the name occur in the file. -/
def Names (u : CompilationUnit) (name : QualifiedName) : Prop :=
  name.Fits [] ∧ ∃ before after, u.tokens = before ++ (name.tokens ++ after)

theorem Names.parts {name : QualifiedName} (hu : u.Readable) (h : u.Names name) :
    parts name.dotted = name.names := by
  obtain ⟨hf, before, after, htokens⟩ := h
  refine parts_dotted (by simp [QualifiedName.identifiers]) fun x hx => ?_
  obtain ⟨t, ht, rfl⟩ := List.mem_map.1 hx
  obtain ⟨hmem, hk⟩ := hf.identifiers t ht
  refine hu.isSimple ?_ hk
  rw [htokens]
  simp [hmem]

theorem names_of_annotation {a : Annotation} (hu : u.Readable) (ha : a ∈ u.annotations) :
    u.Names a.name := by
  obtain ⟨m, before, after, -, htokens, hf⟩ := hu.fits.stands a ha
  obtain ⟨sigil, name, _ | ⟨opening, arguments, commas, closing⟩⟩ := a
  · refine ⟨hf.2.2.1.before rfl, before ++ [sigil], after, ?_⟩
    simp [htokens, Annotation.tokens]
  · refine ⟨hf.2.2.1.before rfl, before ++ [sigil],
      opening :: (Argument.listTokens arguments commas ++ closing :: after), ?_⟩
    simp [htokens, Annotation.tokens]

theorem names_of_import {i : ImportDeclaration} (hu : u.Readable) (hi : i ∈ u.imports) :
    u.Names i.name := by
  obtain ⟨before, after, himports⟩ := List.append_of_mem hi
  refine ⟨(hu.fits.imports i hi).2.2.1, (u.package?.map PackageDeclaration.tokens).getD [] ++
    before.flatMap ImportDeclaration.tokens ++ i.word :: i.static?.toList, ?_⟩
  rw [CompilationUnit.tokens, himports]
  simp [ImportDeclaration.tokens]

/-! ## What the gate sees -/

/-- The tokens of a name that spells a qualified name are the pattern of that. -/
theorem Names.spells {name : QualifiedName} {type : String} (hu : u.Readable) (h : u.Names name)
    (htype : name.dotted = type) : kinds name.tokens = namePattern type := by
  rw [h.1.kinds_tokens, ← h.parts hu, htype]
  rfl

/-- The package of a type is not simple, and its parts are these. -/
theorem parts_qualify (hs : IsSimple simple) :
    parts (n.qualify simple) = [n.text, "persistence", simple] := by
  have hp : parts n.package = [n.text, "persistence"] := by cases n <;> rfl
  rw [Namespace.qualify, parts_append_dot, hp, parts_of_isSimple hs]
  rfl

/-- **Spelled out** — the gate sees a type of which the qualified name is spelled in the file. -/
theorem usesType_of_spelled {name : QualifiedName} (hu : u.Readable) (h : u.Names name)
    (hs : IsSimple simple) (hne : n.text ≠ simple) (hname : name.dotted = n.qualify simple) :
    usesType (n.qualify simple) u = true := by
  have hspell := h.spells hu hname
  obtain ⟨-, before, after, htokens⟩ := h
  have hpattern : namePattern (n.qualify simple) = .identifier n.text ::
      [.dot, .identifier "persistence", .dot, .identifier simple] := by
    rw [namePattern_eq, parts_qualify hs]
    rfl
  have hhead : TokenKind.identifier n.text ∉
      [.dot, .identifier "persistence", .dot, .identifier simple] := by
    have : n.text ≠ "persistence" := by cases n <;> decide
    simp [this, hne]
  refine usesType_of_spellsClear ⟨kinds before, kinds after, ?_, ?_⟩
  · rw [htokens, kinds_append, kinds_append, hspell]
  · rw [hpattern]
    exact (resumes_of_not_mem hhead).clear _

/-- **Visible by its simple name** — the gate sees a type of which the simple name occurs, if the
file sees its package. -/
theorem usesType_of_visible {t : Token} (ht : t ∈ u.tokens) (hk : t.kind = .identifier simple)
    (hs : IsSimple simple) (hv : simpleNameVisible (n.qualify simple) u = true) :
    usesType (n.qualify simple) u = true := by
  have hsimple : simpleNameOf (n.qualify simple) = simple := by
    rw [simpleNameOf, Namespace.qualify, splitQualified_append_dot _ hs]
  rw [usesType, if_pos hv, hsimple]
  exact spellsOrNames_of_mem (List.mem_map.2 ⟨t, ht, hk⟩) 0

/-- A file sees the persistence package just if the gate takes the simple name of a type of it for
that type. -/
theorem simpleNameVisible_of_sees (hs : IsSimple simple)
    (h : u.packageName = some n.package ∨
      n.package ∈ u.imports.filterMap ImportDeclaration.packageOnDemand?) :
    simpleNameVisible (n.qualify simple) u = true := by
  have hq : qualifierOf (n.qualify simple) = some n.package := by
    rw [qualifierOf, Namespace.qualify, splitQualified_append_dot _ hs]
  simp only [simpleNameVisible, hq, Bool.or_eq_true, decide_eq_true_eq, List.any_eq_true]
  rcases h with h | h
  · exact .inl h
  · obtain ⟨i, hi, heq⟩ := List.mem_filterMap.1 h
    exact .inr ⟨i, hi, heq⟩

/-- A type that is imported by name is known by the last part of that name. -/
theorem singleType?_eq {i : ImportDeclaration} {name type : String}
    (h : i.singleType? = some (name, type)) :
    name = simpleNameOf type ∧ i.importedName = type := by
  unfold ImportDeclaration.singleType? at h
  split at h
  · cases h
  · cases h
    exact ⟨rfl, rfl⟩

/-- The first or the last part of a qualified name in the package, cut off at a dot. -/
theorem qualify_eq_append {outer rest : String} (hs : IsSimple simple)
    (h : n.qualify simple = outer ++ "." ++ rest) :
    (outer = n.text ∧ rest = "persistence" ++ "." ++ simple) ∨
      (outer = n.package ∧ rest = simple) := by
  have hparts := congrArg parts h
  rw [parts_qualify hs, parts_append_dot] at hparts
  have hpackage : parts n.package = [n.text, "persistence"] := by cases n <;> rfl
  have htext : parts n.text = [n.text] := by cases n <;> rfl
  have hp : parts "persistence" = ["persistence"] := rfl
  -- the name has three parts, so the dot stands after the first or after the second
  match houter : parts outer, hrest : parts rest with
  | [], _ => exact absurd houter (parts_ne_nil outer)
  | _, [] => exact absurd hrest (parts_ne_nil rest)
  | [a], b :: bs =>
    rw [houter, hrest] at hparts
    simp only [List.cons_append, List.nil_append, List.cons.injEq] at hparts
    obtain ⟨rfl, rfl, rfl⟩ := hparts
    refine .inl ⟨parts_injective (houter.trans htext.symm), parts_injective ?_⟩
    rw [hrest, parts_append_dot, hp, parts_of_isSimple hs]
    rfl
  | [a, b], c :: cs =>
    rw [houter, hrest] at hparts
    simp only [List.cons_append, List.nil_append, List.cons.injEq] at hparts
    obtain ⟨rfl, rfl, rfl, rfl⟩ := hparts
    refine .inr ⟨parts_injective (houter.trans hpackage.symm), parts_injective ?_⟩
    rw [hrest, parts_of_isSimple hs]
  | a :: b :: c :: d, e :: es =>
    rw [houter, hrest] at hparts
    have := congrArg List.length hparts
    simp at this

/-- A declared type that has the name of a type of the package is declared in the file of that
package, unless the file declares a type with the name of the package. -/
theorem package_of_declared {name : String} (hs : IsSimple simple)
    (hno : ¬ u.introduces n.package) (h : (name, n.qualify simple) ∈ u.typeEntries)
    (hname : IsSimple name) : u.packageName = some n.package ∧ name = simple := by
  have cut {outer : String} (heq : n.qualify simple = outer ++ "." ++ name) :
      outer = n.package ∧ name = simple := by
    rcases qualify_eq_append hs heq with ⟨-, rfl⟩ | h
    · exact absurd hname (by simp [IsSimple])
    · exact h
  rcases u.declaredIn _ h with heq | ⟨outer, houter, heq⟩
  · cases hp : u.packageName with
    | none =>
      rw [hp] at heq
      simp only [qualifyIn] at heq
      exact absurd hname (by simp [← heq, IsSimple, Namespace.qualify])
    | some package =>
      rw [hp] at heq
      obtain ⟨rfl, hsimple⟩ := cut heq
      exact ⟨rfl, hsimple⟩
  · exact absurd (.inl ⟨outer, houter, (cut heq).1⟩) hno

/-- What is declared under a simple name is named so. -/
theorem mem_typeEntries {catalog : Catalog} {name type : String}
    (h : (SymbolTable.ofUnit u catalog).declared.get? name = some type) :
    (name, type) ∈ u.typeEntries := by
  rw [SymbolTable.ofUnit, NameMap.get?_firstOfEach] at h
  exact NameMap.mem_of_get? h

theorem exists_import {catalog : Catalog} {name type : String}
    (h : (SymbolTable.ofUnit u catalog).singleType.get? name = some type) :
    ∃ i ∈ u.imports, i.singleType? = some (name, type) := by
  rw [SymbolTable.ofUnit, NameMap.get?_firstOfEach] at h
  exact List.mem_filterMap.1 (NameMap.mem_of_get? h)

/-- A simple name in a file is one of its tokens. -/
theorem Names.exists_token {name : QualifiedName} (hu : u.Readable) (h : u.Names name)
    (hs : IsSimple name.dotted) : ∃ t ∈ u.tokens, t.kind = .identifier name.dotted := by
  have hnames := h.parts hu
  rw [parts_of_isSimple hs] at hnames
  obtain ⟨hf, before, after, htokens⟩ := h
  have htext : name.dotted = name.first.text := (List.cons.inj hnames).1
  refine ⟨name.first, ?_, by rw [htext]; exact TokenKind.eq_identifier_text hf.1⟩
  rw [htokens]
  simp [QualifiedName.tokens]

/-- The scope in which a file is looked at before anything is to be imported. -/
def bareScope (u : CompilationUnit) (catalog : Catalog) : Scope := ⟨.ofUnit u catalog, []⟩

variable {catalog : Catalog} {name : String}

/-- What a file sees of packages, as the gate counts it. -/
theorem sees_iff : (u.bareScope catalog).Sees n.package ↔
    u.packageName = some n.package ∨
      n.package ∈ u.imports.filterMap ImportDeclaration.packageOnDemand? := by
  have hlang : n.package ≠ "java.lang" := by cases n <;> decide
  simp [Scope.Sees, bareScope, SymbolTable.ofUnit, hlang]

/-- The first part of a qualified name is the type of that name only if the file says so. -/
theorem eq_text_of_resolveSimple
    (h : (u.bareScope catalog).resolveSimple name = some n.text) : name = n.text := by
  have htext : IsSimple n.text := by cases n <;> exact of_decide_eq_false rfl
  have nested {outer : String} : n.text ≠ outer ++ "." ++ name := by
    intro heq
    rw [heq] at htext
    simp [IsSimple] at htext
  rcases Scope.resolveSimple_cases h with h | h | h | ⟨package, -, heq, -⟩
  · rcases u.declaredIn _ (mem_typeEntries h) with heq | ⟨outer, -, heq⟩
    · cases hp : u.packageName with
      | none =>
        rw [hp] at heq
        exact heq.symm
      | some package =>
        rw [hp] at heq
        exact absurd heq nested
    · exact absurd heq nested
  · obtain ⟨i, -, hi⟩ := exists_import h
    rw [(singleType?_eq hi).1, simpleNameOf, splitQualified_of_isSimple htext]
  · cases h
  · exact absurd heq nested

/-- A name means the persistence package only if the file declares or imports a type so named. -/
theorem introduces_of_resolveSimple (hc : catalog.contains n.package = false)
    (h : (u.bareScope catalog).resolveSimple name = some n.package) :
    u.introduces n.package := by
  rcases Scope.resolveSimple_cases h with h | h | h | ⟨package, -, -, h⟩
  · exact .inl ⟨_, mem_typeEntries h, rfl⟩
  · obtain ⟨i, hi, heq⟩ := exists_import h
    exact .inr ⟨_, List.mem_filterMap.2 ⟨i, hi, heq⟩, rfl⟩
  · cases h
  · rw [show (u.bareScope catalog).symbols.catalog = catalog from rfl, hc] at h
    cases h

/-- **The gate sees what is meant** — a file in which a name means a type of the persistence package
refers to it, as the gate counts, unless it has a type with the name of that package. -/
theorem usesType_of_resolve (hu : u.Readable) (hno : ¬ u.introduces n.package)
    (hc : catalog.contains n.package = false) (hs : IsSimple simple) (hne : n.text ≠ simple)
    {name : QualifiedName} (hname : u.Names name)
    (h : (u.bareScope catalog).resolve name.dotted = some (n.qualify simple)) :
    usesType (n.qualify simple) u = true := by
  have spelled (heq : name.dotted = n.qualify simple) : usesType (n.qualify simple) u = true :=
    usesType_of_spelled hu hname hs hne heq
  have visible (hsimple : IsSimple name.dotted) (heq : name.dotted = simple)
      (hv : u.packageName = some n.package ∨
        n.package ∈ u.imports.filterMap ImportDeclaration.packageOnDemand?) :
      usesType (n.qualify simple) u = true := by
    obtain ⟨t, ht, hk⟩ := hname.exists_token hu hsimple
    rw [heq] at hk
    exact usesType_of_visible ht hk hs (simpleNameVisible_of_sees hs hv)
  rcases Scope.resolve_cases h with ⟨hsimple, h⟩ | ⟨first, rest, outer, -, hdot, houter, htype⟩ | h
  · rcases Scope.resolveSimple_cases h with h | h | h | ⟨package, hsees, htype, -⟩
    · obtain ⟨hp, heq⟩ := package_of_declared hs hno (mem_typeEntries h) hsimple
      exact visible hsimple heq (.inl hp)
    · obtain ⟨i, hi, heq⟩ := exists_import h
      exact usesType_of_spelled hu (names_of_import hu hi) hs hne (singleType?_eq heq).2
    · cases h
    · rcases qualify_eq_append hs htype with ⟨-, heq⟩ | ⟨rfl, heq⟩
      · rw [heq] at hsimple
        simp [IsSimple] at hsimple
      · exact visible hsimple heq (sees_iff.1 hsees)
  · rcases qualify_eq_append hs htype with ⟨rfl, rfl⟩ | ⟨rfl, rfl⟩
    · refine spelled ?_
      rw [hdot, eq_text_of_resolveSimple houter, htype]
    · exact absurd (introduces_of_resolveSimple hc houter) hno
  · exact spelled h.symm

end CompilationUnit

/-! ## What the gate lets through -/

instance (u : CompilationUnit) (name : String) : Decidable (u.introduces name) :=
  inferInstanceAs (Decidable ((∃ entry ∈ u.typeEntries, entry.2 = name) ∨
    ∃ entry ∈ u.imports.filterMap ImportDeclaration.singleType?, entry.2 = name))

/-- **The gate is sound** — a file that the gate keeps back would not be changed: if it neither
declares nor imports a type with the name of the persistence package, walking it replaces nothing,
fails nowhere and plans no import. -/
theorem makeLazy_of_not_appliesTo {n : Namespace} {fold? : Option Nat} {source : String}
    {file : Option String} {u : CompilationUnit} (hu : (parseUnit source file).toExcept = .ok u)
    (hno : ¬ u.introduces n.package) (hgate : (Recipe.ofNamespace n fold?).appliesTo u = false) :
    let outcome := makeLazy (.persistence n) (.ofNamespace n) u
    outcome.unit = u ∧ outcome.sites = [] ∧ outcome.failures = [] ∧
      outcome.plan.addedTypes = [] := by
  have hreadable := (parseUnit_readable hu).1
  have hcatalog : (Catalog.persistence n).contains n.package = false := by cases n <;> rfl
  have hseen {simple : String} (hs : IsSimple simple) (hne : n.text ≠ simple)
      (hunseen : usesType (n.qualify simple) u = false) {a : Annotation} (ha : a ∈ u.annotations) :
      (u.bareScope (.persistence n)).annotationType? a ≠ some (n.qualify simple) := by
    intro h
    rw [CompilationUnit.usesType_of_resolve hreadable hno hcatalog hs hne
      (CompilationUnit.names_of_annotation hreadable ha) h] at hunseen
    cases hunseen
  simp only [Recipe.appliesTo, usesAny, Targets.annotationTypes, List.any_cons, List.any_nil,
    Bool.or_false, Bool.or_eq_false_iff] at hgate
  have idle : makeLazy (.persistence n) (.ofNamespace n) u = ⟨u, .ofUnit u, [], []⟩ := by
    refine attemptAll_idle fun a ha => ?_
    have hone := hseen (of_decide_eq_false rfl) (by cases n <;> decide) hgate.2 ha
    have hmany := hseen (of_decide_eq_false rfl) (by cases n <;> decide) hgate.1 ha
    have hnone : associationOf? (u.bareScope (.persistence n)) (.ofNamespace n) a = none := by
      rw [associationOf?, Option.bind_eq_none_iff]
      intro type htype
      have hne₁ : type ≠ (Targets.ofNamespace n).oneToOne := fun heq => hone (by rw [htype, heq]; rfl)
      have hne₂ : type ≠ (Targets.ofNamespace n).manyToOne := fun heq => hmany (by rw [htype, heq]; rfl)
      rw [if_neg hne₁, if_neg hne₂]
    rw [attempt]
    simp only [show (⟨.ofUnit u (.persistence n), (ImportPlan.ofUnit u).added⟩ : Scope) =
      u.bareScope (.persistence n) from rfl, hnone]
  simp [idle, ImportPlan.addedTypes, ImportPlan.ofUnit]

/-- In this file `OneToOne` is the annotation of another package. -/
theorem makeLazy_of_foreign_import :
    let source := "import a.OneToOne; class A { @OneToOne B b; }"
    ∃ u, (parseUnit source).toExcept = .ok u ∧
      ¬ u.introduces Namespace.jakarta.package ∧
      (Recipe.ofNamespace .jakarta).appliesTo u = false ∧
      (makeLazy (.persistence .jakarta) (.ofNamespace .jakarta) u).sites = [] := by
  intro source
  have h : ((parseUnit source).toExcept.toOption.map fun u =>
      (decide (u.introduces Namespace.jakarta.package),
        (Recipe.ofNamespace .jakarta).appliesTo u)) = some (false, false) := by decide +kernel
  obtain ⟨u, hu, hf⟩ := exists_of_toOption_map h
  simp only [Prod.mk.injEq, decide_eq_false_iff_not] at hf
  exact ⟨u, hu, hf.1, hf.2, (makeLazy_of_not_appliesTo hu hf.1 hf.2).2.1⟩

/-- **The gate is not sound** in a file that imports the persistence package as if it were a type:
it keeps the file back, although the annotation means an association. -/
theorem appliesTo_misses_nested_name :
    let source := "import jakarta.persistence;\nclass A \x7b\n  @persistence.OneToOne B b;\n\x7d\n"
    ((parseUnit source).toExcept.toOption.map fun u =>
      ((Recipe.ofNamespace .jakarta).appliesTo u,
        (makeLazy (.persistence .jakarta) (.ofNamespace .jakarta) u).sites.map Site.after)) =
    some (false, ["@persistence.OneToOne(fetch = FetchType.LAZY)"]) := by
  decide +kernel

end DeferFetch
