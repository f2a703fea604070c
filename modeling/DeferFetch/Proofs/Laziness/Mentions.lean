/-
# DeferFetch.Proofs.Laziness.Mentions — the test of the text is sound.

However a dotted name gets its meaning, the type that it means has the same last part
(`Scope.resolve_simpleNameOf`): nested types are looked up by what follows the first dot, and what a file
declares or imports is entered under its last part. The last part of the name of an annotation is an
identifier of the file, and the spelling of an identifier stands somewhere in the text. So a text in
which no association is mentioned holds none, whatever the catalog (`makeLazy_of_not_mentionsAny`).
-/
import DeferFetch.Proofs.Laziness.Gate
import DeferFetch.Proofs.Lexing.Tiling

namespace DeferFetch

/-! ## Meaning keeps the last part -/

/-- **`m.KeepsLast`** — every name of the map stands for a type with the same last part. -/
def NameMap.KeepsLast (m : NameMap String) : Prop :=
  ∀ name type, m.get? name = some type → simpleNameOf type = simpleNameOf name

theorem NameMap.keepsLast_nil : NameMap.KeepsLast [] := by
  intro name type h
  cases h

/-- What a file declares keeps its last part, however deeply it is nested. -/
theorem CompilationUnit.keepsLast_declared (u : CompilationUnit) (catalog : Catalog) :
    (SymbolTable.ofUnit u catalog).declared.KeepsLast := by
  intro name type h
  have qualified (outer? : Option String) : simpleNameOf (qualifyIn outer? name) = simpleNameOf name := by
    cases outer? with
    | none => rfl
    | some outer => exact simpleNameOf_append_dot outer name
  rcases u.declaredIn _ (mem_typeEntries h) with same | ⟨outer, -, same⟩
  · rw [show type = qualifyIn u.packageName name from same, qualified]
  · rw [show type = qualifyIn (some outer.2) name from same, qualified]

/-- What a file imports keeps its last part. -/
theorem CompilationUnit.keepsLast_singleType (u : CompilationUnit) (catalog : Catalog) :
    (SymbolTable.ofUnit u catalog).singleType.KeepsLast := by
  intro name type h
  obtain ⟨i, -, entry⟩ := exists_import h
  rw [(singleType?_eq entry).1, simpleNameOf_of_isSimple (isSimple_simpleNameOf type)]

namespace Scope

variable {s : Scope} {name type : String}

/-- **`s.KeepsLast`** — declared types, imports and pending imports are entered under their last part. -/
structure KeepsLast (s : Scope) : Prop where
  declared : s.symbols.declared.KeepsLast
  singleType : s.symbols.singleType.KeepsLast
  pending : s.pending.KeepsLast

theorem resolveSimple_simpleNameOf (hs : s.KeepsLast) (h : s.resolveSimple name = some type) :
    simpleNameOf type = simpleNameOf name := by
  rcases resolveSimple_cases h with h | h | h | ⟨package, -, rfl, -⟩
  · exact hs.declared name type h
  · exact hs.singleType name type h
  · exact hs.pending name type h
  · exact simpleNameOf_append_dot package name

/-- **Meaning keeps the last part** — the type that a dotted name means ends as the name does. -/
theorem resolve_simpleNameOf (hs : s.KeepsLast) (h : s.resolve name = some type) :
    simpleNameOf type = simpleNameOf name := by
  rcases resolve_cases h with ⟨-, h⟩ | ⟨first, rest, outer, -, rfl, -, rfl⟩ | rfl
  · exact resolveSimple_simpleNameOf hs h
  · -- whatever the first part means, the rest is looked up within it as it is written
    rw [simpleNameOf_append_dot, simpleNameOf_append_dot]
  · rfl

end Scope

theorem CompilationUnit.keepsLast_bareScope (u : CompilationUnit) (catalog : Catalog) :
    (u.bareScope catalog).KeepsLast where
  declared := u.keepsLast_declared catalog
  singleType := u.keepsLast_singleType catalog
  pending := NameMap.keepsLast_nil

/-! ## Words in the text -/

/-- **`occursIn` finds words** in a row, wherever they are. -/
theorem occursIn_append (before word after : List Char) :
    occursIn word (before ++ (word ++ after)) = true := by
  induction before with
  | nil =>
    cases word with
    | nil => cases after <;> simp [occursIn]
    | cons c cs => simp [occursIn]
  | cons c before ih => simp [occursIn, ih]

variable {n : Namespace} {fold? : Option Nat} {source : String} {file : Option String}
  {u : CompilationUnit} {catalog : Catalog}

/-- **Identifiers stand in the text** of which they are tokens. -/
theorem occursIn_of_identifier (parsed : (parseUnit source file).toExcept = .ok u) {t : Token}
    (ht : t ∈ u.tokens) {name : String} (hk : t.kind = .identifier name) :
    occursIn name.toList source.toList = true := by
  obtain ⟨readable, same | bare⟩ := parseUnit_readable parsed
  · obtain ⟨before, after, split⟩ := List.append_of_mem ht
    rw [← print_tokenize source file, ← same, toList_print, split, spelling_append, spelling_cons, hk]
    have := occursIn_append (spelling before ++ t.leadingText.toList) name.toList (spelling after)
    simpa [TokenKind.text] using this
  · -- a file without a body has only its end, which is no identifier
    rw [u.tokens_eq, bare, List.nil_append, List.mem_singleton] at ht
    rw [ht, readable.fits.eof] at hk
    cases hk

/-- The last part of the name of an annotation is one of the identifiers of the file. -/
theorem exists_token_of_annotation (hu : u.Readable) {a : Annotation} (ha : a ∈ u.annotations) :
    ∃ t ∈ u.tokens, t.kind = .identifier (simpleNameOf a.name.dotted) := by
  have named := CompilationUnit.names_of_annotation hu ha
  have last : simpleNameOf a.name.dotted ∈ a.name.names := by
    rw [← named.parts hu]
    exact List.mem_of_getLast? (getLast?_parts _)
  obtain ⟨t, ht, text⟩ := List.mem_map.1 last
  obtain ⟨fits, before, after, split⟩ := named
  obtain ⟨mem, kind⟩ := fits.identifiers t ht
  refine ⟨t, ?_, text ▸ kind⟩
  rw [split]
  exact List.mem_append_right _ (List.mem_append_left _ mem)

/-! ## Types of the package -/

theorem simpleNameOf_qualify {simple : String} (hs : IsSimple simple) :
    simpleNameOf (n.qualify simple) = simple := by
  rw [Namespace.qualify, simpleNameOf_append_dot, simpleNameOf_of_isSimple hs]

/-- The annotation types of associations go by these words. -/
theorem simpleNameOf_associations (n : Namespace) :
    simpleNameOf (n.qualify "ManyToOne") = "ManyToOne" ∧ simpleNameOf (n.qualify "OneToOne") = "OneToOne" :=
  ⟨simpleNameOf_qualify (of_decide_eq_false rfl), simpleNameOf_qualify (of_decide_eq_false rfl)⟩

/-- A file that refers to a type of the package contains its simple name. -/
theorem exists_token_of_usesType {simple : String} (hs : IsSimple simple)
    (h : usesType (n.qualify simple) u = true) : ∃ t ∈ u.tokens, t.kind = .identifier simple := by
  have mem := CompilationUnit.mem_kinds_of_usesType h
  rw [simpleNameOf_qualify hs] at mem
  obtain ⟨t, ht, hk⟩ := List.mem_map.1 mem
  exact ⟨t, ht, hk⟩

/-- **Types that are used are mentioned** — a text whose file refers to a type of the package holds its
simple name. -/
theorem occursIn_of_usesType (parsed : (parseUnit source file).toExcept = .ok u) {simple : String}
    (hs : IsSimple simple) (h : usesType (n.qualify simple) u = true) :
    occursIn simple.toList source.toList = true := by
  obtain ⟨t, ht, hk⟩ := exists_token_of_usesType hs h
  exact occursIn_of_identifier parsed ht hk

/-- **Types that are meant are mentioned** — a text in which the name of an annotation means a type of
the package holds the simple name of that type. -/
theorem occursIn_of_annotationType? (parsed : (parseUnit source file).toExcept = .ok u)
    {simple : String} (hs : IsSimple simple) {a : Annotation} (ha : a ∈ u.annotations)
    (h : (u.bareScope catalog).annotationType? a = some (n.qualify simple)) :
    occursIn simple.toList source.toList = true := by
  obtain ⟨t, ht, hk⟩ := exists_token_of_annotation (parseUnit_readable parsed).1 ha
  have last := Scope.resolve_simpleNameOf (u.keepsLast_bareScope catalog) h
  rw [simpleNameOf_qualify hs] at last
  rw [← last] at hk
  exact occursIn_of_identifier parsed ht hk

/-! ## The test of the text -/

/-- **The test of the text is sound** — a text whose file refers to an association mentions it. -/
theorem mentionsAny_of_appliesTo (parsed : (parseUnit source file).toExcept = .ok u)
    (applies : (Recipe.ofNamespace n fold?).appliesTo u = true) :
    mentionsAny source ((Recipe.ofNamespace n fold?).targets.annotationTypes.map simpleNameOf) =
      true := by
  obtain ⟨many, one⟩ := simpleNameOf_associations n
  show ([n.qualify "ManyToOne", n.qualify "OneToOne"].map simpleNameOf).any
    (fun word => occursIn word.toList source.toList) = true
  have applies : [n.qualify "ManyToOne", n.qualify "OneToOne"].any (usesType · u) = true := applies
  simp only [List.map_cons, List.map_nil, List.any_cons, List.any_nil, Bool.or_false, Bool.or_eq_true,
    many, one] at applies ⊢
  exact applies.imp (occursIn_of_usesType parsed (of_decide_eq_false rfl))
    (occursIn_of_usesType parsed (of_decide_eq_false rfl))

/-- **A text that mentions no association holds none** — the gate finds neither of the two types in its
file, and a walk over that, with any catalog, replaces nothing, fails nowhere and plans no import. -/
theorem makeLazy_of_not_mentionsAny (catalog : Catalog) (n : Namespace)
    (parsed : (parseUnit source file).toExcept = .ok u)
    (silent : mentionsAny source ["ManyToOne", "OneToOne"] = false) :
    (∀ type ∈ (Targets.ofNamespace n).annotationTypes, usesType type u = false) ∧
      (makeLazy catalog (.ofNamespace n) u).unit = u ∧
      (makeLazy catalog (.ofNamespace n) u).sites = [] ∧
      (makeLazy catalog (.ofNamespace n) u).failures = [] ∧
      (makeLazy catalog (.ofNamespace n) u).plan.addedTypes = [] := by
  simp only [mentionsAny, List.any_cons, List.any_nil, Bool.or_false, Bool.or_eq_false_iff] at silent
  obtain ⟨many, one⟩ := silent
  have unused {simple : String} (hs : IsSimple simple)
      (absent : occursIn simple.toList source.toList = false) :
      usesType (n.qualify simple) u = false := by
    rw [Bool.eq_false_iff]
    intro used
    rw [occursIn_of_usesType parsed hs used] at absent
    cases absent
  have unmeant {simple : String} (hs : IsSimple simple)
      (absent : occursIn simple.toList source.toList = false) {a : Annotation} (ha : a ∈ u.annotations) :
      (u.bareScope catalog).annotationType? a ≠ some (n.qualify simple) := by
    intro meant
    rw [occursIn_of_annotationType? parsed hs ha meant] at absent
    cases absent
  -- no annotation means an association, so no attempt applies
  have idle : makeLazy catalog (.ofNamespace n) u = ⟨u, .ofUnit u, [], []⟩ := by
    refine attemptAll_idle fun a ha => ?_
    have none : associationOf? (u.bareScope catalog) (.ofNamespace n) a = none := by
      rw [associationOf?, Option.bind_eq_none_iff]
      intro type meant
      rw [if_neg, if_neg]
      · rintro rfl
        exact unmeant (of_decide_eq_false rfl) many ha meant
      · rintro rfl
        exact unmeant (of_decide_eq_false rfl) one ha meant
    rw [attempt]
    simp only [show (⟨.ofUnit u catalog, (ImportPlan.ofUnit u).added⟩ : Scope) = u.bareScope catalog from rfl,
      none]
  refine ⟨?_, by rw [idle], by rw [idle], by rw [idle], by rw [idle]; rfl⟩
  intro type htype
  rcases List.mem_cons.1 htype with rfl | htype
  · exact unused (of_decide_eq_false rfl) many
  · obtain rfl := List.mem_singleton.1 htype
    exact unused (of_decide_eq_false rfl) one

/-- A file that sees the package and uses it, but associates with many only. -/
theorem makeLazy_of_not_mentionsAny_many :
    let source := "import jakarta.persistence.*; class A \x7b @OneToMany(fetch = FetchType.EAGER) B b; \x7d"
    ∃ u, (parseUnit source).toExcept = .ok u ∧
      mentionsAny source ["ManyToOne", "OneToOne"] = false ∧
      (makeLazy (.persistence .jakarta) (.ofNamespace .jakarta) u).sites = [] := by
  intro source
  have file : (parseUnit source).toExcept.toOption.map (fun u => u.annotations.length) =
      some 1 := by decide +kernel
  have silent : mentionsAny source ["ManyToOne", "OneToOne"] = false := by decide +kernel
  obtain ⟨u, hu, -⟩ := exists_of_toOption_map file
  exact ⟨u, hu, silent, (makeLazy_of_not_mentionsAny (.persistence .jakarta) .jakarta hu silent).2.2.1⟩

end DeferFetch
