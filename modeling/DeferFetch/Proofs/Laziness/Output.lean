/-
# DeferFetch.Proofs.Laziness.Output — the text that a run writes.

What a run writes parses without errors, and as the file that the run has in mind, up to where the
tokens stand (`exists_output`). So what is known of the annotations that a run leaves behind is known of
the annotations of the text: if nothing failed, all associations in it are fetched lazily
(`runSource_fetchesLazily`).
-/
import DeferFetch.Proofs.Laziness.Mentions
import DeferFetch.Proofs.Laziness.Settled
import DeferFetch.Proofs.Naming.Visible
import DeferFetch.Laziness.Recipe

namespace DeferFetch

variable {n : Namespace} {fold? : Option Nat} {source : String} {file : Option String}
  {u : CompilationUnit} {run : SourceRun}

/-! ## The file that is written -/

/-- What a run over a text comes to, if its file refers to an association. -/
theorem runSource_of_appliesTo (parsed : (parseUnit source file).toExcept = .ok u)
    (applies : (Recipe.ofNamespace n fold?).appliesTo u = true) :
    let outcome := makeLazy (.persistence n) (.ofNamespace n) u
    (Recipe.ofNamespace n fold?).runSource source file = .ok
      { output :=
          if !outcome.sites.isEmpty || !outcome.plan.addedTypes.isEmpty then
            (outcome.plan.applyTo outcome.unit fold?).source
          else source
        sites := outcome.sites
        failures := outcome.failures
        importsAdded := outcome.plan.addedTypes } := by
  intro outcome
  rw [Recipe.runSource, if_pos (mentionsAny_of_appliesTo parsed applies), parsed]
  simp only [Recipe.run, if_pos applies, RecipeRun.isChanged]
  rfl

/-- A plan that a run can come to is one for every file that makes the same visible. -/
theorem ImportPlan.Grows.plans {plan : ImportPlan} {v : CompilationUnit}
    (h : (ImportPlan.ofUnit u).Grows n u plan) (same : u.visible = v.visible) : plan.Plans v := by
  have start : (ImportPlan.ofUnit u).Plans v := by
    rw [CompilationUnit.plan_congr same]
    exact .ofUnit v
  rcases h with rfl | ⟨-, rfl⟩
  · exact start
  · exact start.register n.fetchType

/-- A run writes imports of names only. -/
theorem ImportPlan.Grows.isName {plan : ImportPlan} (h : (ImportPlan.ofUnit u).Grows n u plan) :
    (∀ name ∈ plan.addedTypes, IsName name) ∧ ∀ name ∈ plan.addedPackages, IsName name := by
  have added : ∀ name ∈ plan.addedTypes, name = n.fetchType := by
    intro name hname
    obtain ⟨entry, hentry, rfl⟩ := List.mem_map.1 hname
    rw [(h.reached (.start n u)).added entry hentry]
  refine ⟨fun name hname => added name hname ▸ n.isName_fetchType, fun name hname => ?_⟩
  obtain ⟨type, htype, hq⟩ := List.mem_filterMap.1 (List.mem_eraseDups.1 hname)
  rw [added type htype, n.qualifierOf_fetchType] at hq
  cases hq
  exact n.isName_package

/-- A plan without imports changes nothing. -/
theorem ImportPlan.applyTo_of_added_nil {plan : ImportPlan} (h : plan.addedTypes = [])
    (unit : CompilationUnit) : plan.applyTo unit fold? = unit := by
  unfold applyTo addedPackages
  rw [h]
  cases fold? <;> rfl

/-- The walk changes nothing that a file makes visible. -/
theorem visible_makeLazy (catalog : Catalog) (targets : Targets) (u : CompilationUnit) :
    u.visible = (makeLazy catalog targets u).unit.visible :=
  (u.visible_mapAnnotationsM ({ plan := .ofUnit u } : WalkState)).symm

/-- Files that are the same up to where their tokens stand have the same annotations, up to that. -/
theorem CompilationUnit.cores_congr {v w : CompilationUnit}
    (h : w.mapTokens Token.bare = v.mapTokens Token.bare) :
    w.annotations.map Annotation.core = v.annotations.map Annotation.core := by
  have core (a : Annotation) :
      a.core = (a.mapTokens Token.bare).withSigil (Token.synthetic .at).bare :=
    Annotation.mapTokens_withSigil _ _ _
  have same := congrArg CompilationUnit.annotations h
  rw [w.annotations_mapTokens, v.annotations_mapTokens] at same
  have := congrArg (List.map fun a : Annotation => a.withSigil (Token.synthetic .at).bare) same
  simpa only [List.map_map, Function.comp_def, ← core] using this

/-- Readable files with the same tokens are the same, up to where the tokens stand. -/
theorem CompilationUnit.Readable.bare_unique {v w : CompilationUnit} (hv : v.Readable)
    (hw : w.Readable) (same : w.tokens = v.tokens) :
    w.mapTokens Token.bare = v.mapTokens Token.bare := by
  obtain ⟨x, hx, bare⟩ := hv.exists_parse none
  obtain ⟨y, hy, bare'⟩ := hw.exists_parse none
  rw [CompilationUnit.source, same] at hy
  have : x = y := Except.ok.inj (hx.symm.trans hy)
  rw [← bare, ← bare', this]

/-- **What a run writes** — the text parses without errors, makes the same visible as the file that the
run has in mind, and all its annotations are settled. -/
theorem exists_output (parsed : (parseUnit source file).toExcept = .ok u)
    (applies : (Recipe.ofNamespace n fold?).appliesTo u = true)
    (ran : (Recipe.ofNamespace n fold?).runSource source file = .ok run) :
    let outcome := makeLazy (.persistence n) (.ofNamespace n) u
    run.sites = outcome.sites ∧ run.failures = outcome.failures ∧
      run.importsAdded = outcome.plan.addedTypes ∧
      ∃ w, (parseUnit run.output file).toExcept = .ok w ∧
        w.visible = (outcome.plan.applyTo outcome.unit fold?).visible ∧
        ∀ c ∈ w.annotations, Settled n u ⟨outcome.plan, outcome.sites, outcome.failures⟩ c := by
  intro outcome
  obtain ⟨readable, grows, same, settled⟩ := settled_of_parseUnit (n := n) parsed
  rw [runSource_of_appliesTo parsed applies, Except.ok.injEq] at ran
  subst ran
  refine ⟨rfl, rfl, rfl, ?_⟩
  -- annotations with the cores of those that the run leaves behind are settled
  have carried {w : CompilationUnit}
      (cores : w.annotations.map Annotation.core = outcome.unit.annotations.map Annotation.core) :
      ∀ c ∈ w.annotations, Settled n u ⟨outcome.plan, outcome.sites, outcome.failures⟩ c := by
    intro c hc
    obtain ⟨d, hd, core⟩ := List.mem_map.1 (cores ▸ List.mem_map_of_mem (f := Annotation.core) hc)
    exact (settled d hd).congr core.symm
  by_cases changed : (!outcome.sites.isEmpty || !outcome.plan.addedTypes.isEmpty) = true
  · rw [if_pos changed]
    obtain ⟨types, packages⟩ := grows.isName
    obtain ⟨w, hw, bare⟩ :=
      (ImportPlan.readable_applyTo readable types packages fold?).exists_parse file
    exact ⟨w, hw, CompilationUnit.visible_congr bare,
      carried ((CompilationUnit.cores_congr bare).trans (outcome.plan.cores_applyTo _ _))⟩
  · rw [if_neg changed]
    simp only [Bool.or_eq_true, Bool.not_eq_true', List.isEmpty_eq_false_iff, not_or,
      Decidable.not_not] at changed
    obtain ⟨none, nothing⟩ := changed
    have bare := readable.bare_unique (parseUnit_readable parsed).1 (same none).symm
    refine ⟨u, parsed, ?_, carried (CompilationUnit.cores_congr bare)⟩
    rw [ImportPlan.applyTo_of_added_nil nothing]
    exact visible_makeLazy ..

/-- **Names in the text that is written** — without folding, every name means in it what it means in the
scope in which the run ends. -/
theorem ImportPlan.Grows.agree {plan : ImportPlan} {v w : CompilationUnit}
    (h : (ImportPlan.ofUnit u).Grows n u plan) (same : u.visible = v.visible)
    (visible : w.visible = (plan.applyTo v none).visible) :
    Scope.Agree (w.bareScope (.persistence n)) (planScope n u plan) := by
  have agree := (h.plans same).agree (.persistence n)
  rw [← CompilationUnit.symbols_congr visible, ← CompilationUnit.symbols_congr same] at agree
  exact agree

/-! ## Associations in the text -/

/-- **`FetchesLazily scope targets a`** — the first argument of the annotation gives its element `fetch` the
constant `LAZY` of the fetch modes, and no other argument is one for that element. -/
def FetchesLazily (scope : Scope) (targets : Targets) (a : Annotation) : Prop :=
  ∃ first others, a.arguments = first :: others ∧ first.name? = some "fetch" ∧
    scope.valueType? first.value = some (.class targets.fetchType) ∧
    first.value.tokens.getLast?.map Token.kind = some (.identifier "LAZY") ∧
    ∀ other ∈ others, other.name? ≠ some "fetch"

theorem elementType?_fetch (n : Namespace) (k : Association) :
    (Catalog.persistence n).elementType? (k.target (.ofNamespace n)) "fetch" =
      some (.class n.fetchType) := by
  cases n <;> cases k <;> decide

/-- An argument for the element `fetch` of an association says how to fetch. -/
theorem isFetchArgument_of_name? {s : Scope} (catalog : s.symbols.catalog = .persistence n)
    {k : Association} {argument : Argument} (name : argument.name? = some "fetch") :
    isFetchArgument s (.ofNamespace n) (some (k.target (.ofNamespace n))) argument = true := by
  have declared : s.argumentType? argument (some (k.target (.ofNamespace n))) =
      some (.class n.fetchType) := by
    simp only [Scope.argumentType?, Option.bind_some, name, catalog, elementType?_fetch]
    rfl
  rw [isFetchArgument, declared]
  exact decide_eq_true rfl

/-- The arguments of a directive, up to where their tokens stand. -/
theorem IsDirective.arguments {scope : Scope} {k : Association} {others : List Argument} {c : Annotation}
    (h : IsDirective scope n k others c) :
    c.arguments.map (Argument.mapTokens Token.bare) =
      (lazyArgument (fetchReference scope (.ofNamespace n)).text :: others).map
        (Argument.mapTokens Token.bare) := by
  rw [← c.arguments_core, h.core, Annotation.arguments_mapTokens]
  rfl

/-- **Directives fetch lazily** — where the name in them means the fetch modes. -/
theorem IsDirective.fetchesLazily {scope s : Scope} {k : Association} {others : List Argument}
    {c : Annotation} (h : IsDirective scope n k others c)
    (known : scope.symbols.catalog = .persistence n) (known' : s.symbols.catalog = .persistence n)
    (resolved : s.resolve (fetchReference scope (.ofNamespace n)).text = some n.fetchType) :
    FetchesLazily s (.ofNamespace n) c := by
  have arguments := h.arguments
  generalize (fetchReference scope (.ofNamespace n)).text = text at arguments resolved
  cases hc : c.arguments with
  | nil => simp [hc] at arguments
  | cons first rest =>
    rw [hc, List.map_cons, List.map_cons] at arguments
    obtain ⟨head, tail⟩ := List.cons.inj arguments
    -- the first argument is the one that the directive has written, but for what stands between its tokens
    have value : first.value.mapTokens Token.bare = (lazyArgument text).value.mapTokens Token.bare :=
      congrArg Argument.value head
    refine ⟨first, rest, hc, ?_, ?_, ?_, fun other hother named => ?_⟩
    · rw [← Argument.name?_mapTokens Token.kind_bare, head, Argument.name?_mapTokens Token.kind_bare]
      rfl
    · have has : (Catalog.persistence n).hasConstant n.fetchType "LAZY" = true := n.hasConstant_lazy
      rw [← s.valueType?_mapTokens Token.kind_bare, value, s.valueType?_mapTokens Token.kind_bare,
        valueType?_lazyArgument, resolved, Option.bind_some, Scope.constantOf?, known', if_pos has]
      rfl
    · have tokens : first.value.tokens.map Token.kind = nameKinds (parts text ++ ["LAZY"]) := by
        have bare := congrArg (fun value => value.tokens.map Token.kind) value
        simp only [ElementValue.tokens_mapTokens, List.map_map, Function.comp_def,
          Token.kind_bare] at bare
        rw [bare, lazyArgument, ElementValue.tokens, listTokens_map_token]
        exact kinds_spelled " " _
      rw [← List.getLast?_map, tokens, nameKinds_append, List.getLast?_append]
      rfl
    · -- an argument that is kept says nothing of fetching, so it is not for that element
      obtain ⟨o, ho, same⟩ := List.mem_map.1
        (tail ▸ List.mem_map_of_mem (f := Argument.mapTokens Token.bare) hother)
      have name : o.name? = some "fetch" := by
        rw [← Argument.name?_mapTokens Token.kind_bare, same, Argument.name?_mapTokens Token.kind_bare,
          named]
      have plain := h.plain o ho
      rw [isFetchArgument_of_name? known name] at plain
      cases plain

/-- **All associations become lazy** — if a run over a text whose file refers to an association succeeds
without failures, the text that it writes parses without errors, and wherever an annotation of that
declares an association, as names are meant there, it fetches lazily. -/
theorem runSource_fetchesLazily (parsed : (parseUnit source file).toExcept = .ok u)
    (applies : (Recipe.ofNamespace n).appliesTo u = true)
    (ran : (Recipe.ofNamespace n).runSource source file = .ok run) (clean : run.failures = []) :
    ∃ w, (parseUnit run.output file).toExcept = .ok w ∧
      ∀ a ∈ w.annotations, ∀ k : Association,
        (w.bareScope (.persistence n)).annotationType? a = some (k.target (.ofNamespace n)) →
          FetchesLazily (w.bareScope (.persistence n)) (.ofNamespace n) a := by
  obtain ⟨-, failures, -, w, hw, visible, settled⟩ := exists_output parsed applies ran
  obtain ⟨-, grows, -, -⟩ := settled_of_parseUnit (n := n) parsed
  have agree := grows.agree (visible_makeLazy ..) visible
  refine ⟨w, hw, fun a ha k type => ?_⟩
  rw [agree.annotationType?, ← associationOf?_eq_some_iff] at type
  cases settled a ha with
  | foreign plan planned later unmatched =>
    rw [later.associationOf? (planned.reached (.start n u)), unmatched] at type
    cases type
  | kept plan k' planned later failing =>
    exact absurd (failures.symm.trans clean) failing
  | lazy plan k' others planned later matched directive resolved =>
    -- once the name in the directive means something, no plan grows any more
    have ended : (makeLazy (.persistence n) (.ofNamespace n) u).plan =
        stagedPlan (.ofUnit u (.persistence n)) (.ofNamespace n) plan :=
      later.eq_of_known (known_staged (planned.reached (.start n u)))
    rw [ended] at agree
    exact directive.fetchesLazily rfl rfl ((agree.resolve _).trans resolved)

/-- An eager association, of which the other argument is kept. -/
theorem runSource_fetchesLazily_eager :
    let source := "import jakarta.persistence.*; class A \x7b @OneToOne(c = 1, fetch = EAGER) B b; \x7d"
    ∃ u run w, (parseUnit source).toExcept = .ok u ∧
      (Recipe.ofNamespace .jakarta).appliesTo u = true ∧
      (Recipe.ofNamespace .jakarta).runSource source = .ok run ∧
      run.failures = [] ∧ (parseUnit run.output).toExcept = .ok w ∧
      ∀ a ∈ w.annotations, ∀ k : Association,
        (w.bareScope (.persistence .jakarta)).annotationType? a = some (k.target (.ofNamespace .jakarta)) →
          FetchesLazily (w.bareScope (.persistence .jakarta)) (.ofNamespace .jakarta) a := by
  intro source
  have file : (parseUnit source).toExcept.toOption.map (Recipe.ofNamespace .jakarta).appliesTo =
      some true := by decide +kernel
  have text : ((Recipe.ofNamespace .jakarta).runSource source).toOption.map
      (fun run => run.failures.length) = some 0 := by decide +kernel
  obtain ⟨u, parsed, applies⟩ := exists_of_toOption_map file
  obtain ⟨run, ran, clean⟩ := exists_of_toOption_map text
  obtain ⟨w, hw, lazy⟩ := runSource_fetchesLazily parsed applies ran (List.length_eq_zero_iff.1 clean)
  exact ⟨u, run, w, parsed, applies, ran, List.length_eq_zero_iff.1 clean, hw, lazy⟩

end DeferFetch
