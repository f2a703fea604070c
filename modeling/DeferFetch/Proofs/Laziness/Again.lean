/-
# DeferFetch.Proofs.Laziness.Again — running on what a run has written.

A run over a text that a run has written succeeds, and there is nothing more to import. It replaces an
annotation, though, where the import that the first run has added says what the annotation means: where
by that import it declares an association, or one of its arguments says how to fetch (`Gains`). Where no
annotation gains a meaning, the second run leaves the text as it is (`runSource_again`).
-/
import DeferFetch.Proofs.Grammar.Alone
import DeferFetch.Proofs.Laziness.Output
import DeferFetch.Proofs.Laziness.Splice
import DeferFetch.Proofs.Imports.Folding

namespace DeferFetch

variable {n : Namespace} {fold? : Option Nat} {source : String} {file : Option String}
  {u v w : CompilationUnit} {k : Association} {c : Annotation}

/-! ## Directives as text -/

/-- An argument after a blank depends on the argument only up to where its tokens stand. -/
theorem Argument.mapTokens_bare_afterBlank (p : Argument) :
    (p.mapTokens Token.bare).afterBlank.mapTokens Token.bare = p.afterBlank.mapTokens Token.bare := by
  have value (value : ElementValue) :
      (value.mapTokens Token.bare).mapTokens Token.bare = value.mapTokens Token.bare := by
    rw [ElementValue.mapTokens_mapTokens]
    exact congrArg value.mapTokens (funext Token.bare_bare)
  obtain ⟨_ | ⟨name, equals⟩, value'⟩ := p
  · simp only [mapTokens, mapLabel, afterBlank, Option.map_none, value]
  · simp only [mapTokens, mapLabel, afterBlank, Option.map_some, value, Token.bare_bare,
      Token.afterBlank, Token.trimmed, Token.kind_bare, Token.leadingText_bare]

/-- Directives with arguments that are the same up to where their tokens stand are so too. -/
theorem directiveTree_congr (leading name fetchType : String) {others others' : List Argument}
    (same : others.map (Argument.mapTokens Token.bare) = others'.map (Argument.mapTokens Token.bare)) :
    (directiveTree leading name fetchType others).mapTokens Token.bare =
      (directiveTree leading name fetchType others').mapTokens Token.bare := by
  have length : others.length = others'.length := by
    simpa using congrArg List.length same
  simp only [directiveTree, Annotation.mapTokens_withArguments, List.map_cons, same, List.map_const',
    length]

/-- The core of an annotation prints as its text. -/
theorem Annotation.print_core (sign : c.sigil.kind = .at) : print c.core.tokens = c.text := by
  rw [core, Annotation.tokens_mapTokens, print_bare, Annotation.tokens_withSigil, print_cons, text,
    Token.source, Token.leadingText_synthetic, Token.text, Token.text, sign, String.empty_append]
  rfl

/-- Arguments that are the same up to where their tokens stand say the same about how to fetch. -/
theorem isFetchArgument_congr {p q : Argument} (same : p.mapTokens Token.bare = q.mapTokens Token.bare)
    (s : Scope) (targets : Targets) (target : Option String) :
    isFetchArgument s targets target p = isFetchArgument s targets target q := by
  rw [← isFetchArgument_mapTokens Token.kind_bare, same, isFetchArgument_mapTokens Token.kind_bare]

/-- **Directives in another scope** — a directive is one in every scope in which the fetch modes are written
the same and no argument of it says how to fetch that has not done so before. -/
theorem IsDirective.inScope {s s' : Scope} {others : List Argument} (h : IsDirective s n k others c)
    (text : (fetchReference s' (.ofNamespace n)).text = (fetchReference s (.ofNamespace n)).text)
    (silent : ∀ p ∈ c.arguments,
      isFetchArgument s (.ofNamespace n) (some (k.target (.ofNamespace n))) p = false →
      isFetchArgument s' (.ofNamespace n) (some (k.target (.ofNamespace n))) p = false) :
    IsDirective s' n k others c := by
  refine ⟨by rw [text]; exact h.core, h.names, fun o ho => ?_, h.blanks⟩
  have mem : o.mapTokens Token.bare ∈ c.arguments.map (Argument.mapTokens Token.bare) := by
    rw [h.arguments]
    exact List.mem_map_of_mem (List.mem_cons_of_mem _ ho)
  obtain ⟨p, hp, same⟩ := List.mem_map.1 mem
  rw [← isFetchArgument_congr same]
  refine silent p hp ?_
  rw [isFetchArgument_congr same]
  exact h.plain o ho

/-- Of a directive, all arguments but the lazy fetch are kept. -/
theorem IsDirective.keptArguments {s : Scope} {others : List Argument} (h : IsDirective s n k others c)
    (known : s.symbols.catalog = .persistence n) :
    (DeferFetch.keptArguments s (.ofNamespace n) k c).map (Argument.mapTokens Token.bare) =
      others.map (Argument.mapTokens Token.bare) := by
  rw [← keptArguments_core, h.core, keptArguments_mapTokens]
  congr 1
  have lazy : isFetchArgument s (.ofNamespace n) (some (k.target (.ofNamespace n)))
      (lazyArgument (fetchReference s (.ofNamespace n)).text) = true :=
    isFetchArgument_of_name? known rfl
  unfold DeferFetch.keptArguments preservedArguments
  rw [show (directiveTree "" c.name.dotted (fetchReference s (.ofNamespace n)).text others).arguments =
    lazyArgument (fetchReference s (.ofNamespace n)).text :: others from rfl,
    List.filter_cons_of_neg (by simp [lazy])]
  exact List.filter_eq_self.2 fun o ho => by simp [h.plain o ho]

/-- **Directives are written as they are** — the text of a directive is that which an attempt on it
renders. -/
theorem IsDirective.text {s : Scope} {others : List Argument} {m : Nat} {f : List TokenKind}
    {tail : List Char} (h : IsDirective s n k others c) (known : s.symbols.catalog = .persistence n)
    (fits : c.Fits m f) (legible : Legible c.tokens tail) :
    c.text = (directiveFor s (.ofNamespace n) k c).render := by
  have kept := h.keptArguments known
  have names : ∀ p ∈ DeferFetch.keptArguments s (.ofNamespace n) k c, p.label.isSome := by
    intro p hp
    obtain ⟨o, ho, same⟩ := List.mem_map.1
      (kept ▸ List.mem_map_of_mem (f := Argument.mapTokens Token.bare) hp)
    have label := congrArg (fun p : Argument => p.label.isSome) same
    simp only [Argument.mapTokens, mapLabel, Option.isSome_map] at label
    rw [← label]
    exact h.names o ho
  have respaced := respaced_afterBlank names
  -- the arguments stand after a blank already
  have blanks : ((DeferFetch.keptArguments s (.ofNamespace n) k c).map Argument.afterBlank).map
      (Argument.mapTokens Token.bare) = others.map (Argument.mapTokens Token.bare) := by
    have := congrArg (List.map fun p : Argument => p.afterBlank.mapTokens Token.bare) kept
    simp only [List.map_map, Function.comp_def, Argument.mapTokens_bare_afterBlank] at this ⊢
    rw [this]
    exact List.map_congr_left fun o ho => by rw [h.blanks o ho]
  have directs := directs_of_fits fits legible respaced
  rw [← Annotation.print_core fits.sigil.2, h.core, ← directiveTree_congr _ _ _ blanks,
    Annotation.tokens_mapTokens, print_bare, tokens_directiveTree respaced,
    print_directiveTokens _ _ _ directs.detached, String.empty_append, render_directiveFor]

/-- A synthesis on a directive gives its text again. -/
theorem IsDirective.source_of_synthesizeFor {symbols : SymbolTable} {plan : ImportPlan}
    {others : List Argument} {r : Synthesis} {m : Nat} {f : List TokenKind} {tail : List Char}
    (h : IsDirective ⟨symbols, plan.added⟩ n k others c) (known : symbols.catalog = .persistence n)
    (hm : m ≤ maxNesting) (fits : c.Fits m f) (legible : Legible c.tokens tail)
    (synthesized : synthesizeFor symbols (.ofNamespace n) plan k c = .ok r) :
    c.source = r.replacement.source := by
  rw [(renewed_of_synthesizeFor hm fits legible synthesized).source fits legible, c.source_eq,
    h.text known fits legible]

/-! ## Meanings that are gained -/

/-- **`Gains s s' n c`** — in the scope `s'`, the annotation declares an association, and every argument
that is kept has a name. That says something new about it, compared with the scope `s`: it has not
declared an association, and is not written as the directive for one; or one of its arguments has not
said how to fetch, and now says so. -/
def Gains (s s' : Scope) (n : Namespace) (c : Annotation) : Prop :=
  ∃ k, associationOf? s' (.ofNamespace n) c = some k ∧
    (∀ p ∈ keptArguments s' (.ofNamespace n) k c, p.label.isSome) ∧
    ((associationOf? s (.ofNamespace n) c = none ∧
        c.text ≠ (directiveFor s' (.ofNamespace n) k c).render) ∨
      ∃ p ∈ c.arguments, isFetchArgument s (.ofNamespace n) (some (k.target (.ofNamespace n))) p = false ∧
        isFetchArgument s' (.ofNamespace n) (some (k.target (.ofNamespace n))) p = true)

theorem Gains.irrefl (s : Scope) (n : Namespace) (c : Annotation) : ¬ Gains s s n c := by
  rintro ⟨k, matched, -, ⟨unmatched, -⟩ | ⟨p, -, silent, fetches⟩⟩
  · rw [matched] at unmatched
    cases unmatched
  · rw [fetches] at silent
    cases silent

/-- An annotation that declares an association in two scopes declares the same one. -/
theorem associationOf?_unique {s s' : Scope} (hs : s.KeepsLast) (hs' : s'.KeepsLast) {k' : Association}
    (h : associationOf? s (.ofNamespace n) c = some k)
    (h' : associationOf? s' (.ofNamespace n) c = some k') : k = k' := by
  have last := Scope.resolve_simpleNameOf hs (associationOf?_eq_some_iff.1 h)
  have last' := Scope.resolve_simpleNameOf hs' (associationOf?_eq_some_iff.1 h')
  obtain ⟨many, one⟩ := simpleNameOf_associations n
  have same : simpleNameOf (k.target (.ofNamespace n)) = simpleNameOf (k'.target (.ofNamespace n)) :=
    last.trans last'.symm
  cases k with
  | oneToOne =>
    cases k' with
    | oneToOne => rfl
    | manyToOne => exact absurd (one.symm.trans (same.trans many)) (by decide)
  | manyToOne =>
    cases k' with
    | oneToOne => exact absurd (many.symm.trans (same.trans one)) (by decide)
    | manyToOne => rfl

/-! ## The fetch modes in the text that is written -/

/-- The imports by name after an insertion: one is new. -/
theorem mem_singleTypes_insertImport {name : String} {entry : String × String} :
    entry ∈ (v.insertImport name).singleTypes ↔
      entry ∈ v.singleTypes ∨ entry = (simpleNameOf name, name) := by
  obtain ⟨before, fresh, after, after', old, new, outline, others⟩ := v.inserted_insertImport name
  have single : fresh.singleType? = some (simpleNameOf name, name) := by
    rw [ImportDeclaration.singleType?_congr (j := .ofType name)
      (outline.trans (ImportDeclaration.outline_ofType name "").symm),
      ImportDeclaration.singleType?_ofType]
  rw [CompilationUnit.singleTypes, new, List.filterMap_append, List.filterMap_cons_some single,
    ImportDeclaration.filterMap_congr ImportDeclaration.singleType?_congr others]
  rw [CompilationUnit.singleTypes, old, List.filterMap_append]
  simp only [List.mem_append, List.mem_cons]
  rw [or_assoc]
  exact or_congr_right or_comm

/-- Where the fetch modes mean nothing, they are the only type to import. -/
theorem addedTypes_register (unknown : (planScope n u (.ofUnit u)).resolveSimple "FetchType" = none) :
    ((ImportPlan.ofUnit u).register n.fetchType).addedTypes = [n.fetchType] := by
  rw [ImportPlan.register, outcome_eq_added (.start n u) unknown]
  rfl

/-- **`v.foldedFor n threshold`** — the file with an import of the fetch modes, folded with the other
imports of their package. -/
def CompilationUnit.foldedFor (v : CompilationUnit) (n : Namespace) (threshold : Nat) :
    CompilationUnit :=
  { v.insertImport n.fetchType with
    imports := foldImports (v.insertImport n.fetchType).imports n.package threshold }

/-- The fetch modes are not of the file's own package where their name means nothing. -/
theorem packageName_ne_of_unknown
    (unknown : (v.bareScope (.persistence n)).resolveSimple "FetchType" = none) :
    v.packageName ≠ some n.package := by
  intro own
  have hit : Scope.inPackage? (v.bareScope (.persistence n)) n.package "FetchType" =
      some n.fetchType := by
    rw [Scope.inPackage?]
    exact if_pos n.contains_fetchType
  simp only [Scope.resolveSimple, Option.orElse_eq_orElse, Option.orElse_eq_or,
    Option.or_eq_none_iff] at unknown
  have package := unknown.2.2.2.1
  rw [show (v.bareScope (.persistence n)).symbols.package? = some n.package from own,
    Option.bind_some, hit] at package
  cases package

/-- In a file in which the fetch modes mean nothing, they mean those of the package once the import of
them is folded. -/
theorem resolveSimple_foldedFor {threshold : Nat}
    (unknown : (v.bareScope (.persistence n)).resolveSimple "FetchType" = none)
    (folds : Foldable (v.insertImport n.fetchType).imports threshold n.package) :
    ((v.foldedFor n threshold).bareScope (.persistence n)).resolveSimple "FetchType" =
      some n.fetchType := by
  have foreign := packageName_ne_of_unknown unknown
  simp only [CompilationUnit.bareScope, Scope.resolveSimple, Option.orElse_eq_orElse,
    Option.orElse_eq_or, Option.or_eq_none_iff] at unknown
  obtain ⟨undeclared, single, -, -, -⟩ := unknown
  have own : (v.foldedFor n threshold).packageName = v.packageName := v.packageName_insertImport _
  -- folding touches imports only, and the file declares what it has declared
  have undeclared : (SymbolTable.ofUnit (v.foldedFor n threshold) (.persistence n)).declared.get?
      "FetchType" = none := by
    have entries := v.declarations_insertImport n.fetchType
    simp only [SymbolTable.ofUnit, NameMap.get?_firstOfEach, own] at undeclared ⊢
    rw [show (v.foldedFor n threshold).declarations = (v.insertImport n.fetchType).declarations from rfl,
      entries, undeclared]
  have gone : (SymbolTable.ofUnit (v.foldedFor n threshold) (.persistence n)).singleType.get?
      "FetchType" = none := by
    simp only [SymbolTable.ofUnit, NameMap.get?_firstOfEach] at single ⊢
    rw [show (v.foldedFor n threshold).imports =
        foldImports (v.insertImport n.fetchType).imports n.package threshold from rfl,
      filterMap_singleType?_foldImports folds]
    cases found : NameMap.get? _ "FetchType" with
    | none => rfl
    | some type =>
      -- an import of that name would be an old one, or the one that was folded
      obtain ⟨mem, outside⟩ := List.mem_filter.1 (NameMap.mem_of_get? found)
      rcases mem_singleTypes_insertImport.1 mem with old | new
      · exact absurd (List.mem_map_of_mem old) (NameMap.not_mem_of_get?_eq_none single)
      · rw [new] at outside
        simp [DeferFetch.outside, n.qualifierOf_fetchType] at outside
  have foreign' : (SymbolTable.ofUnit (v.foldedFor n threshold) (.persistence n)).package? ≠
      some n.package := fun same => foreign (own.symm.trans same)
  have demand : n.package ∈ (SymbolTable.ofUnit (v.foldedFor n threshold) (.persistence n)).onDemand :=
    List.mem_eraseDups.2 ((mem_packageOnDemand?_foldImports folds).2 (.inl rfl))
  have notSingle : (SymbolTable.ofUnit (v.foldedFor n threshold) (.persistence n)).singleType.get?
      "FetchType" ≠ some n.fetchType := by
    rw [gone]
    exact (Option.some_ne_none _).symm
  refine (resolveSimple_eq_iff_unrivalled (of_decide_eq_false rfl) (nodup_eraseDups _) undeclared
    demand n.contains_fetchType foreign' notSingle).2 ⟨gone, fun p hp => ?_, fun p _ hne => ?_⟩
  · refine Bool.eq_false_iff.2 fun found => foreign' ?_
    rw [← Namespace.eq_package_of_contains found]
    exact hp
  · exact Bool.eq_false_iff.2 fun found => hne (Namespace.eq_package_of_contains found)

/-- **The import is not lost** — a file that has got the import of the fetch modes, which meant nothing in
it, means them by their simple name, also when the imports of the package have been folded. -/
theorem resolveSimple_fetchType_of_visible
    (unknown : (planScope n u (.ofUnit u)).resolveSimple "FetchType" = none)
    (same : u.visible = v.visible)
    (visible : w.visible = (((ImportPlan.ofUnit u).register n.fetchType).applyTo v fold?).visible) :
    (w.bareScope (.persistence n)).resolveSimple "FetchType" = some n.fetchType := by
  have grows : (ImportPlan.ofUnit u).Grows n u ((ImportPlan.ofUnit u).register n.fetchType) :=
    .inr ⟨unknown, rfl⟩
  -- where nothing is folded, the imports are those that were pending
  have inserted {w : CompilationUnit}
      (visible : w.visible = (((ImportPlan.ofUnit u).register n.fetchType).applyTo v none).visible) :
      (w.bareScope (.persistence n)).resolveSimple "FetchType" = some n.fetchType :=
    ((grows.agree same visible).resolveSimple _).trans (resolveSimple_register (.start n u) unknown)
  cases fold? with
  | none => exact inserted visible
  | some threshold =>
    have added := addedTypes_register unknown
    have packages : ((ImportPlan.ofUnit u).register n.fetchType).addedPackages = [n.package] := by
      rw [ImportPlan.addedPackages, added, List.filterMap_cons_some n.qualifierOf_fetchType]
      rfl
    rw [ImportPlan.applyTo, added, packages] at visible
    by_cases folds : Foldable (v.insertImport n.fetchType).imports threshold n.package
    · have unknown' : (v.bareScope (.persistence n)).resolveSimple "FetchType" = none := by
        rw [CompilationUnit.bareScope, ← CompilationUnit.symbols_congr same]
        exact unknown
      have visible : w.visible = (v.foldedFor n threshold).visible := visible
      rw [CompilationUnit.bareScope, CompilationUnit.symbols_congr visible]
      exact resolveSimple_foldedFor unknown' folds
    · refine inserted (visible.trans ?_)
      rw [ImportPlan.applyTo, added]
      show CompilationUnit.visible { v.insertImport n.fetchType with
        imports := foldImports (v.insertImport n.fetchType).imports n.package threshold } = _
      rw [foldImports_of_not_foldable folds]
      rfl

/-! ## Attempts on what is settled -/

theorem ImportPlan.Grows.antisymm {p q : ImportPlan} (hp : p.Reached n u) (h : p.Grows n u q)
    (h' : q.Grows n u p) : p = q := by
  rcases h with rfl | ⟨unknown, rfl⟩
  · rfl
  · refine h'.eq_of_known ?_
    rw [resolveSimple_register hp unknown]
    exact Option.some_ne_none _

section Attempts

variable {s : WalkState} {m : Nat} {f : List TokenKind} {tail : List Char}

/-- **Nothing left to do** — when a run ends with the plan with which it has begun, an attempt on what it
leaves behind replaces nothing and plans nothing. -/
theorem Settled.idle (settled : Settled n u s c) (ends : s.plan = .ofUnit u) (hm : m ≤ maxNesting)
    (fits : c.Fits m f) (legible : Legible c.tokens tail) :
    (attempt (.ofUnit u (.persistence n)) (.ofNamespace n) (.ofUnit u) c).Idle (.ofUnit u) := by
  have attempted := attempt_cases (.ofUnit u (.persistence n)) (.ofNamespace n) (.ofUnit u) c
  -- a synthesis that succeeds plans nothing and gives the same text
  have again {k : Association} {r : Synthesis}
      (matched : associationOf? (planScope n u (.ofUnit u)) (.ofNamespace n) c = some k)
      (h : synthesizeFor (.ofUnit u (.persistence n)) (.ofNamespace n) (.ofUnit u) k c = .ok r) :
      r.plan = .ofUnit u ∧ c.source = r.replacement.source := by
    have staged : r.plan = stagedPlan (.ofUnit u (.persistence n)) (.ofNamespace n) (.ofUnit u) := by
      obtain ⟨b, -, -, rfl⟩ := synthesizeFor_eq_ok.1 h
      rfl
    cases settled with
    | foreign plan planned _ unmatched =>
      rw [planned.associationOf? (.start n u), matched] at unmatched
      cases unmatched
    | kept plan k' planned grows failing matched' stuck =>
      -- plans only grow, so a run that ends with the plan it began with has had no other
      obtain rfl : ImportPlan.ofUnit u = plan := planned.antisymm (.start n u) (ends ▸ grows)
      obtain rfl : k = k' := Option.some.inj (matched.symm.trans matched')
      exact absurd (makeable_of_synthesizeFor hm fits legible h) stuck
    | lazy plan k' others planned grows matched' directive _ =>
      have reached := planned.reached (.start n u)
      have whole : plan.Grows n u (.ofUnit u) := ends ▸ (grows_staged n u plan).trans reached grows
      obtain rfl : ImportPlan.ofUnit u = plan := planned.antisymm (.start n u) whole
      obtain rfl : k = k' := Option.some.inj (matched.symm.trans matched')
      refine ⟨?_, directive.source_of_synthesizeFor rfl hm fits legible h⟩
      rw [staged]
      exact ((grows_staged n u (.ofUnit u)).antisymm (.start n u) (ends ▸ grows)).symm
  generalize attempt (.ofUnit u (.persistence n)) (.ofNamespace n) (.ofUnit u) c = outcome
    at attempted ⊢
  cases attempted with
  | notApplicable => trivial
  | failed => trivial
  | alreadyLazy matched h _ => exact (again matched h).1
  | replaced matched h changed => exact changed (again matched h).2

/-- Where the simple name of the fetch modes means nothing or just them, it is what is written. -/
theorem text_fetchReference {s : Scope}
    (simple : ∀ type, s.resolveSimple "FetchType" = some type → type = n.fetchType) :
    (fetchReference s (.ofNamespace n)).text = "FetchType" := by
  simp only [fetchReference, show (Targets.ofNamespace n).fetchType = n.fetchType from rfl,
    n.simpleNameOf_fetchType]
  cases meant : s.resolveSimple "FetchType" with
  | none => rfl
  | some type =>
    simp only
    rw [if_pos (simple type meant)]

/-- In a file in which they meant nothing, the simple name of the fetch modes means just them. -/
theorem eq_fetchType_of_planned {p : ImportPlan} (planned : (ImportPlan.ofUnit u).Grows n u p)
    (unknown : (planScope n u (.ofUnit u)).resolveSimple "FetchType" = none) (type : String)
    (meant : (planScope n u p).resolveSimple "FetchType" = some type) : type = n.fetchType := by
  rcases planned with rfl | ⟨-, rfl⟩
  · rw [unknown] at meant
    cases meant
  · rw [resolveSimple_register (.start n u) unknown] at meant
    exact (Option.some.inj meant).symm

/-- Where the simple name of the fetch modes means nothing else, a directive can be made for an annotation
that has names for all arguments that it keeps. -/
theorem makeable_of_simple {p : ImportPlan} (reached : p.Reached n u)
    (simple : ∀ type, (planScope n u p).resolveSimple "FetchType" = some type → type = n.fetchType)
    (names : ∀ b ∈ keptArguments (planScope n u p) (.ofNamespace n) k c, b.label.isSome) :
    Makeable (planScope n u p) (stagedScope n u p) n k c := by
  refine ⟨names, ?_⟩
  unfold stagedScope stagedPlan
  refine resolve_fetchReference_of_qualified reached fun type meant ne => ?_
  exact absurd (simple type meant) ne

/-- Where the fetch modes are known by their simple name, no import is needed. -/
theorem stagedPlan_of_known {p : ImportPlan}
    (known : (planScope n w p).resolveSimple "FetchType" = some n.fetchType) :
    stagedPlan (.ofUnit w (.persistence n)) (.ofNamespace n) p = p := by
  refine (grows_staged n w p).eq_of_known ?_
  rw [known]
  exact Option.some_ne_none _

/-- **What settled annotations lack** — when a run has imported the fetch modes, an attempt in the file that
it has written, on an annotation that it leaves behind, replaces that only if it has gained a meaning. -/
theorem Settled.idle_of_not_gains (settled : Settled n u s c)
    (unknown : (planScope n u (.ofUnit u)).resolveSimple "FetchType" = none)
    (known : (planScope n w (.ofUnit w)).resolveSimple "FetchType" = some n.fetchType)
    (hm : m ≤ maxNesting) (fits : c.Fits m f) (legible : Legible c.tokens tail)
    (gains : ¬ Gains (u.bareScope (.persistence n)) (w.bareScope (.persistence n)) n c) :
    (attempt (.ofUnit w (.persistence n)) (.ofNamespace n) (.ofUnit w) c).Idle (.ofUnit w) := by
  have attempted := attempt_cases (.ofUnit w (.persistence n)) (.ofNamespace n) (.ofUnit w) c
  generalize attempt (.ofUnit w (.persistence n)) (.ofNamespace n) (.ofUnit w) c = outcome
    at attempted ⊢
  cases attempted with
  | notApplicable => trivial
  | failed => trivial
  | alreadyLazy matched h _ =>
    obtain ⟨b, -, -, rfl⟩ := synthesizeFor_eq_ok.1 h
    exact stagedPlan_of_known known
  | @replaced k r matched h changed =>
    have renewed := renewed_of_synthesizeFor hm fits legible h
    have written : c.text ≠ (directiveFor (w.bareScope (.persistence n)) (.ofNamespace n) k c).render := by
      intro same
      refine changed ?_
      rw [renewed.source fits legible, c.source_eq, same]
      rfl
    -- the same association with whatever plan, and what has said how to fetch before still says so
    have unique {plan : ImportPlan} {k' : Association} (planned : (ImportPlan.ofUnit u).Grows n u plan)
        (matched' : associationOf? (planScope n u plan) (.ofNamespace n) c = some k') : k' = k :=
      associationOf?_unique (u.keepsLast_bareScope _) (w.keepsLast_bareScope _)
        ((planned.associationOf? (.start n u) c).symm.trans matched') matched
    have silent {plan : ImportPlan} {p : Argument} (planned : (ImportPlan.ofUnit u).Grows n u plan)
        (hp : p ∈ c.arguments)
        (silent : isFetchArgument (planScope n u plan) (.ofNamespace n)
          (some (k.target (.ofNamespace n))) p = false) :
        isFetchArgument (w.bareScope (.persistence n)) (.ofNamespace n)
          (some (k.target (.ofNamespace n))) p = false := by
      refine Bool.eq_false_iff.2 fun fetches => gains ⟨k, matched, renewed.1, .inr ⟨p, hp, ?_, fetches⟩⟩
      refine Bool.eq_false_iff.2 fun before => ?_
      rw [planned.isFetchArgument (.start n u) before] at silent
      cases silent
    cases settled with
    | foreign plan planned _ unmatched =>
      refine gains ⟨k, matched, renewed.1, .inl ⟨?_, written⟩⟩
      exact (planned.associationOf? (.start n u) c).symm.trans unmatched
    | kept plan k' planned _ _ matched' stuck =>
      obtain rfl := unique planned matched'
      -- a directive that can be made now could have been made then
      refine stuck (makeable_of_simple (planned.reached (.start n u))
        (eq_fetchType_of_planned planned unknown) fun b hb => ?_)
      obtain ⟨mem, plain⟩ := List.mem_filter.1 hb
      have still := silent planned mem (by simpa using plain)
      refine renewed.1 b (List.mem_filter.2 ⟨mem, ?_⟩)
      exact congrArg not still
    | lazy plan k' others planned _ matched' directive _ =>
      obtain rfl := unique planned matched'
      have text : (fetchReference (w.bareScope (.persistence n)) (.ofNamespace n)).text =
          (fetchReference (planScope n u plan) (.ofNamespace n)).text := by
        rw [text_fetchReference (eq_fetchType_of_planned planned unknown), text_fetchReference]
        intro type meant
        exact Option.some.inj (meant.symm.trans known)
      -- it is the directive that would be written, also by the names of the new file
      have directive' : IsDirective
          ⟨.ofUnit w (.persistence n), (ImportPlan.ofUnit w).added⟩ n k' others c :=
        directive.inScope text fun p hp => silent planned hp
      exact changed (directive'.source_of_synthesizeFor rfl hm fits legible h)

/-- **What settled annotations have** — an annotation that a run leaves behind has gained nothing, if the
run imports nothing because the fetch modes are known by their simple name. -/
theorem Settled.not_gains {s₀ : Scope} (settled : Settled n w s c)
    (known : (planScope n w (.ofUnit w)).resolveSimple "FetchType" = some n.fetchType)
    (fits : c.Fits m f) (legible : Legible c.tokens tail)
    (catalog : s₀.symbols.catalog = .persistence n) :
    ¬ Gains s₀ (w.bareScope (.persistence n)) n c := by
  rintro ⟨k, matched, names, new⟩
  -- a plan that can be reached is the one at the beginning
  have start {plan : ImportPlan} (planned : (ImportPlan.ofUnit w).Grows n w plan) :
      plan = .ofUnit w := by
    refine planned.eq_of_known ?_
    rw [known]
    exact Option.some_ne_none _
  cases settled with
  | foreign plan planned _ unmatched =>
    obtain rfl := start planned
    cases unmatched.symm.trans matched
  | kept plan k' planned _ _ matched' stuck =>
    obtain rfl := start planned
    obtain rfl : k' = k := Option.some.inj (matched'.symm.trans matched)
    refine stuck (makeable_of_simple (.start n w) (fun type meant => ?_) names)
    exact Option.some.inj (meant.symm.trans known)
  | lazy plan k' others planned _ matched' directive _ =>
    obtain rfl := start planned
    obtain rfl : k' = k := Option.some.inj (matched'.symm.trans matched)
    rcases new with ⟨-, written⟩ | ⟨p, hp, silent, fetches⟩
    · exact written (directive.text rfl fits legible)
    · have mem := List.mem_map_of_mem (f := Argument.mapTokens Token.bare) hp
      rw [directive.arguments] at mem
      obtain ⟨o, ho, same⟩ := List.mem_map.1 mem
      rcases List.mem_cons.1 ho with rfl | ho
      · -- the lazy fetch says how to fetch in every scope
        rw [← isFetchArgument_congr same, isFetchArgument_of_name? catalog rfl] at silent
        cases silent
      · have plain := directive.plain o ho
        rw [← isFetchArgument_congr same] at fetches
        cases plain.symm.trans fetches

end Attempts

/-! ## Running twice -/

/-- What a run over a text comes to, if its file refers to no association. -/
theorem runSource_of_not_appliesTo (parsed : (parseUnit source file).toExcept = .ok u)
    (silent : (Recipe.ofNamespace n fold?).appliesTo u = false) :
    (Recipe.ofNamespace n fold?).runSource source file = .ok { output := source } := by
  unfold Recipe.runSource
  split
  · rw [parsed]
    simp [Recipe.run, silent, RecipeRun.isChanged]
  · rfl

/-- A run that succeeds has left the text as it was, because its file, if it has been parsed at all, refers
to no association, or it has made the associations of a file lazy. -/
theorem runSource_cases {run : SourceRun}
    (ran : (Recipe.ofNamespace n fold?).runSource source file = .ok run) :
    (run = { output := source } ∧ ∀ u, (parseUnit source file).toExcept = .ok u →
        (Recipe.ofNamespace n fold?).appliesTo u = false) ∨
      ∃ u, (parseUnit source file).toExcept = .ok u ∧
        (Recipe.ofNamespace n fold?).appliesTo u = true := by
  by_cases applies : ∃ u, (parseUnit source file).toExcept = .ok u ∧
      (Recipe.ofNamespace n fold?).appliesTo u = true
  · exact .inr applies
  · have silent : ∀ u, (parseUnit source file).toExcept = .ok u →
        (Recipe.ofNamespace n fold?).appliesTo u = false := by
      intro u parsed
      exact Bool.eq_false_iff.2 fun applies' => applies ⟨u, parsed, applies'⟩
    refine .inl ⟨?_, silent⟩
    cases parsed : (parseUnit source file).toExcept with
    | ok u =>
      rw [runSource_of_not_appliesTo parsed (silent u parsed)] at ran
      exact (Except.ok.inj ran).symm
    | error diagnostics =>
      unfold Recipe.runSource at ran
      split at ran
      · rw [parsed] at ran
        cases ran
      · exact (Except.ok.inj ran).symm

/-- Over what is settled by a run that has imported nothing, the next run does nothing. -/
theorem makeLazy_idle {s : WalkState} (settled : ∀ c ∈ w.annotations, Settled n u s c)
    (ends : s.plan = .ofUnit u) (same : w.visible = u.visible) (readable : w.Readable) :
    (makeLazy (.persistence n) (.ofNamespace n) w).plan = .ofUnit w ∧
      (makeLazy (.persistence n) (.ofNamespace n) w).sites = [] := by
  have idle : ∀ c ∈ w.annotations,
      (attempt (.ofUnit w (.persistence n)) (.ofNamespace n) (.ofUnit w) c).Idle (.ofUnit w) := by
    intro c hc
    obtain ⟨f, tail, fits, legible⟩ := readable.exists_place hc
    rw [CompilationUnit.symbols_congr same, CompilationUnit.plan_congr same]
    exact (settled c hc).idle ends (Nat.le_refl _) fits legible
  exact (attemptAll_of_idle idle).2

/-- Over what is settled by a run that has imported the fetch modes, the next run replaces an annotation
just if one has gained a meaning. -/
theorem makeLazy_sites_iff_gains {s : WalkState} (parsed : (parseUnit source file).toExcept = .ok w)
    (settled : ∀ c ∈ w.annotations, Settled n u s c)
    (unknown : (planScope n u (.ofUnit u)).resolveSimple "FetchType" = none)
    (known : (planScope n w (.ofUnit w)).resolveSimple "FetchType" = some n.fetchType) :
    (makeLazy (.persistence n) (.ofNamespace n) w).plan = .ofUnit w ∧
      ((makeLazy (.persistence n) (.ofNamespace n) w).sites ≠ [] ↔
        ∃ c ∈ w.annotations,
          Gains (u.bareScope (.persistence n)) (w.bareScope (.persistence n)) n c) := by
  have readable := (parseUnit_readable parsed).1
  obtain ⟨readable', grows, unchanged, settled'⟩ := settled_of_parseUnit (n := n) parsed
  refine ⟨grows.eq_of_known (known ▸ Option.some_ne_none _), ?_, ?_⟩
  · intro some_site
    by_contra none
    refine some_site (attemptAll_of_idle fun c hc => ?_).2.2
    obtain ⟨f, tail, fits, legible⟩ := readable.exists_place hc
    exact (settled c hc).idle_of_not_gains unknown known (Nat.le_refl _) fits legible
      fun gains => none ⟨c, hc, gains⟩
  · rintro ⟨c, hc, gains⟩ no_site
    -- the next run leaves the annotation, up to where its tokens stand, and has settled it
    have bare := readable'.bare_unique readable (unchanged no_site).symm
    obtain ⟨d, hd, core⟩ := List.mem_map.1
      (CompilationUnit.cores_congr bare ▸ List.mem_map_of_mem (f := Annotation.core) hc)
    obtain ⟨f, tail, fits, legible⟩ := readable.exists_place hc
    have catalog : (u.bareScope (.persistence n)).symbols.catalog = .persistence n := rfl
    exact ((settled' d hd).congr core.symm).not_gains known fits legible catalog gains

/-- **Running twice, after parsing** — in the file of the text that a run has written, nothing is to be
imported, and an annotation is replaced just if one has gained a meaning, which takes an import. -/
theorem makeLazy_again {run : SourceRun} (parsed : (parseUnit source file).toExcept = .ok u)
    (applies : (Recipe.ofNamespace n fold?).appliesTo u = true)
    (ran : (Recipe.ofNamespace n fold?).runSource source file = .ok run)
    (parsed' : (parseUnit run.output file).toExcept = .ok w) :
    let again := makeLazy (.persistence n) (.ofNamespace n) w
    again.plan.addedTypes = [] ∧ (run.importsAdded = [] → again.sites = []) ∧
      (again.sites ≠ [] ↔ ∃ c ∈ w.annotations,
        Gains (u.bareScope (.persistence n)) (w.bareScope (.persistence n)) n c) := by
  intro again
  obtain ⟨-, -, added, w', hw', visible, settled⟩ := exists_output parsed applies ran
  obtain rfl : w' = w := Except.ok.inj (hw'.symm.trans parsed')
  obtain ⟨-, grows, -, -⟩ := settled_of_parseUnit (n := n) parsed
  rcases grows with ends | ⟨unknown, ends⟩
  · -- nothing has been imported, so names mean what they have meant
    rw [ends, ImportPlan.applyTo_of_added_nil rfl] at visible
    have same : w'.visible = u.visible := visible.trans (visible_makeLazy ..).symm
    obtain ⟨plan, sites⟩ := makeLazy_idle settled ends same (parseUnit_readable parsed').1
    refine ⟨congrArg ImportPlan.addedTypes plan, fun _ => sites, iff_of_false (fun some => some sites) ?_⟩
    rintro ⟨c, -, gains⟩
    rw [CompilationUnit.bareScope, CompilationUnit.bareScope, CompilationUnit.symbols_congr same]
      at gains
    exact Gains.irrefl _ n c gains
  · rw [ends] at visible
    have known : (planScope n w' (.ofUnit w')).resolveSimple "FetchType" = some n.fetchType :=
      resolveSimple_fetchType_of_visible unknown (visible_makeLazy ..) visible
    obtain ⟨plan, sites⟩ := makeLazy_sites_iff_gains parsed' settled unknown known
    refine ⟨congrArg ImportPlan.addedTypes plan, fun none => ?_, sites⟩
    rw [added, ends, addedTypes_register unknown] at none
    cases none

/-- **Running twice** — a run over the text that a run has written succeeds and imports nothing. Without a
site, it leaves the text as it is, and it has none if the first run has imported nothing. And it has a site
just if the recipe applies to the text and an annotation of that has gained a meaning by what the first
run has imported. -/
theorem runSource_again {run : SourceRun}
    (ran : (Recipe.ofNamespace n fold?).runSource source file = .ok run) :
    ∃ again, (Recipe.ofNamespace n fold?).runSource run.output file = .ok again ∧
      again.importsAdded = [] ∧ (again.sites = [] → again.output = run.output) ∧
      (run.importsAdded = [] → again.sites = []) ∧
      (again.sites ≠ [] ↔ ∃ u w, (parseUnit source file).toExcept = .ok u ∧
        (parseUnit run.output file).toExcept = .ok w ∧
        (Recipe.ofNamespace n fold?).appliesTo w = true ∧
        ∃ c ∈ w.annotations,
          Gains (u.bareScope (.persistence n)) (w.bareScope (.persistence n)) n c) := by
  rcases runSource_cases ran with ⟨rfl, silent⟩ | ⟨u, parsed, applies⟩
  · refine ⟨{ output := source }, ran, rfl, fun _ => rfl, fun _ => rfl,
      iff_of_false (fun some => some rfl) ?_⟩
    rintro ⟨-, w, -, parsed', applies, -⟩
    rw [silent w parsed'] at applies
    cases applies
  · obtain ⟨-, -, -, w, parsed', -, -⟩ := exists_output parsed applies ran
    -- the gate may still keep the recipe from the new text
    cases applies' : (Recipe.ofNamespace n fold?).appliesTo w with
    | false =>
      refine ⟨_, runSource_of_not_appliesTo parsed' applies', rfl, fun _ => rfl, fun _ => rfl,
        iff_of_false (fun some => some rfl) ?_⟩
      rintro ⟨-, w', -, again, applies, -⟩
      obtain rfl : w' = w := Except.ok.inj (again.symm.trans parsed')
      cases applies'.symm.trans applies
    | true =>
      obtain ⟨added, idle, sites⟩ := makeLazy_again parsed applies ran parsed'
      refine ⟨_, runSource_of_appliesTo parsed' applies', added, fun none => ?_, idle, sites.trans ?_⟩
      · exact if_neg (by simp [show (makeLazy _ _ w).sites = [] from none, added])
      · constructor
        · exact fun gains => ⟨u, w, parsed, parsed', applies', gains⟩
        · rintro ⟨u', w', again, again', -, gains⟩
          obtain rfl : u' = u := Except.ok.inj (again.symm.trans parsed)
          obtain rfl : w' = w := Except.ok.inj (again'.symm.trans parsed')
          exact gains

/-- A text to which the first run adds an import. -/
theorem runSource_again_imported :
    let source := "import jakarta.persistence.OneToOne; class A \x7b @OneToOne B b; \x7d"
    ∃ run, (Recipe.ofNamespace .jakarta).runSource source = .ok run ∧
      run.importsAdded = ["jakarta.persistence.FetchType"] ∧
      ∃ again, (Recipe.ofNamespace .jakarta).runSource run.output = .ok again ∧
        again.importsAdded = [] ∧ (again.sites = [] → again.output = run.output) ∧
        (run.importsAdded = [] → again.sites = []) ∧
        (again.sites ≠ [] ↔ ∃ u w, (parseUnit source).toExcept = .ok u ∧
          (parseUnit run.output).toExcept = .ok w ∧
          (Recipe.ofNamespace .jakarta).appliesTo w = true ∧
          ∃ c ∈ w.annotations, Gains (u.bareScope (.persistence .jakarta))
            (w.bareScope (.persistence .jakarta)) .jakarta c) := by
  intro source
  have first : ((Recipe.ofNamespace .jakarta).runSource source).toOption.map SourceRun.importsAdded =
      some ["jakarta.persistence.FetchType"] := by decide +kernel
  obtain ⟨run, ran, added⟩ := exists_of_toOption_map first
  exact ⟨run, ran, added, runSource_again ran⟩

/-- **A second run can drop an argument** — the fetch modes are not imported in this text, so it is not
known what the argument says. In what the first run writes they are, and the second run drops it. -/
theorem runSource_not_idempotent :
    let source := "import jakarta.persistence.OneToOne;\n" ++
      "class A \x7b\n  @OneToOne(foo = FetchType.EAGER) B b;\n\x7d\n"
    ∃ run again, (Recipe.ofNamespace .jakarta).runSource source = .ok run ∧
      (Recipe.ofNamespace .jakarta).runSource run.output = .ok again ∧
      again.sites.map Site.before = ["@OneToOne(fetch = FetchType.LAZY, foo = FetchType.EAGER)"] ∧
      again.sites.map Site.after = ["@OneToOne(fetch = FetchType.LAZY)"] ∧
      again.output ≠ run.output := by
  intro source
  let written := "import jakarta.persistence.FetchType;\nimport jakarta.persistence.OneToOne;\n" ++
    "class A \x7b\n  @OneToOne(fetch = FetchType.LAZY, foo = FetchType.EAGER) B b;\n\x7d\n"
  let rewritten := "import jakarta.persistence.FetchType;\nimport jakarta.persistence.OneToOne;\n" ++
    "class A \x7b\n  @OneToOne(fetch = FetchType.LAZY) B b;\n\x7d\n"
  have first : ((Recipe.ofNamespace .jakarta).runSource source).toOption.map SourceRun.output =
      some written := by decide +kernel
  have second : ((Recipe.ofNamespace .jakarta).runSource written).toOption.map
      (fun again => (again.sites.map Site.before, again.sites.map Site.after, again.output)) =
      some (["@OneToOne(fetch = FetchType.LAZY, foo = FetchType.EAGER)"],
        ["@OneToOne(fetch = FetchType.LAZY)"], rewritten) := by decide +kernel
  obtain ⟨run, ran, output⟩ := exists_of_toOption_map first
  obtain ⟨again, ran', found⟩ := exists_of_toOption_map second
  obtain ⟨before, rest⟩ := Prod.mk.inj found
  obtain ⟨after, output'⟩ := Prod.mk.inj rest
  refine ⟨run, again, ran, output ▸ ran', before, after, ?_⟩
  rw [output, output']
  decide +kernel

/-- A second run can also come to an association that the first has not known, by an import that has been
folded. -/
example :
    ((Recipe.ofNamespace .jakarta (some 1)).runSource
        "import jakarta.persistence.OneToOne; class A \x7b @OneToOne B b; @ManyToOne C c; \x7d").toOption.bind
      (fun run => ((Recipe.ofNamespace .jakarta (some 1)).runSource run.output).toOption.map
        fun again => (run.sites.map Site.before, again.sites.map Site.before)) =
    some (["@OneToOne"], ["@ManyToOne"]) := by
  decide +kernel

end DeferFetch
