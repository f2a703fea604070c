/-
# DeferFetch.Proofs.Laziness.Settled — what a run leaves behind.

When a run is over, every annotation of the file is in one of three states (`Settled`): it declares no
association, or something kept it from being replaced and the run reports a failure, or it is a lazy
directive. None of that is undone by what the run replaces or plans later (`settled_of_parseUnit`),
and it depends on the annotation only up to where its tokens stand.
-/
import Mathlib.Data.List.DropRight
import DeferFetch.Proofs.Laziness.Attempts
import DeferFetch.Proofs.Imports.Readable

namespace DeferFetch

variable {n : Namespace} {u : CompilationUnit} {k : Association} {a c d : Annotation}

/-! ## Cores -/

theorem Annotation.arguments_core (a : Annotation) :
    a.core.arguments = a.arguments.map (Argument.mapTokens Token.bare) :=
  (arguments_mapTokens _).trans rfl

theorem Annotation.dotted_core (a : Annotation) : a.core.name.dotted = a.name.dotted := by
  rw [core, Annotation.name_mapTokens, QualifiedName.dotted_mapTokens Token.kind_bare]
  rfl

theorem associationOf?_core (s : Scope) (targets : Targets) (a : Annotation) :
    associationOf? s targets a.core = associationOf? s targets a := by
  rw [associationOf?, Scope.annotationType?, Annotation.dotted_core]
  rfl

/-- Which arguments are kept does not depend on where the tokens stand. -/
theorem keptArguments_mapTokens (s : Scope) (targets : Targets) (k : Association) (a : Annotation) :
    keptArguments s targets k (a.mapTokens Token.bare) =
      (keptArguments s targets k a).map (Argument.mapTokens Token.bare) := by
  rw [keptArguments, preservedArguments, Annotation.arguments_mapTokens, List.filter_map]
  congr 2
  funext argument
  exact congrArg not (isFetchArgument_mapTokens Token.kind_bare s targets _ argument)

theorem keptArguments_core (s : Scope) (targets : Targets) (k : Association) (a : Annotation) :
    keptArguments s targets k a.core =
      (keptArguments s targets k a).map (Argument.mapTokens Token.bare) :=
  (keptArguments_mapTokens s targets k _).trans rfl

theorem makeable_core {scope staged : Scope} :
    Makeable scope staged n k a.core ↔ Makeable scope staged n k a := by
  have names : (∀ b ∈ keptArguments scope (.ofNamespace n) k a.core, b.label.isSome) ↔
      ∀ b ∈ keptArguments scope (.ofNamespace n) k a, b.label.isSome := by
    rw [keptArguments_core]
    simp [Argument.mapTokens, mapLabel]
  exact ⟨fun h => ⟨names.1 h.names, h.resolved⟩, fun h => ⟨names.2 h.names, h.resolved⟩⟩

/-! ## Arguments that are kept -/

/-- The token after one blank instead of the white space that begins what stands before it. -/
def Token.afterBlank (t : Token) : Token := .synthetic t.kind (" " ++ t.trimmed.leadingText)

/-- The argument, which has a name, after one blank. -/
def Argument.afterBlank (p : Argument) : Argument :=
  ⟨p.label.map fun (name, equals) => (name.afterBlank, equals), p.value⟩

theorem Token.afterBlank_afterBlank (t : Token) : t.afterBlank.afterBlank = t.afterBlank := by
  have blank : Text.isBlank ' ' = true := by decide
  have again : (t.leadingText.toList.dropWhile Text.isBlank).dropWhile Text.isBlank =
      t.leadingText.toList.dropWhile Text.isBlank := List.dropWhile_idempotent ..
  simp [afterBlank, trimmed, blank, again]

theorem Argument.afterBlank_afterBlank (p : Argument) : p.afterBlank.afterBlank = p.afterBlank := by
  obtain ⟨_ | ⟨name, equals⟩, value⟩ := p
  · rfl
  · simp only [afterBlank, Option.map_some, name.afterBlank_afterBlank]

theorem Argument.mapTokens_stripped_afterBlank (p : Argument) :
    p.afterBlank.mapTokens Token.stripped = p.mapTokens Token.stripped := by
  obtain ⟨_ | ⟨name, equals⟩, value⟩ := p
  · rfl
  · rfl

/-- Arguments with names stand after a blank if their names do. -/
theorem respaced_afterBlank {arguments : List Argument} (names : ∀ p ∈ arguments, p.label.isSome) :
    Respaced arguments (arguments.map Argument.afterBlank) where
  tokens := by
    rw [List.map_map]
    refine List.map_congr_left fun p hp => ?_
    obtain ⟨_ | ⟨name, equals⟩, value⟩ := p
    · cases names _ hp
    · rfl
  shape := by
    rw [List.map_map]
    exact List.map_congr_left fun p _ => p.mapTokens_stripped_afterBlank

theorem isFetchArgument_afterBlank (s : Scope) (targets : Targets) (target : Option String)
    (p : Argument) : isFetchArgument s targets target p.afterBlank = isFetchArgument s targets target p := by
  rw [← isFetchArgument_mapTokens Token.kind_stripped, p.mapTokens_stripped_afterBlank,
    isFetchArgument_mapTokens Token.kind_stripped]

/-- What stands before an argument is not within it. -/
theorem listAnnotations_afterBlank (arguments : List Argument) :
    Argument.listAnnotations (arguments.map Argument.afterBlank) =
      Argument.listAnnotations arguments := by
  induction arguments with
  | nil => rfl
  | cons p arguments ih =>
    obtain ⟨label, value⟩ := p
    simp only [List.map_cons, Argument.afterBlank, Argument.listAnnotations, ih]

/-! ## What is left of an annotation -/

/-- **`IsDirective scope n k others c`** — up to where its tokens stand, the annotation is a lazy directive
as it is written in the scope: after the lazy fetch come `others`, which have names, stand after blanks
and do not say how to fetch. -/
structure IsDirective (scope : Scope) (n : Namespace) (k : Association) (others : List Argument)
    (c : Annotation) : Prop where
  core : c.core = (directiveTree "" c.name.dotted (fetchReference scope (.ofNamespace n)).text
    others).mapTokens Token.bare
  names : ∀ o ∈ others, o.label.isSome
  plain : ∀ o ∈ others,
    isFetchArgument scope (.ofNamespace n) (some (k.target (.ofNamespace n))) o = false
  blanks : ∀ o ∈ others, o.afterBlank = o

theorem IsDirective.congr {scope : Scope} {others : List Argument} (h : IsDirective scope n k others c)
    (same : d.core = c.core) : IsDirective scope n k others d := by
  have name : d.name.dotted = c.name.dotted := by
    rw [← d.dotted_core, same, c.dotted_core]
  exact { h with core := by rw [same, name, h.core] }

/-- **`Settled n u s c`** — the run over the file `u` that has come to the state `s` is done with the
annotation `c`. It was attempted with some plan before, and then it was foreign, or it was kept and
that was reported, or it has become a lazy directive. -/
inductive Settled (n : Namespace) (u : CompilationUnit) (s : WalkState) (c : Annotation) : Prop
  | foreign (plan : ImportPlan) (planned : (ImportPlan.ofUnit u).Grows n u plan)
    (grows : plan.Grows n u s.plan)
    (unmatched : associationOf? (planScope n u plan) (.ofNamespace n) c = none)
  | kept (plan : ImportPlan) (k : Association) (planned : (ImportPlan.ofUnit u).Grows n u plan)
    (grows : plan.Grows n u s.plan) (failing : s.failures ≠ [])
    (matched : associationOf? (planScope n u plan) (.ofNamespace n) c = some k)
    (stuck : ¬ Makeable (planScope n u plan) (stagedScope n u plan) n k c)
  | lazy (plan : ImportPlan) (k : Association) (others : List Argument)
    (planned : (ImportPlan.ofUnit u).Grows n u plan)
    (grows : (stagedPlan (.ofUnit u (.persistence n)) (.ofNamespace n) plan).Grows n u s.plan)
    (matched : associationOf? (planScope n u plan) (.ofNamespace n) c = some k)
    (directive : IsDirective (planScope n u plan) n k others c)
    (resolved : (stagedScope n u plan).resolve
      (fetchReference (planScope n u plan) (.ofNamespace n)).text = some n.fetchType)

/-- Being settled depends on the annotation only up to where its tokens stand. -/
theorem Settled.congr {s : WalkState} (h : Settled n u s c) (same : d.core = c.core) :
    Settled n u s d := by
  have association (plan : ImportPlan) : associationOf? (planScope n u plan) (.ofNamespace n) d =
      associationOf? (planScope n u plan) (.ofNamespace n) c := by
    rw [← associationOf?_core, same, associationOf?_core]
  cases h with
  | foreign plan planned grows unmatched =>
    exact .foreign plan planned grows ((association plan).trans unmatched)
  | kept plan k planned grows failing matched stuck =>
    refine .kept plan k planned grows failing ((association plan).trans matched) fun makeable => ?_
    exact stuck (makeable_core.1 (same ▸ makeable_core.2 makeable))
  | lazy plan k others planned grows matched directive resolved =>
    exact .lazy plan k others planned grows ((association plan).trans matched) (directive.congr same)
      resolved

/-- Being settled is not undone by what happens later. -/
theorem Settled.later {s t : WalkState} (h : Settled n u s c) (grows : s.plan.Grows n u t.plan)
    (failing : s.failures ≠ [] → t.failures ≠ []) : Settled n u t c := by
  cases h with
  | foreign plan planned before unmatched =>
    exact .foreign plan planned (before.trans (planned.reached (.start n u)) grows) unmatched
  | kept plan k planned before failed matched stuck =>
    exact .kept plan k planned (before.trans (planned.reached (.start n u)) grows) (failing failed)
      matched stuck
  | lazy plan k others planned before matched directive resolved =>
    have reached := planned.reached (.start n u)
    exact .lazy plan k others planned (before.trans (reached_staged reached) grows) matched directive
      resolved

/-! ## Directives -/

/-- What is meant to replace an annotation is a lazy directive. -/
theorem Renewed.isDirective {scope : Scope} (h : Renewed scope n k a c) :
    IsDirective scope n k ((keptArguments scope (.ofNamespace n) k a).map Argument.afterBlank) c := by
  have tree := h.2 _ (respaced_afterBlank h.1)
  have name : c.name.dotted = a.name.dotted := (parts_of_directiveTree tree).1
  refine ⟨?_, List.forall_mem_map.2 fun p hp => ?_, List.forall_mem_map.2 fun p hp => ?_,
    List.forall_mem_map.2 fun p hp => ?_⟩
  · rw [name]
    exact Annotation.core_congr tree
  · simpa [Argument.afterBlank] using h.1 p hp
  · rw [isFetchArgument_afterBlank]
    simpa using (List.mem_filter.1 hp).2
  · exact p.afterBlank_afterBlank

/-- **An annotation that would be replaced by the same text** is what it would be replaced by. -/
theorem Annotation.bare_unique {m : Nat} {f : List TokenKind} {tail : List Char} (ha : a.Fits m f)
    (hc : c.Fits m f) (legible : Legible a.tokens tail) (legible' : Legible c.tokens tail)
    (same : a.source = c.source) : c.mapTokens Token.bare = a.mapTokens Token.bare := by
  have text : spelling c.tokens = spelling a.tokens := by
    rw [← toList_print, ← toList_print]
    exact congrArg String.toList same.symm
  obtain ⟨d, tokens, shape⟩ := a.exists_relabel (legible'.bare_unique legible text)
  -- of the annotations with these tokens, one fits before the same kinds
  let rest : List Token := f.map (.synthetic ·)
  have hrest : kinds rest = f := by simp [rest, kinds, Function.comp_def]
  have fits : d.Fits m (kinds rest) := by
    rw [hrest, ← Annotation.fits_mapTokens Token.kind_bare, shape,
      Annotation.fits_mapTokens Token.kind_bare]
    exact ha
  have whole : d.tokens ++ rest = c.tokens ++ rest := by rw [tokens]
  obtain ⟨rfl, -⟩ := (Grammar.ofBudget_exact m).annot.reads.unique fits (hrest ▸ hc) whole
  exact shape

/-! ## One attempt -/

theorem Annotation.inner_annotations (a : Annotation) :
    a.inner.annotations = Argument.listAnnotations a.arguments := by
  obtain ⟨sigil, name, _ | ⟨opening, arguments, commas, closing⟩⟩ := a
  · simp only [inner, arguments, Argument.listAnnotations, Part.annotations_plain, Option.map_none,
      Option.getD_none]
  · rfl

theorem Annotation.annotations_eq (a : Annotation) : a.annotations = a.inner.annotations ++ [a] := by
  obtain ⟨sigil, name, _ | ⟨opening, arguments, commas, closing⟩⟩ := a
  · simp only [inner, Annotation.annotations, Part.annotations_plain, List.nil_append]
  · simp only [inner, Annotation.annotations, Argument.listPart]

theorem Annotation.forall_mem_annotations {P : Annotation → Prop} :
    (∀ c ∈ a.annotations, P c) ↔ (∀ c ∈ a.inner.annotations, P c) ∧ P a := by
  rw [annotations_eq, List.forall_mem_append, List.forall_mem_singleton]

theorem Argument.mem_listAnnotations {arguments : List Argument} :
    c ∈ Argument.listAnnotations arguments ↔ ∃ p ∈ arguments, c ∈ p.value.annotations := by
  induction arguments with
  | nil => simp [Argument.listAnnotations]
  | cons p arguments ih =>
    obtain ⟨label, value⟩ := p
    simp [Argument.listAnnotations, ih]

/-- Within a directive are the annotations of the arguments that follow the lazy fetch. -/
theorem listAnnotations_lazyArgument (fetchType : String) (others : List Argument) :
    Argument.listAnnotations (lazyArgument fetchType :: others) =
      Argument.listAnnotations others := by
  have tokens (ts : List Token) : TokenTree.listAnnotations (ts.map .token) = [] := by
    induction ts with
    | nil => rfl
    | cons t ts ih =>
      rw [List.map_cons, TokenTree.listAnnotations, ih, TokenTree.annotations, List.append_nil]
  rw [lazyArgument, Argument.listAnnotations, ElementValue.annotations, tokens, List.nil_append]

/-- **Nothing new is within a replacement** — up to where their tokens stand, the annotations in its
arguments were in those of the old one. -/
theorem Renewed.inner_cores {scope : Scope} (h : Renewed scope n k a c) :
    ∀ x ∈ c.inner.annotations, ∃ y ∈ a.inner.annotations, x.core = y.core := by
  intro x hx
  have arguments := (parts_of_directiveTree (h.2 _ (respaced_afterBlank h.1))).2
  have annotations := congrArg Argument.listAnnotations arguments
  rw [Argument.listAnnotations_mapTokens, Argument.listAnnotations_mapTokens,
    listAnnotations_lazyArgument, listAnnotations_afterBlank] at annotations
  rw [c.inner_annotations] at hx
  obtain ⟨y, hy, same⟩ := List.mem_map.1
    (annotations ▸ List.mem_map_of_mem (f := Annotation.mapTokens Token.bare) hx)
  obtain ⟨p, hp, hy⟩ := Argument.mem_listAnnotations.1 hy
  refine ⟨y, ?_, Annotation.core_congr same.symm⟩
  rw [a.inner_annotations]
  exact Argument.mem_listAnnotations.2 ⟨p, (List.mem_filter.1 hp).1, hy⟩

section Attempt

variable {s : WalkState} {outcome : Attempt}

/-- **After an attempt** — the annotation is settled. -/
theorem Attempted.settled {m : Nat} {f : List TokenKind} {tail : List Char}
    (attempted : Attempted (.ofUnit u (.persistence n)) (.ofNamespace n) s.plan a outcome)
    (planned : (ImportPlan.ofUnit u).Grows n u s.plan) (hm : m ≤ maxNesting) (fits : a.Fits m f)
    (legible : Legible a.tokens tail) :
    Settled n u (outcome.result a s).2 (outcome.result a s).1 := by
  have reached := planned.reached (.start n u)
  -- what a synthesis gives is a directive in the scope of the attempt
  have renewed {k : Association} {r : Synthesis}
      (h : synthesizeFor (.ofUnit u (.persistence n)) (.ofNamespace n) s.plan k a = .ok r) :
      Renewed (planScope n u s.plan) n k a r.replacement ∧
        (stagedScope n u s.plan).resolve
          (fetchReference (planScope n u s.plan) (.ofNamespace n)).text = some n.fetchType ∧
        r.plan = stagedPlan (.ofUnit u (.persistence n)) (.ofNamespace n) s.plan := by
    obtain ⟨b, -, -, rfl⟩ := synthesizeFor_eq_ok.1 h
    exact ⟨renewed_of_synthesizeFor hm fits legible h,
      (makeable_of_synthesizeFor hm fits legible h).resolved, rfl⟩
  cases attempted with
  | notApplicable unmatched => exact .foreign s.plan planned (.refl n u s.plan) unmatched
  | failed matched h =>
    refine .kept s.plan _ planned (.refl n u s.plan) ?_ matched fun makeable => ?_
    · simp [Attempt.result]
    · obtain ⟨r, ok⟩ := makeable.exists_synthesizeFor reached matched hm fits legible
      cases h.symm.trans ok
  | alreadyLazy matched h same =>
    obtain ⟨meant, resolved, plan⟩ := renewed h
    obtain ⟨fits', legible'⟩ := meant.keeps fits legible
    have bare := Annotation.bare_unique fits fits' legible legible' same
    exact .lazy s.plan _ _ planned (plan ▸ .refl n u _) matched
      (meant.isDirective.congr <| Annotation.core_congr bare.symm) resolved
  | replaced matched h _ =>
    obtain ⟨meant, resolved, plan⟩ := renewed h
    have name := (parts_of_directiveTree (meant.2 _ (respaced_afterBlank meant.1))).1
    refine .lazy s.plan _ _ planned (plan ▸ .refl n u _) ?_ meant.isDirective resolved
    rw [← matched, associationOf?, associationOf?, Scope.annotationType?, Scope.annotationType?]
    exact congrArg (fun name => (Scope.resolve _ name).bind _) name

/-- The import that the name of the fetch modes needs is one by which a plan can grow. -/
theorem grows_staged (n : Namespace) (u : CompilationUnit) (p : ImportPlan) :
    p.Grows n u (stagedPlan (.ofUnit u (.persistence n)) (.ofNamespace n) p) := by
  unfold stagedPlan fetchReference
  simp only [show (Targets.ofNamespace n).fetchType = n.fetchType from rfl, n.simpleNameOf_fetchType]
  split
  · rename_i unknown
    exact .inr ⟨unknown, rfl⟩
  · split
    · exact .refl n u p
    · exact .refl n u p

/-- With that import, the simple name of the fetch modes means something. -/
theorem known_staged {p : ImportPlan} (reached : p.Reached n u) :
    (stagedScope n u p).resolveSimple "FetchType" ≠ none := by
  unfold stagedScope stagedPlan fetchReference
  simp only [show (Targets.ofNamespace n).fetchType = n.fetchType from rfl, n.simpleNameOf_fetchType]
  split
  · rename_i unknown
    rw [if_pos rfl, resolveSimple_register reached unknown]
    exact Option.some_ne_none _
  · rename_i name known
    have meant : (planScope n u p).resolveSimple "FetchType" ≠ none := by
      rw [show (planScope n u p).resolveSimple "FetchType" = some name from known]
      exact Option.some_ne_none _
    split
    · exact meant
    · exact meant

/-- **`Advances n u s p q t`** — between the states, a part `p` of the file has become `q`: imports may
have been planned, sites and failures may have been added, without a new site the text is the same, and
the annotations in `q` are settled. -/
structure Advances (n : Namespace) (u : CompilationUnit) (s : WalkState) (p q : Part) (t : WalkState) :
    Prop where
  grows : s.plan.Grows n u t.plan
  failures : s.failures.length ≤ t.failures.length
  sites : s.sites.length ≤ t.sites.length
  same : t.sites.length = s.sites.length → q.tokens = p.tokens
  settled : ∀ c ∈ q.annotations, Settled n u t c

/-- **What an attempt does to the state.** -/
theorem Attempted.advances
    (attempted : Attempted (.ofUnit u (.persistence n)) (.ofNamespace n) s.plan a outcome) :
    s.plan.Grows n u (outcome.result a s).2.plan ∧
      s.failures.length ≤ (outcome.result a s).2.failures.length ∧
      s.sites.length ≤ (outcome.result a s).2.sites.length ∧
      ((outcome.result a s).2.sites.length = s.sites.length → (outcome.result a s).1 = a) := by
  have staged {k : Association} {r : Synthesis}
      (h : synthesizeFor (.ofUnit u (.persistence n)) (.ofNamespace n) s.plan k a = .ok r) :
      s.plan.Grows n u r.plan := by
    obtain ⟨b, -, -, rfl⟩ := synthesizeFor_eq_ok.1 h
    exact grows_staged n u s.plan
  cases attempted with
  | notApplicable => exact ⟨.refl n u s.plan, Nat.le_refl _, Nat.le_refl _, fun _ => rfl⟩
  | failed => exact ⟨.refl n u s.plan, by simp [Attempt.result], Nat.le_refl _, fun _ => rfl⟩
  | alreadyLazy _ h _ => exact ⟨staged h, Nat.le_refl _, Nat.le_refl _, fun _ => rfl⟩
  | replaced _ h _ =>
    refine ⟨staged h, Nat.le_refl _, by simp [Attempt.result], fun same => ?_⟩
    simp [Attempt.result] at same

/-- **Within what an attempt gives** — up to where their tokens stand, there are only annotations that
were within what it was given. -/
theorem Attempted.inner_cores {m : Nat} {f : List TokenKind} {tail : List Char}
    (attempted : Attempted (.ofUnit u (.persistence n)) (.ofNamespace n) s.plan a outcome)
    (hm : m ≤ maxNesting) (fits : a.Fits m f) (legible : Legible a.tokens tail) :
    ∀ x ∈ (outcome.result a s).1.inner.annotations, ∃ y ∈ a.inner.annotations, x.core = y.core := by
  cases attempted with
  | notApplicable => exact fun x hx => ⟨x, hx, rfl⟩
  | failed => exact fun x hx => ⟨x, hx, rfl⟩
  | alreadyLazy => exact fun x hx => ⟨x, hx, rfl⟩
  | replaced _ h _ => exact (renewed_of_synthesizeFor hm fits legible h).inner_cores

end Attempt

/-! ## A whole run -/

/-- From states with a plan of the file, every part becomes one that is settled. -/
def Settles (n : Namespace) (u : CompilationUnit) (s : WalkState) (p q : Part) (t : WalkState) : Prop :=
  (ImportPlan.ofUnit u).Grows n u s.plan → Advances n u s p q t

/-- What is settled before a part of the file is walked over is settled afterwards. -/
theorem Settled.after {s t : WalkState} {p q : Part} (h : Settled n u s c) (later : Advances n u s p q t) :
    Settled n u t c := by
  refine h.later later.grows fun failing => ?_
  rw [← List.length_pos_iff] at failing ⊢
  exact Nat.lt_of_lt_of_le failing later.failures

theorem settles_composes : Composes (Settles n u) where
  plain s _ := fun _ => ⟨.refl n u s.plan, Nat.le_refl _, Nat.le_refl _, fun _ => rfl, nofun⟩
  append h h' := fun planned => by
    have reached := planned.reached (.start n u)
    have first := h planned
    have second := h' (planned.trans (.start n u) first.grows)
    refine ⟨first.grows.trans reached second.grows, Nat.le_trans first.failures second.failures,
      Nat.le_trans first.sites second.sites, fun same => ?_, ?_⟩
    · -- no site is new, so none is in either part
      have sites := first.sites
      have sites' := second.sites
      rw [Part.tokens_append, Part.tokens_append, first.same (by omega), second.same (by omega)]
    · exact List.forall_mem_append.2 ⟨fun c hc => (first.settled c hc).after second, second.settled⟩

/-- An annotation with other arguments has the same tokens if they have. -/
theorem Annotation.tokens_withArguments {arguments : List Argument}
    (same : (a.withArguments arguments).inner.tokens = a.inner.tokens) :
    (a.withArguments arguments).tokens = a.tokens := by
  obtain ⟨sigil, name, _ | ⟨opening, others, commas, closing⟩⟩ := a
  · rfl
  · have same : Argument.listTokens arguments commas = Argument.listTokens others commas := same
    simp only [withArguments, Option.map_some, Annotation.tokens, same]

/-- **Runs settle annotations** — step by step. -/
theorem visits_settles (n : Namespace) (u : CompilationUnit) :
    Visits maxNesting (Settles n u)
      (visit (attempt (.ofUnit u (.persistence n)) (.ofNamespace n))) where
  toComposes := settles_composes
  keeps {_ _ _ a} s hm fits legible := by
    rw [run_visit]
    exact (attempt_cases _ _ s.plan a).keeps s hm fits legible
  leading a s := by
    rw [run_visit]
    exact (attempt_cases _ _ s.plan a).leading s
  step {m f tail a arguments s t} hm fits legible inner planned := by
    have before := inner planned
    have mid := planned.trans (.start n u) before.grows
    rw [run_visit]
    have attempted := attempt_cases (.ofUnit u (.persistence n)) (.ofNamespace n) t.plan
      (a.withArguments arguments)
    obtain ⟨grows, failures, sites, same⟩ := attempted.advances
    refine ⟨before.grows.trans (planned.reached (.start n u)) grows, Nat.le_trans before.failures failures,
      Nat.le_trans before.sites sites, fun total => ?_, ?_⟩
    · -- no site is new, so neither the arguments nor the annotation have been replaced
      have sites' := before.sites
      rw [same (by omega)]
      exact Annotation.tokens_withArguments (before.same (by omega))
    · refine Annotation.forall_mem_annotations.2 ⟨fun x hx => ?_, ?_⟩
      · obtain ⟨y, hy, core⟩ := attempted.inner_cores hm fits legible x hx
        refine ((before.settled y hy).congr core).later grows fun failing => ?_
        rw [← List.length_pos_iff] at failing ⊢
        exact Nat.lt_of_lt_of_le failing failures
      · exact attempted.settled mid hm fits legible

/-- **What a run leaves behind** — all the annotations of the file are settled, and if no site was
changed, the text of the file is the same. -/
theorem settled_of_parseUnit {source : String} {file : Option String}
    (parsed : (parseUnit source file).toExcept = .ok u) :
    let outcome := makeLazy (.persistence n) (.ofNamespace n) u
    outcome.unit.Readable ∧ (ImportPlan.ofUnit u).Grows n u outcome.plan ∧
      (outcome.sites = [] → outcome.unit.tokens = u.tokens) ∧
      ∀ c ∈ outcome.unit.annotations,
        Settled n u ⟨outcome.plan, outcome.sites, outcome.failures⟩ c := by
  obtain ⟨readable, settles⟩ := CompilationUnit.walked (visits_settles n u)
    (parseUnit_readable parsed).1 { plan := .ofUnit u }
  have run := settles (.refl n u _)
  refine ⟨readable, run.grows, fun none => run.same ?_, run.settled⟩
  exact congrArg List.length none

end DeferFetch
