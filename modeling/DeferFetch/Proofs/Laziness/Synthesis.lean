/-
# DeferFetch.Proofs.Laziness.Synthesis — when an annotation can be replaced.

What an attempt makes of an annotation is a directive, and what the directive is parsed as is known.
So a synthesis that gives a replacement gives the one that was meant, whatever the catalog; and with
the default catalog it gives one just if every argument that is kept has a name.
-/
import DeferFetch.Proofs.Laziness.Replacement
import DeferFetch.Proofs.Naming.Growth
import DeferFetch.Proofs.Laziness.Gate
import DeferFetch.Laziness.Sites

namespace DeferFetch

/-! ## What an attempt synthesizes -/

/-- **`keptArguments scope targets k a`** — the arguments that are kept of an annotation for the
association `k`. -/
def keptArguments (scope : Scope) (targets : Targets) (k : Association) (a : Annotation) :
    List Argument :=
  preservedArguments scope targets (some (k.target targets)) a

/-- The directive for an annotation. -/
def directiveFor (scope : Scope) (targets : Targets) (k : Association) (a : Annotation) : Directive :=
  ⟨a.name.dotted, (newArguments scope targets (some (k.target targets)) a).map
    (NewArgument.render (fetchReference scope targets).text)⟩

/-- **`synthesizeFor symbols targets plan k a`** — the synthesis that is attempted for an annotation
that declares the association `k`, given the imports planned so far. -/
def synthesizeFor (symbols : SymbolTable) (targets : Targets) (plan : ImportPlan) (k : Association)
    (a : Annotation) : Except Failure Synthesis :=
  let scope : Scope := ⟨symbols, plan.added⟩
  synthesize symbols targets (directiveFor scope targets k a) a (some k)
    (fetchReference scope targets) plan

/-- **`AsksFor symbols targets plan a directive expected fetch`** — with these imports planned, an attempt
on `a` asks for this synthesis. -/
def AsksFor (symbols : SymbolTable) (targets : Targets) (plan : ImportPlan) (a : Annotation)
    (directive : Directive) (expected : Option Association) (fetch : FetchReference) : Prop :=
  let scope : Scope := ⟨symbols, plan.added⟩
  ∃ k, associationOf? scope targets a = some k ∧ directive = directiveFor scope targets k a ∧
    expected = some k ∧ fetch = fetchReference scope targets

/-- **`synthesisFailure? symbols targets plan a`** — why there is no replacement for an annotation, if it
declares an association and the synthesis for it fails. -/
def synthesisFailure? (symbols : SymbolTable) (targets : Targets) (plan : ImportPlan) (a : Annotation) :
    Option Failure :=
  match associationOf? ⟨symbols, plan.added⟩ targets a with
  | none => none
  | some k =>
    match synthesizeFor symbols targets plan k a with
    | .error failure => some failure
    | .ok _ => none

variable {symbols : SymbolTable} {targets : Targets} {plan : ImportPlan} {k : Association}
  {a b : Annotation}

/-- **`Attempted symbols targets plan a attempt`** — what an attempt on `a` can come to, and when. -/
inductive Attempted (symbols : SymbolTable) (targets : Targets) (plan : ImportPlan) (a : Annotation) :
    Attempt → Prop
  | notApplicable (h : associationOf? ⟨symbols, plan.added⟩ targets a = none) :
    Attempted symbols targets plan a .notApplicable
  | failed {k : Association} {failure : Failure}
    (matched : associationOf? ⟨symbols, plan.added⟩ targets a = some k)
    (h : synthesizeFor symbols targets plan k a = .error failure) :
    Attempted symbols targets plan a (.failed failure)
  | alreadyLazy {k : Association} {r : Synthesis}
    (matched : associationOf? ⟨symbols, plan.added⟩ targets a = some k)
    (h : synthesizeFor symbols targets plan k a = .ok r) (same : a.source = r.replacement.source) :
    Attempted symbols targets plan a (.alreadyLazy r.plan)
  | replaced {k : Association} {r : Synthesis}
    (matched : associationOf? ⟨symbols, plan.added⟩ targets a = some k)
    (h : synthesizeFor symbols targets plan k a = .ok r) (changed : a.source ≠ r.replacement.source) :
    Attempted symbols targets plan a (.replaced
      ⟨k, a.span, Text.trim a.source, Text.trim r.replacement.source⟩ r.replacement r.plan)

/-- An attempt looks for the association, synthesizes, and compares the texts. -/
theorem attempt_eq (symbols : SymbolTable) (targets : Targets) (plan : ImportPlan) (a : Annotation) :
    attempt symbols targets plan a =
      match associationOf? ⟨symbols, plan.added⟩ targets a with
      | none => .notApplicable
      | some k =>
        match synthesizeFor symbols targets plan k a with
        | .error failure => .failed failure
        | .ok ⟨b, plan⟩ =>
          if a.source = b.source then .alreadyLazy plan
          else .replaced ⟨k, a.span, Text.trim a.source, Text.trim b.source⟩ b plan := rfl

/-- **What an attempt comes to.** -/
theorem attempt_cases (symbols : SymbolTable) (targets : Targets) (plan : ImportPlan) (a : Annotation) :
    Attempted symbols targets plan a (attempt symbols targets plan a) := by
  rw [attempt_eq]
  cases matched : associationOf? ⟨symbols, plan.added⟩ targets a with
  | none => exact Attempted.notApplicable matched
  | some k =>
    cases h : synthesizeFor symbols targets plan k a with
    | error failure =>
      simp only [h]
      exact Attempted.failed matched h
    | ok r =>
      obtain ⟨b, plan'⟩ := r
      simp only [h]
      by_cases same : a.source = b.source
      · rw [if_pos same]
        exact Attempted.alreadyLazy (r := ⟨b, plan'⟩) matched h same
      · rw [if_neg same]
        exact Attempted.replaced (r := ⟨b, plan'⟩) matched h same

/-- An attempt fails just if the synthesis does. -/
theorem attempt_eq_failed {failure : Failure} :
    attempt symbols targets plan a = .failed failure ↔
      synthesisFailure? symbols targets plan a = some failure := by
  rw [attempt_eq, synthesisFailure?]
  cases matched : associationOf? ⟨symbols, plan.added⟩ targets a with
  | none => simp
  | some k =>
    cases h : synthesizeFor symbols targets plan k a with
    | error e => simp [h]
    | ok r =>
      simp only [h, reduceCtorEq, iff_false]
      split <;> exact nofun

/-- If an attempt asks for a synthesis that fails, it fails in the same way. -/
theorem AsksFor.attempt_eq {directive : Directive} {expected : Option Association} {fetch : FetchReference}
    {failure : Failure} (asks : AsksFor symbols targets plan a directive expected fetch)
    (h : synthesize symbols targets directive a expected fetch plan = .error failure) :
    attempt symbols targets plan a = .failed failure := by
  obtain ⟨k, matched, rfl, rfl, rfl⟩ := asks
  have failed : synthesizeFor symbols targets plan k a = .error failure := h
  rw [attempt_eq_failed, synthesisFailure?, matched]
  simp only [failed]

/-- The text of the directive keeps the arguments. -/
theorem render_directiveFor (scope : Scope) (targets : Targets) (k : Association) (a : Annotation) :
    (directiveFor scope targets k a).render =
      renderKept a.name.dotted (fetchReference scope targets).text (keptArguments scope targets k a) := by
  simp [directiveFor, newArguments, renderKept, keptArguments, NewArgument.render, Function.comp_def]

/-- The plan with the import that the name of the fetch modes needs. -/
def stagedPlan (symbols : SymbolTable) (targets : Targets) (plan : ImportPlan) : ImportPlan :=
  if (fetchReference ⟨symbols, plan.added⟩ targets).needsImport then plan.register targets.fetchType
  else plan

/-- A replacement is accepted if it is of the expected type and begins with a lazy fetch. -/
theorem checkReplacement_eq_ok {scope : Scope} {u : Unit} :
    checkReplacement scope targets (some k) b = .ok u ↔
      scope.annotationType? b = some (k.target targets) ∧
        b.arguments.head?.any (isLazyFetch scope targets) = true := by
  unfold checkReplacement
  simp only [Option.map_some]
  split
  · rename_i h
    simp [h]
  · rename_i h
    rw [ne_eq, Decidable.not_not] at h
    split
    · rename_i h'
      simp only [Bool.not_eq_true'] at h'
      simp [h']
    · rename_i h'
      simp only [Bool.not_eq_true', Bool.not_eq_false] at h'
      simp [h, h']

/-- What any synthesis gives is parsed and accepted. -/
theorem synthesize_eq_ok {directive : Directive} {expected : Option Association}
    {fetch : FetchReference} {r : Synthesis} :
    synthesize symbols targets directive a expected fetch plan = .ok r ↔
      ∃ b, (directive.render |> parseAnnotation).toExcept = .ok b ∧
        checkReplacement ⟨symbols,
          (if fetch.needsImport then plan.register targets.fetchType else plan).added⟩
          targets expected b = .ok () ∧
        r = ⟨inPlaceOf a b,
          if fetch.needsImport then plan.register targets.fetchType else plan⟩ := by
  simp only [synthesize]
  split
  · rename_i h
    simp [h]
  · rename_i b h
    split
    · rename_i e he
      simp [h, he]
    · rename_i he
      simp only [h, Except.ok.injEq, exists_eq_left', he, true_and]
      exact eq_comm

/-- What the synthesis of an attempt gives is parsed and accepted. -/
theorem synthesizeFor_eq_ok {r : Synthesis} : synthesizeFor symbols targets plan k a = .ok r ↔
    ∃ b, (renderKept a.name.dotted (fetchReference ⟨symbols, plan.added⟩ targets).text
          (keptArguments ⟨symbols, plan.added⟩ targets k a) |> parseAnnotation).toExcept = .ok b ∧
      checkReplacement ⟨symbols, (stagedPlan symbols targets plan).added⟩ targets (some k) b = .ok () ∧
      r = ⟨inPlaceOf a b, stagedPlan symbols targets plan⟩ := by
  rw [synthesizeFor, synthesize_eq_ok, render_directiveFor]
  rfl

/-! ## The parts of the directive -/

/-- The identifiers of an annotation's name are identifiers of the source. -/
theorem Annotation.Fits.isName {n : Nat} {f : List TokenKind} {tail : List Char} (fits : a.Fits n f)
    (legible : Legible a.tokens tail) : IsName a.name.dotted := by
  have name : ∃ g, a.name.Fits g := by
    obtain ⟨sigil, name, _ | ⟨opening, arguments, commas, closing⟩⟩ := a
    · exact ⟨_, fits.2.2.1⟩
    · exact ⟨_, fits.2.2.1⟩
  have mem : ∀ t ∈ a.name.tokens, t ∈ a.tokens := by
    obtain ⟨sigil, name, _ | ⟨opening, arguments, commas, closing⟩⟩ := a
    · exact fun t ht => List.mem_cons_of_mem _ ht
    · exact fun t ht => List.mem_cons_of_mem _ (List.mem_append_left _ ht)
  obtain ⟨g, name⟩ := name
  have identifiers : ∀ x ∈ a.name.identifiers.map Token.text, IsIdentifier x := by
    intro x hx
    obtain ⟨t, ht, rfl⟩ := List.mem_map.1 hx
    obtain ⟨htokens, hkind⟩ := name.identifiers t ht
    exact legible.isIdentifier t (mem t htokens) _ hkind
  rw [IsName, QualifiedName.dotted, parts_dotted (by simp [QualifiedName.identifiers])
    fun x hx => (identifiers x hx).dotless]
  exact identifiers

theorem Namespace.isName_package (n : Namespace) : IsName n.package := by
  cases n <;> decide +kernel

theorem Namespace.isName_fetchType (n : Namespace) : IsName n.fetchType := by
  cases n <;> decide +kernel

/-- However a file spells the fetch modes, it spells a name. -/
theorem isName_fetchReference (scope : Scope) (n : Namespace) :
    IsName (fetchReference scope (.ofNamespace n)).text := by
  have simple : IsName "FetchType" := by decide +kernel
  simp only [fetchReference, show (Targets.ofNamespace n).fetchType = n.fetchType from rfl,
    n.simpleNameOf_fetchType]
  split
  · exact simple
  · split
    · exact simple
    · exact n.isName_fetchType

/-- **The parts of the directive** — for an annotation that fits and is legible where it stands. -/
theorem directs_of_fits {n : Namespace} {m : Nat} {f : List TokenKind} {tail : List Char}
    (fits : a.Fits m f) (legible : Legible a.tokens tail) {scope : Scope} {others : List Argument}
    (respaced : Respaced (keptArguments scope (.ofNamespace n) k a) others) :
    Directs m a.name.dotted (fetchReference scope (.ofNamespace n)).text
      (keptArguments scope (.ofNamespace n) k a) others :=
  ⟨fits.isName legible, isName_fetchReference scope n,
    fun b hb => fits.detached legible b (List.mem_filter.1 hb).1, respaced⟩

theorem Argument.Detached.mono {n m : Nat} (hnm : n ≤ m) {b : Argument} (h : b.Detached n) :
    b.Detached m := ⟨fun l f hl => (h.fits l f hl).mono hnm, h.legible⟩

theorem Directs.mono {n m : Nat} (hnm : n ≤ m) {name fetchType : String}
    {arguments others : List Argument} (h : Directs n name fetchType arguments others) :
    Directs m name fetchType arguments others :=
  ⟨h.name, h.fetchType, fun b hb => (h.detached b hb).mono (Nat.sub_le_sub_right hnm 1), h.respaced⟩

/-! ## What a synthesis gives -/

/-- **`Renewed scope n k a c`** — up to where its tokens stand, `c` is the annotation that is meant to
replace `a`: after what precedes `a`, its name, a lazy fetch and the arguments that are kept, which
all have names. -/
def Renewed (scope : Scope) (n : Namespace) (k : Association) (a c : Annotation) : Prop :=
  (∀ b ∈ keptArguments scope (.ofNamespace n) k a, b.label.isSome) ∧
    ∀ others, Respaced (keptArguments scope (.ofNamespace n) k a) others →
      c.mapTokens Token.bare = (directiveTree a.sigil.leadingText a.name.dotted
        (fetchReference scope (.ofNamespace n)).text others).mapTokens Token.bare

section Placed

variable {n : Namespace} {m : Nat} {f : List TokenKind} {tail : List Char} {r : Synthesis}

/-- **Syntheses give what was meant** — with any catalog. -/
theorem renewed_of_synthesizeFor (hm : m ≤ maxNesting) (fits : a.Fits m f)
    (legible : Legible a.tokens tail) (h : synthesizeFor symbols (.ofNamespace n) plan k a = .ok r) :
    Renewed ⟨symbols, plan.added⟩ n k a r.replacement := by
  obtain ⟨b, parsed, -, rfl⟩ := synthesizeFor_eq_ok.1 h
  have parsed {others : List Argument}
      (respaced : Respaced (keptArguments ⟨symbols, plan.added⟩ (.ofNamespace n) k a) others) :=
    (parse_render_iff ((directs_of_fits fits legible respaced).mono hm)).1 parsed
  obtain ⟨others, respaced⟩ := exists_respaced (keptArguments ⟨symbols, plan.added⟩ (.ofNamespace n) k a)
  exact ⟨(parsed respaced).1, fun others respaced => inPlaceOf_mapTokens a (parsed respaced).2.2⟩

/-- A replacement fits and is legible in the place of the old annotation. -/
theorem Renewed.keeps {scope : Scope} {c : Annotation} (h : Renewed scope n k a c) (fits : a.Fits m f)
    (legible : Legible a.tokens tail) : c.Fits m f ∧ Legible c.tokens tail := by
  obtain ⟨others, respaced⟩ := exists_respaced (keptArguments scope (.ofNamespace n) k a)
  exact (directs_of_fits fits legible respaced).keeps fits legible h.1 (h.2 others respaced)

/-- A replacement stands after what preceded the old annotation. -/
theorem Renewed.leading {scope : Scope} {c : Annotation} (h : Renewed scope n k a c) :
    c.sigil.leadingText = a.sigil.leadingText := by
  obtain ⟨others, respaced⟩ := exists_respaced (keptArguments scope (.ofNamespace n) k a)
  have := congrArg (fun c : Annotation => c.sigil.leadingText) (h.2 others respaced)
  simpa only [Token.leadingText_bare, Annotation.mapTokens_sigil, directiveTree,
    Token.leadingText_synthetic] using this

end Placed

/-! ## Lazy fetches -/

theorem nameKinds_append (names : List String) (x : String) :
    nameKinds (names ++ [x]) = (names.flatMap fun y => [.identifier y, .dot]) ++ [.identifier x] := by
  induction names with
  | nil => rfl
  | cons y names ih =>
    obtain ⟨z, zs, h⟩ := List.exists_cons_of_ne_nil (List.append_ne_nil_of_right_ne_nil names
      (List.cons_ne_nil x []))
    rw [List.cons_append, h, nameKinds_cons_cons, ← h, ih]
    rfl

theorem dottedIdentifiers?_nameKinds {names : List String} (ne : names ≠ []) :
    Scope.dottedIdentifiers? (nameKinds names) = some names := by
  induction names with
  | nil => exact absurd rfl ne
  | cons x names ih =>
    cases names with
    | nil => rfl
    | cons y names =>
      rw [nameKinds_cons_cons, Scope.dottedIdentifiers?, ih (List.cons_ne_nil y names)]
      rfl

/-- Several tokens have the type of the expression that they are. -/
theorem treesType?_tokens (s : Scope) {ts : List Token} (several : ts.length ≠ 1) :
    s.treesType? (ts.map .token) = s.tokensType? (kinds ts) := by
  have all (ts : List Token) : (ts.map TokenTree.token).mapM TokenTree.token? = some ts := by
    induction ts with
    | nil => rfl
    | cons t ts ih => rw [List.map_cons, List.mapM_cons, ih]; rfl
  rw [Scope.treesType?, all]
  · rfl
  · intro tree h
    have := congrArg List.length h
    exact several (by simpa using this)

/-- A dotted name that ends in a constant has the type of the enumeration before it, if that has the
constant. -/
theorem tokensType?_constant (s : Scope) (owner constant : String) :
    s.tokensType? (nameKinds (parts owner ++ [constant])) =
      (s.resolve owner).bind (s.constantOf? constant) := by
  obtain ⟨x, names, hparts⟩ := List.exists_cons_of_ne_nil (parts_ne_nil owner)
  have shape : nameKinds (parts owner ++ [constant]) = .identifier x :: .dot ::
      ((names.flatMap fun y => [.identifier y, .dot]) ++ [.identifier constant]) := by
    rw [nameKinds_append, hparts]
    rfl
  have notClass : Scope.endsInClass (nameKinds (parts owner ++ [constant])) = false := by
    rw [nameKinds_append, Scope.endsInClass, List.reverse_append]
    rfl
  have names : Scope.dottedIdentifiers? (nameKinds (parts owner ++ [constant])) =
      some (parts owner ++ [constant]) := dottedIdentifiers?_nameKinds (by simp)
  have constantType : s.constantType? (nameKinds (parts owner ++ [constant])) =
      (s.resolve owner).bind (s.constantOf? constant) := by
    have qualified : parts owner ≠ [] := parts_ne_nil owner
    simp [Scope.constantType?, names, qualified, dotted_parts]
  rw [← constantType]
  rw [shape] at notClass ⊢
  simp [Scope.tokensType?, Scope.isText, notClass]

/-- The type of a lazy fetch: that which the name in it means. -/
theorem valueType?_lazyArgument (s : Scope) (fetchType : String) :
    s.valueType? (lazyArgument fetchType).value =
      (s.resolve fetchType).bind (s.constantOf? "LAZY") := by
  rw [← tokensType?_constant, lazyArgument, Scope.valueType?, treesType?_tokens, kinds_spelled]
  obtain ⟨x, names, hparts⟩ := List.exists_cons_of_ne_nil (parts_ne_nil fetchType)
  rw [← List.length_map Token.kind, ← kinds, kinds_spelled, nameKinds_append, hparts]
  simp

/-- **A lazy fetch is one** — where the name in it means the fetch modes. -/
theorem isLazyFetch_lazyArgument {s : Scope} {targets : Targets} {fetchType : String}
    (resolved : s.resolve fetchType = some targets.fetchType)
    (has : s.symbols.catalog.hasConstant targets.fetchType "LAZY" = true) :
    isLazyFetch s targets (lazyArgument fetchType) = true := by
  have type : s.valueType? (lazyArgument fetchType).value = some (.class targets.fetchType) := by
    rw [valueType?_lazyArgument, resolved, Option.bind_some, Scope.constantOf?, if_pos has]
  have source : (lazyArgument fetchType).value.source.toList =
      (" " ++ fetchType).toList ++ ".LAZY".toList := by
    rw [ElementValue.source, toList_print, lazyArgument, ElementValue.tokens, listTokens_map_token,
      ← parts_lazy, spelling_name]
    simp
  have ends : endsInLazy (lazyArgument fetchType).value.source = true := by
    rw [endsInLazy, Text.trimEnd, source, dropBlankEnd_of_solid, List.isSuffixOf_iff_suffix]
    · rw [String.toList_ofList (l := _ ++ _)]
      exact List.suffix_append _ _
    · intro d hd
      rw [List.getLast?_append] at hd
      cases hd
      decide
  have name : (lazyArgument fetchType).name? = some "fetch" := rfl
  simp [isLazyFetch, name, type, ends, ElementType.isClass]

/-! ## When a synthesis succeeds -/

/-- The parts of an annotation that is a directive's tree, up to where its tokens stand. -/
theorem parts_of_directiveTree {leading name fetchType : String} {others : List Argument}
    {c : Annotation} (h : c.mapTokens Token.bare =
      (directiveTree leading name fetchType others).mapTokens Token.bare) :
    c.name.dotted = name ∧ c.arguments.map (Argument.mapTokens Token.bare) =
      (lazyArgument fetchType :: others).map (Argument.mapTokens Token.bare) := by
  constructor
  · have := congrArg (fun c : Annotation => c.name.dotted) h
    simp only [QualifiedName.dotted_mapTokens Token.kind_bare, Annotation.name_mapTokens] at this
    exact this.trans (dotted_ofDotted name)
  · rw [← Annotation.arguments_mapTokens, h, Annotation.arguments_mapTokens]
    rfl

/-- Such an annotation begins with a lazy fetch. -/
theorem exists_head_of_directiveTree {leading name fetchType : String} {others : List Argument}
    {c : Annotation} (h : c.mapTokens Token.bare =
      (directiveTree leading name fetchType others).mapTokens Token.bare) :
    ∃ q, c.arguments.head? = some q ∧
      q.mapTokens Token.bare = (lazyArgument fetchType).mapTokens Token.bare := by
  have arguments := (parts_of_directiveTree h).2
  cases hc : c.arguments with
  | nil => simp [hc] at arguments
  | cons q rest =>
    rw [hc, List.map_cons, List.map_cons] at arguments
    exact ⟨q, rfl, (List.cons.inj arguments).1⟩

/-- **When the first argument is a lazy fetch** — just if the name in it means the fetch modes. -/
theorem head?_of_directiveTree {s : Scope} {leading name fetchType : String} {others : List Argument}
    {c : Annotation} (h : c.mapTokens Token.bare =
      (directiveTree leading name fetchType others).mapTokens Token.bare)
    (has : s.symbols.catalog.hasConstant targets.fetchType "LAZY" = true) :
    c.arguments.head?.any (isLazyFetch s targets) = true ↔
      s.resolve fetchType = some targets.fetchType := by
  obtain ⟨q, head, same⟩ := exists_head_of_directiveTree h
  rw [head, Option.any_some, ← isLazyFetch_bare, same, isLazyFetch_bare]
  constructor
  · intro lazy
    simp only [isLazyFetch, Bool.and_eq_true, Option.any_eq_true, ElementType.isClass,
      decide_eq_true_eq, valueType?_lazyArgument, Option.bind_eq_some_iff] at lazy
    obtain ⟨⟨-, type, ⟨owner, resolved, found⟩, rfl⟩, -⟩ := lazy
    rw [Scope.constantOf?] at found
    split at found
    · cases found
      exact resolved
    · cases found
  · exact fun resolved => isLazyFetch_lazyArgument resolved has

theorem annotationType?_of_associationOf? {s : Scope} (h : associationOf? s targets a = some k) :
    s.annotationType? a = some (k.target targets) := by
  obtain ⟨name, type, found⟩ := Option.bind_eq_some_iff.1 h
  split at found
  · rename_i same
    cases found
    rw [type, same]
    rfl
  · split at found
    · rename_i same
      cases found
      rw [type, same]
      rfl
    · cases found

section Default

variable {n : Namespace} {u : CompilationUnit}

/-- **`Makeable scope staged n k a`** — nothing keeps the annotation from being replaced: all the arguments
that are kept have names, and the name that is written for the fetch modes means them in the scope
`staged` of the replacement. -/
structure Makeable (scope staged : Scope) (n : Namespace) (k : Association) (a : Annotation) : Prop where
  names : ∀ b ∈ keptArguments scope (.ofNamespace n) k a, b.label.isSome
  resolved : staged.resolve (fetchReference scope (.ofNamespace n)).text = some n.fetchType

/-- The scope after the import that the name of the fetch modes needs. -/
abbrev stagedScope (n : Namespace) (u : CompilationUnit) (plan : ImportPlan) : Scope :=
  planScope n u (stagedPlan (.ofUnit u (.persistence n)) (.ofNamespace n) plan)

section Exact

variable {m : Nat} {f : List TokenKind} {tail : List Char}

/-- In every such scope, the fetch modes have the lazy one. -/
theorem has_lazy : (planScope n u plan).symbols.catalog.hasConstant
    (Targets.ofNamespace n).fetchType "LAZY" = true :=
  n.hasConstant_lazy

/-- What is replaced can be. -/
theorem makeable_of_synthesizeFor {r : Synthesis} (hm : m ≤ maxNesting) (fits : a.Fits m f)
    (legible : Legible a.tokens tail)
    (h : synthesizeFor (.ofUnit u (.persistence n)) (.ofNamespace n) plan k a = .ok r) :
    Makeable (planScope n u plan) (stagedScope n u plan) n k a := by
  have renewed := renewed_of_synthesizeFor hm fits legible h
  obtain ⟨others, respaced⟩ :=
    exists_respaced (keptArguments (planScope n u plan) (.ofNamespace n) k a)
  have directs := (directs_of_fits fits legible respaced).mono hm
  obtain ⟨b, parsed, checked, -⟩ := synthesizeFor_eq_ok.1 h
  have meant := ((parse_render_iff directs).1 parsed).2.2
  have lazy : b.arguments.head?.any (isLazyFetch (stagedScope n u plan) (.ofNamespace n)) = true :=
    (checkReplacement_eq_ok.1 checked).2
  exact ⟨renewed.1, (head?_of_directiveTree meant has_lazy).1 lazy⟩

/-- **Syntheses succeed** — where nothing keeps the annotation from being replaced. -/
theorem Makeable.exists_synthesizeFor
    (makeable : Makeable (planScope n u plan) (stagedScope n u plan) n k a)
    (reached : plan.Reached n u)
    (matched : associationOf? (planScope n u plan) (.ofNamespace n) a = some k) (hm : m ≤ maxNesting)
    (fits : a.Fits m f) (legible : Legible a.tokens tail) :
    ∃ r, synthesizeFor (.ofUnit u (.persistence n)) (.ofNamespace n) plan k a = .ok r := by
  obtain ⟨others, respaced⟩ :=
    exists_respaced (keptArguments (planScope n u plan) (.ofNamespace n) k a)
  have directs := (directs_of_fits fits legible respaced).mono hm
  obtain ⟨b, parsed⟩ := exists_parse_render directs makeable.names
  have meant := ((parse_render_iff directs).1 parsed).2.2
  refine ⟨_, synthesizeFor_eq_ok.2 ⟨b, parsed, checkReplacement_eq_ok.2 ⟨?_, ?_⟩, rfl⟩⟩
  · -- the name of the annotation still means the same
    obtain ⟨simple, target, -⟩ := target_eq_qualify n k
    have type := annotationType?_of_associationOf? matched
    rw [target] at type ⊢
    rw [Scope.annotationType?, (parts_of_directiveTree meant).1]
    unfold stagedPlan fetchReference
    simp only [show (Targets.ofNamespace n).fetchType = n.fetchType from rfl, n.simpleNameOf_fetchType]
    split
    · rename_i unknown
      exact resolve_register reached unknown type
    · split
      · exact type
      · exact type
  · exact (head?_of_directiveTree meant has_lazy).2 makeable.resolved

/-- Syntheses succeed, with the default catalog, if all the arguments that are kept have names and the
first part of the persistence package is no type in the file. -/
theorem exists_synthesizeFor (reached : plan.Reached n u)
    (apart : (planScope n u (.ofUnit u)).resolveSimple n.text = none)
    (matched : associationOf? (planScope n u plan) (.ofNamespace n) a = some k) (hm : m ≤ maxNesting)
    (fits : a.Fits m f) (legible : Legible a.tokens tail)
    (names : ∀ b ∈ keptArguments (planScope n u plan) (.ofNamespace n) k a, b.label.isSome) :
    ∃ r, synthesizeFor (.ofUnit u (.persistence n)) (.ofNamespace n) plan k a = .ok r := by
  have resolved : (stagedScope n u plan).resolve
      (fetchReference (planScope n u plan) (.ofNamespace n)).text = some n.fetchType := by
    unfold stagedScope stagedPlan
    exact resolve_fetchReference reached apart
  exact (Makeable.mk names resolved).exists_synthesizeFor reached matched hm fits legible

end Exact

end Default

end DeferFetch
