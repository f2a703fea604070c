/-
# DeferFetch.Proofs.Naming.Growth — what names mean while imports are being planned.

A run plans at most one import, that of the fetch modes, and only where their simple name means
nothing yet. So plans grow by a single step (`ImportPlan.Grows`). The names of associations mean the
same before and after it, and what was a fetch mode before stays one.
-/
import DeferFetch.Proofs.Naming.FetchModes
import DeferFetch.Proofs.Naming.Values

namespace DeferFetch

/-- **`p.Grows n u q`** — a run over the file `u` that has come to the plan `p` may come to `q`: nothing
has been planned since, or the import of the fetch modes, whose name meant nothing. -/
def ImportPlan.Grows (n : Namespace) (u : CompilationUnit) (p q : ImportPlan) : Prop :=
  q = p ∨ (planScope n u p).resolveSimple "FetchType" = none ∧ q = p.register n.fetchType

variable {n : Namespace} {u : CompilationUnit} {p q r : ImportPlan}

namespace ImportPlan.Grows

theorem refl (n : Namespace) (u : CompilationUnit) (p : ImportPlan) : p.Grows n u p := .inl rfl

theorem reached (h : p.Grows n u q) (hp : p.Reached n u) : q.Reached n u := by
  rcases h with rfl | ⟨-, rfl⟩
  · exact hp
  · exact hp.register

/-- Where the name of the fetch modes means something, no plan grows. -/
theorem eq_of_known (h : p.Grows n u q)
    (known : (planScope n u p).resolveSimple "FetchType" ≠ none) : q = p := by
  rcases h with rfl | ⟨unknown, -⟩
  · rfl
  · exact absurd unknown known

theorem trans (hp : p.Reached n u) (h : p.Grows n u q) (h' : q.Grows n u r) : p.Grows n u r := by
  rcases h with rfl | ⟨unknown, rfl⟩
  · exact h'
  · have known := resolveSimple_register hp unknown
    rw [h'.eq_of_known (known ▸ nofun)]
    exact .inr ⟨unknown, rfl⟩

end ImportPlan.Grows

/-! ## Names -/

/-- **No association gets its name from the import** — a name that means another type of the package
after the import of the fetch modes is planned meant it before. -/
theorem resolve_of_resolve_register {name simple : String} (reached : p.Reached n u)
    (unknown : (planScope n u p).resolveSimple "FetchType" = none) (hsimple : IsSimple simple)
    (other : simple ≠ "FetchType")
    (h : (planScope n u (p.register n.fetchType)).resolve name = some (n.qualify simple)) :
    (planScope n u p).resolve name = some (n.qualify simple) := by
  have meant := resolveSimple_register reached unknown
  have stays {name : String} (hname : name ≠ "FetchType") :
      (planScope n u (p.register n.fetchType)).resolveSimple name =
        (planScope n u p).resolveSimple name :=
    resolveSimple_congr reached.register reached hname
  unfold Scope.resolve at h ⊢
  split at h
  · rename_i hfirst
    have hname : name ≠ "FetchType" := by
      rintro rfl
      have same : n.qualify "FetchType" = n.qualify simple := Option.some.inj (meant.symm.trans h)
      exact other (String.append_right_inj _ |>.1 same).symm
    rw [← stays hname, h]
  · rename_i first rest hfirst
    have hne : first ≠ "FetchType" := by
      rintro rfl
      simp only [meant, Option.map_some, Option.orElse_eq_orElse, Option.orElse_eq_or,
        Option.or_eq_some_iff, Option.filter_eq_some_iff, Option.some.injEq] at h
      rcases h with ⟨nested, -⟩ | ⟨-, whole, -⟩
      · -- a type nested in the fetch modes has one part more
        have same : "FetchType" ++ ("." ++ rest) = simple := by
          apply String.append_right_inj (n.package ++ ".") |>.1
          rw [← String.append_assoc, ← String.append_assoc]
          exact nested
        refine hsimple ?_
        rw [← same]
        simp
      · rw [whole, splitFirst_qualify] at hfirst
        exact n.text_ne (congrArg Prod.fst (Option.some.inj hfirst))
    simp only [stays hne] at h
    exact h

/-- An annotation declares an association just if its type is that of the association. -/
theorem associationOf?_eq_some_iff {s : Scope} {a : Annotation} {k : Association} :
    associationOf? s (.ofNamespace n) a = some k ↔
      s.annotationType? a = some (k.target (.ofNamespace n)) := by
  have apart : (Targets.ofNamespace n).manyToOne ≠ (Targets.ofNamespace n).oneToOne := by
    cases n <;> decide
  unfold associationOf?
  cases s.annotationType? a with
  | none => simp
  | some type =>
    simp only [Option.bind_some, Option.some.injEq]
    cases k with
    | oneToOne =>
      simp only [Association.target]
      split
      · simpa
      · rename_i h
        split <;> simp [h]
    | manyToOne =>
      simp only [Association.target]
      split
      · rename_i h
        simp [h, apart.symm]
      · simp

/-- The annotation types of associations are not the fetch modes. -/
theorem target_eq_qualify (n : Namespace) (k : Association) :
    ∃ simple, k.target (.ofNamespace n) = n.qualify simple ∧ IsSimple simple ∧
      simple ≠ "FetchType" := by
  cases k with
  | oneToOne => exact ⟨"OneToOne", rfl, of_decide_eq_false rfl, by decide⟩
  | manyToOne => exact ⟨"ManyToOne", rfl, of_decide_eq_false rfl, by decide⟩

/-- **Associations stay what they are** — whatever has been planned. -/
theorem ImportPlan.Grows.associationOf? (h : p.Grows n u q) (hp : p.Reached n u) (a : Annotation) :
    DeferFetch.associationOf? (planScope n u q) (.ofNamespace n) a =
      DeferFetch.associationOf? (planScope n u p) (.ofNamespace n) a := by
  rcases h with rfl | ⟨unknown, rfl⟩
  · rfl
  · apply Option.ext
    intro k
    obtain ⟨simple, target, hsimple, other⟩ := target_eq_qualify n k
    rw [associationOf?_eq_some_iff, associationOf?_eq_some_iff, target]
    constructor
    · exact resolve_of_resolve_register hp unknown hsimple other
    · exact resolve_register hp unknown

/-! ## Values -/

section Values

variable {s s' : Scope} {type : String}

/-- A dotted constant of an enumeration stays one, where all names of that type still mean it. -/
theorem constantType?_of_resolve (same : s.symbols = s'.symbols)
    (stays : ∀ name, s.resolve name = some type → s'.resolve name = some type)
    {kinds : List TokenKind} (h : s.constantType? kinds = some (.class type)) :
    s'.constantType? kinds = some (.class type) := by
  simp only [Scope.constantType?, Scope.constantOf?, ← same, Option.bind_eq_bind,
    Option.bind_eq_some_iff] at h ⊢
  obtain ⟨names, hnames, constant, hconstant, h⟩ := h
  refine ⟨names, hnames, constant, hconstant, ?_⟩
  split at h
  · cases h
  · rename_i qualified
    obtain ⟨owner, resolved, has⟩ := Option.bind_eq_some_iff.1 h
    split at has
    · rename_i known
      cases has
      rw [if_neg qualified, stays _ resolved, Option.bind_some, if_pos known]
    · cases has

theorem tokensType?_of_resolve (same : s.symbols = s'.symbols)
    (stays : ∀ name, s.resolve name = some type → s'.resolve name = some type)
    {kinds : List TokenKind} (h : s.tokensType? kinds = some (.class type)) :
    s'.tokensType? kinds = some (.class type) := by
  have constants : s'.constantOf? = s.constantOf? := by
    funext constant owner
    simp only [Scope.constantOf?, same]
  have literals : s'.literalType? = s.literalType? := by
    funext k
    simp only [Scope.literalType?, Scope.resolveStatic, constants, same]
  -- every other reading of the tokens is the same in both scopes
  rcases kinds with _ | ⟨first, _ | ⟨second, others⟩⟩
  · exact h
  · rw [Scope.tokensType?, literals]
    exact h
  · simp only [Scope.tokensType?, literals] at h ⊢
    split
    · rename_i signed
      rwa [if_pos signed] at h
    · rename_i unsigned
      rw [if_neg unsigned] at h
      split
      · rename_i text
        rwa [if_pos text] at h
      · rename_i notText
        rw [if_neg notText] at h
        split
        · rename_i literal
          rwa [if_pos literal] at h
        · rename_i noLiteral
          rw [if_neg noLiteral] at h
          exact constantType?_of_resolve same stays h

mutual

theorem treesType?_of_resolve (same : s.symbols = s'.symbols)
    (stays : ∀ name, s.resolve name = some type → s'.resolve name = some type)
    (trees : List TokenTree) (h : s.treesType? trees = some (.class type)) :
    s'.treesType? trees = some (.class type) := by
  match trees with
  | [] =>
    have typed : s.tokensType? [] = some (.class type) := h
    exact tokensType?_of_resolve same stays typed
  | [tree] =>
    rw [Scope.treesType?] at h ⊢
    exact treeType?_of_resolve same stays tree h
  | tree :: tree' :: trees =>
    have several (s : Scope) : s.treesType? (tree :: tree' :: trees) =
        ((tree :: tree' :: trees).mapM TokenTree.token?).bind fun tokens =>
          s.tokensType? (tokens.map Token.kind) := by
      rw [Scope.treesType?]
      exact nofun
    rw [several, Option.bind_eq_some_iff] at h ⊢
    obtain ⟨tokens, all, h⟩ := h
    exact ⟨tokens, all, tokensType?_of_resolve same stays h⟩

theorem treeType?_of_resolve (same : s.symbols = s'.symbols)
    (stays : ∀ name, s.resolve name = some type → s'.resolve name = some type)
    (tree : TokenTree) (h : s.treeType? tree = some (.class type)) :
    s'.treeType? tree = some (.class type) := by
  match tree with
  | .token t =>
    rw [Scope.treeType?] at h ⊢
    exact tokensType?_of_resolve same stays h
  | .group ⟨_, _, trees, _⟩ =>
    rw [Scope.treeType?] at h ⊢
    exact treesType?_of_resolve same stays trees h
  | .annot a => rw [Scope.treeType?] at h; cases h

end

/-- **A value of the type stays one** — where all names of that type still mean it. -/
theorem valueType?_of_resolve (same : s.symbols = s'.symbols)
    (stays : ∀ name, s.resolve name = some type → s'.resolve name = some type)
    {value : ElementValue} (h : s.valueType? value = some (.class type)) :
    s'.valueType? value = some (.class type) := by
  rcases value with trees | a | ⟨opening, _ | ⟨value, values⟩, commas, closing⟩
  · rw [Scope.valueType?] at h ⊢
    exact treesType?_of_resolve same stays trees h
  · rw [Scope.valueType?, Option.map_eq_some_iff] at h ⊢
    obtain ⟨name, meant, found⟩ := h
    cases found
    exact ⟨type, stays _ meant, rfl⟩
  · rw [Scope.valueType?] at h
    cases h
  · rw [Scope.valueType?, Option.map_eq_some_iff] at h
    obtain ⟨element, -, found⟩ := h
    cases found

end Values

/-! ## Arguments -/

/-- **What said how to fetch still says it** — whatever has been planned since. -/
theorem ImportPlan.Grows.isFetchArgument (h : p.Grows n u q) (hp : p.Reached n u)
    {target : Option String} {argument : Argument}
    (fetches : DeferFetch.isFetchArgument (planScope n u p) (.ofNamespace n) target argument = true) :
    DeferFetch.isFetchArgument (planScope n u q) (.ofNamespace n) target argument = true := by
  rcases h with rfl | ⟨unknown, rfl⟩
  · exact fetches
  · simp only [DeferFetch.isFetchArgument, Scope.argumentType?, Option.any_eq_true,
      ElementType.isClass, decide_eq_true_eq, Option.orElse_eq_orElse, Option.orElse_eq_or] at fetches ⊢
    obtain ⟨type, found, rfl⟩ := fetches
    refine ⟨_, ?_, rfl⟩
    have symbols : (planScope n u p).symbols = (planScope n u (p.register n.fetchType)).symbols := rfl
    have stays (name : String) (meant : (planScope n u p).resolve name = some n.fetchType) :
        (planScope n u (p.register n.fetchType)).resolve name = some n.fetchType :=
      resolve_register hp unknown meant
    rw [Option.or_eq_some_iff] at found ⊢
    rcases found with declared | ⟨undeclared, value⟩
    · exact .inl declared
    · exact .inr ⟨undeclared, valueType?_of_resolve symbols stays value⟩

/-- Whether an argument says how to fetch depends on the kinds of its tokens alone. -/
theorem isFetchArgument_mapTokens {f : Token → Token} (hf : ∀ t, (f t).kind = t.kind) (s : Scope)
    (targets : Targets) (target : Option String) (argument : Argument) :
    isFetchArgument s targets target (argument.mapTokens f) =
      isFetchArgument s targets target argument := by
  have value : (argument.mapTokens f).value = argument.value.mapTokens f := rfl
  simp only [isFetchArgument, Scope.argumentType?, Argument.name?_mapTokens hf, value,
    Scope.valueType?_mapTokens hf]

end DeferFetch
