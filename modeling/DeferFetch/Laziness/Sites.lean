/-
# DeferFetch.Laziness.Sites — replacing the annotations of a file.

Each annotation is attempted in turn, inner ones first, and the attempt decides what becomes of it
and of the import plan. The walk itself knows nothing of associations: it takes the attempt as an
argument.
-/
import DeferFetch.Laziness.Directive

namespace DeferFetch

/-- **`Site`** — an annotation that was replaced, before and after, without what precedes it. -/
structure Site where
  association : Association
  span : Span
  before : String
  after : String
deriving DecidableEq, Repr, Inhabited

/-- **`Attempt`** — what trying to make an annotation lazy comes to. It is left alone, or it would
be replaced by the same text, or it is replaced, or it should be but cannot. -/
inductive Attempt where
  | notApplicable
  | alreadyLazy (plan : ImportPlan)
  | replaced (site : Site) (replacement : Annotation) (plan : ImportPlan)
  | failed (failure : Failure)

/-- **`attempt symbols targets plan a`** — tries to make an annotation lazy, given the imports
planned so far. -/
def attempt (symbols : SymbolTable) (targets : Targets) (plan : ImportPlan) (a : Annotation) :
    Attempt :=
  let scope : Scope := ⟨symbols, plan.added⟩
  match associationOf? scope targets a with
  | none => .notApplicable
  | some association =>
    let arguments := newArguments scope targets (some (association.target targets)) a
    let fetch := fetchReference scope targets
    let directive : Directive :=
      ⟨a.name.dotted, arguments.map (NewArgument.render fetch.text)⟩
    match synthesize symbols targets directive a (some association) fetch plan with
    | .error failure => .failed failure
    | .ok ⟨b, plan⟩ =>
      if a.source = b.source then .alreadyLazy plan
      else .replaced ⟨association, a.span, Text.trim a.source, Text.trim b.source⟩ b plan

/-- **`WalkState`** — the import plan so far, the sites and the failures. -/
structure WalkState where
  plan : ImportPlan
  sites : List Site := []
  failures : List Failure := []

/-- **`visit attempt a`** — what becomes of one annotation. -/
def visit (attempt : ImportPlan → Annotation → Attempt) (a : Annotation) :
    StateM WalkState Annotation := do
  let state ← get
  match attempt state.plan a with
  | .notApplicable => return a
  | .alreadyLazy plan =>
    set { state with plan }
    return a
  | .replaced site replacement plan =>
    set { state with plan, sites := state.sites ++ [site] }
    return replacement
  | .failed failure =>
    set { state with failures := state.failures ++ [failure] }
    return a

/-- **`WalkOutcome`** — the file with its replacements, imports aside, and what happened. -/
structure WalkOutcome where
  unit : CompilationUnit
  plan : ImportPlan
  sites : List Site
  failures : List Failure

/-- **`attemptAll attempt unit`** — attempts every annotation of a file. -/
def attemptAll (attempt : ImportPlan → Annotation → Attempt) (unit : CompilationUnit) :
    WalkOutcome :=
  let (unit, state) := (unit.mapAnnotationsM (visit attempt)).run { plan := .ofUnit unit }
  ⟨unit, state.plan, state.sites, state.failures⟩

/-- **`makeLazy catalog targets unit`** — makes every association of a file lazy. -/
def makeLazy (catalog : Catalog) (targets : Targets) (unit : CompilationUnit) :
    WalkOutcome :=
  attemptAll (attempt (.ofUnit unit catalog) targets) unit

end DeferFetch
