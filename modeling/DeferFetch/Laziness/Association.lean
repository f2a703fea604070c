/-
# DeferFetch.Laziness.Association — annotations that associate an entity with one other.

Which annotations those are, and what becomes of their arguments: a lazy fetch argument comes first,
arguments that say how to fetch are dropped, and the others stay as they are.
-/
import DeferFetch.Naming.Scope

namespace DeferFetch

/-- **`Association`** — the two kinds of associations with a single other entity. -/
inductive Association where
  | oneToOne
  | manyToOne
deriving DecidableEq, Repr, Inhabited

/-- The annotation type of the association. -/
def Association.target (k : Association) (targets : Targets) : String :=
  match k with
  | .oneToOne => targets.oneToOne
  | .manyToOne => targets.manyToOne

/-- **`associationOf? scope targets a`** — the kind of association that the annotation declares, by
what its name means. -/
def associationOf? (scope : Scope) (targets : Targets) (a : Annotation) : Option Association :=
  (scope.annotationType? a).bind fun name =>
    if name = targets.oneToOne then some .oneToOne
    else if name = targets.manyToOne then some .manyToOne
    else none

/-! ## Arguments -/

/-- **`NewArgument`** — the lazy fetch, or the text of an argument that is kept. -/
inductive NewArgument where
  | lazyFetch
  | preserved (text : String)
deriving DecidableEq, Repr, Inhabited

/-- The text of a lazy fetch argument, with the fetch modes called `fetchType`. -/
def lazyFetchText (fetchType : String) : String := "fetch = " ++ fetchType ++ ".LAZY"

/-- The text of the argument, with the fetch modes called `fetchType`. -/
def NewArgument.render (fetchType : String) : NewArgument → String
  | .lazyFetch => lazyFetchText fetchType
  | .preserved text => text

/-- **`isFetchArgument scope targets target argument`** — the argument of an annotation of the type
`target` says how to fetch: its type is that of the fetch modes. -/
def isFetchArgument (scope : Scope) (targets : Targets) (target : Option String)
    (argument : Argument) : Bool :=
  (scope.argumentType? argument target).any (·.isClass targets.fetchType)

/-- **`preservedArguments scope targets target a`** — the arguments that are kept: those that do not
say how to fetch, or of which that is not known. -/
def preservedArguments (scope : Scope) (targets : Targets) (target : Option String)
    (a : Annotation) : List Argument :=
  a.arguments.filter (!isFetchArgument scope targets target ·)

/-- **`newArguments scope targets target a`** — the new arguments of an annotation. -/
def newArguments (scope : Scope) (targets : Targets) (target : Option String)
    (a : Annotation) : List NewArgument :=
  .lazyFetch :: (preservedArguments scope targets target a).map fun argument =>
    .preserved (Text.trim argument.source)

/-- How many arguments of an annotation are dropped. -/
def droppedCount (scope : Scope) (targets : Targets) (target : Option String) (a : Annotation) :
    Nat :=
  a.arguments.countP (isFetchArgument scope targets target)

/-! ## The name of the fetch modes -/

/-- **`FetchReference`** — how a file spells the fetch modes, and whether it must import them for
that. -/
structure FetchReference where
  text : String
  needsImport : Bool
deriving DecidableEq, Repr, Inhabited

/-- **`fetchReference scope targets`** — the simple name if it means the fetch modes or, so far,
nothing; the qualified name if it means another type. -/
def fetchReference (scope : Scope) (targets : Targets) : FetchReference :=
  let simple := simpleNameOf targets.fetchType
  match scope.resolveSimple simple with
  | none => ⟨simple, true⟩
  | some name => if name = targets.fetchType then ⟨simple, false⟩ else ⟨targets.fetchType, false⟩

end DeferFetch
