/-
# DeferFetch.Laziness.Directive — replacement annotations, built from text.

A directive is the text of an annotation. It is parsed, and what comes out must be of the expected
type and begin with a lazy fetch. The new annotation stands in the place of the old one: it takes
over what precedes that, and all its tokens report the span of that.
-/
import DeferFetch.Laziness.Association
import DeferFetch.Imports.Plan
import DeferFetch.Parser.Unit
import DeferFetch.Syntax.Traversal

namespace DeferFetch

/-- **`Directive`** — the name of an annotation and the texts of its arguments. -/
structure Directive where
  name : String
  arguments : List String
deriving DecidableEq, Repr, Inhabited

/-- The annotation as text. -/
def Directive.render (d : Directive) : String :=
  "@" ++ d.name ++ "(" ++ String.intercalate ", " d.arguments ++ ")"

/-! ## Failures -/

/-- **`SynthesisError`** — why a directive makes no replacement: it is no annotation, it is one of
another type than expected, or it does not begin with a lazy fetch. -/
inductive SynthesisError where
  | unparseable (diagnostics : List Diagnostic)
  | wrongType (expected : String) (found : Option String)
  | missingLazyFetch
deriving DecidableEq, Repr

/-- What is wrong with a replacement, said after its text. -/
def SynthesisError.complaint : SynthesisError → String
  | .unparseable diagnostics => " does not parse: " ++ Diagnostic.joined diagnostics
  | .wrongType expected found =>
    " names " ++ (found.map fun name => "`" ++ name ++ "`").getD "an unresolved type"
      ++ " instead of `" ++ expected ++ "`"
  | .missingLazyFetch => " does not start with a lazy fetch argument"

/-- **`Failure`** — an annotation that is kept although it should be replaced, and why. -/
structure Failure where
  before : String
  template : String
  span : Span
  error : SynthesisError
deriving DecidableEq, Repr

/-- The report on a failure, with its place. -/
def Failure.message (f : Failure) : String :=
  f.span.location ++ ": replacement `" ++ f.template ++ "` for `" ++ f.before ++ "`"
    ++ f.error.complaint

/-! ## Building a replacement -/

/-- The text ends in the constant of lazy fetching, after a dot. -/
def endsInLazy (s : String) : Bool := ".LAZY".toList.isSuffixOf (Text.trimEnd s).toList

/-- **`isLazyFetch scope targets argument`** — the argument sets `fetch` to the lazy mode. -/
def isLazyFetch (scope : Scope) (targets : Targets) (argument : Argument) : Bool :=
  argument.name? = some "fetch"
    && (scope.valueType? argument.value).any (·.isClass targets.fetchType)
    && endsInLazy argument.value.source

/-- **`checkReplacement scope targets expected b`** — what is wrong with a replacement, if
anything. -/
def checkReplacement (scope : Scope) (targets : Targets) (expected : Option Association)
    (b : Annotation) : Except SynthesisError Unit :=
  let found := scope.annotationType? b
  match expected.map (·.target targets) with
  | none => .error (.wrongType "" found)
  | some target =>
    if found ≠ some target then .error (.wrongType target found)
    else if !b.arguments.head?.any (isLazyFetch scope targets) then .error .missingLazyFetch
    else .ok ()

/-- **`inPlaceOf old b`** — the annotation `b` with the span of `old` for all its tokens and
with what precedes `old`. -/
def inPlaceOf (old b : Annotation) : Annotation :=
  let span := old.span
  let b := b.mapTokens fun t => { t with span }
  { b with sigil := { b.sigil with trivia := old.sigil.trivia } }

/-- **`Synthesis`** — a replacement, and the import plan with what it needs. -/
structure Synthesis where
  replacement : Annotation
  plan : ImportPlan

/-- **`synthesize symbols targets directive old expected fetch plan`** — the replacement for an
annotation and the plan with the import that it needs. A failure leaves the plan as it is. -/
def synthesize (symbols : SymbolTable) (targets : Targets) (directive : Directive)
    (old : Annotation) (expected : Option Association) (fetch : FetchReference)
    (plan : ImportPlan) : Except Failure Synthesis :=
  let failure (e : SynthesisError) : Failure :=
    ⟨Text.trim old.source, directive.render, old.span, e⟩
  let parsed := parseAnnotation directive.render
  match parsed.toExcept with
  | .error diagnostics => .error (failure (.unparseable diagnostics))
  | .ok b =>
    let staged := if fetch.needsImport then plan.register targets.fetchType else plan
    match checkReplacement ⟨symbols, staged.added⟩ targets expected b with
    | .error e => .error (failure e)
    | .ok () => .ok ⟨inPlaceOf old b, staged⟩

end DeferFetch
