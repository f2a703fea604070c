/-
# DeferFetch.Laziness.Recipe — making associations lazy, from text to text.

A text that cannot mention an association is not even parsed, and a file that refers to none is not
walked. A text with errors is refused. A text in which nothing is changed comes out as it was.
-/
import DeferFetch.Laziness.Gate
import DeferFetch.Laziness.Sites
import DeferFetch.Imports.Placement

namespace DeferFetch

/-- **`Recipe`** — how to make associations lazy: for which persistence package, from how many
imports of a package on they are folded, if at all, and with what known types. -/
structure Recipe where
  persistence : Namespace := .jakarta
  fold? : Option Nat := none
  catalog : Catalog
deriving Repr

/-- **`RecipeRun`** — a file after a run, with what was changed, what failed, and the types that are
imported now. -/
structure RecipeRun where
  unit : CompilationUnit
  sites : List Site := []
  failures : List Failure := []
  importsAdded : List String := []

/-- **`SourceRun`** — a text after a run, with the same remarks. -/
structure SourceRun where
  output : String
  sites : List Site := []
  failures : List Failure := []
  importsAdded : List String := []
deriving DecidableEq, Repr

/-- Something was changed. -/
def SourceRun.isChanged (r : SourceRun) : Bool :=
  !r.sites.isEmpty || !r.importsAdded.isEmpty

/-- Something was changed. -/
def RecipeRun.isChanged (r : RecipeRun) : Bool := !r.sites.isEmpty || !r.importsAdded.isEmpty

/-- **`SourceErrors`** — the errors of a text that should have been free of them. -/
structure SourceErrors where
  file : Option String
  diagnostics : List Diagnostic
deriving DecidableEq, Repr

/-- The report on a text with errors. -/
def SourceErrors.message (e : SourceErrors) : String :=
  e.file.getD "<input>" ++ " has " ++ toString e.diagnostics.length ++ " syntax error(s): "
    ++ Diagnostic.joined e.diagnostics

namespace Recipe

/-- The recipe with the catalog of its persistence package. -/
def ofNamespace (n : Namespace) (fold? : Option Nat := none) : Recipe :=
  ⟨n, fold?, .persistence n⟩

/-- The name by which the recipe is chosen. -/
def name : String := "lazy-associations"

/-- The name that is shown. -/
def displayName : String := "Mark all associations lazy"

/-- What the recipe does, in a sentence. -/
def description : String := "Mark one-to-one and many-to-one associations lazy."

/-- The types that the recipe is about. -/
def targets (r : Recipe) : Targets := .ofNamespace r.persistence

/-- **`r.appliesTo unit`** — the file refers to one of the annotations to make lazy. -/
def appliesTo (r : Recipe) (unit : CompilationUnit) : Bool :=
  usesAny r.targets.annotationTypes unit

/-- **`r.run unit`** — makes the associations of a file lazy, if the recipe applies to it, and adds
the imports. -/
def run (r : Recipe) (unit : CompilationUnit) : RecipeRun :=
  if r.appliesTo unit then
    let outcome := makeLazy r.catalog r.targets unit
    { unit := outcome.plan.applyTo outcome.unit r.fold?
      sites := outcome.sites
      failures := outcome.failures
      importsAdded := outcome.plan.addedTypes }
  else { unit }

/-- **`r.runSource source file`** — makes the associations in a text lazy. -/
def runSource (r : Recipe) (source : String) (file : Option String := none) :
    Except SourceErrors SourceRun :=
  if mentionsAny source (r.targets.annotationTypes.map simpleNameOf) then
    match (parseUnit source file).toExcept with
    | .error diagnostics => .error ⟨file, diagnostics⟩
    | .ok unit =>
      let run := r.run unit
      .ok { output := if run.isChanged then run.unit.source else source
            sites := run.sites
            failures := run.failures
            importsAdded := run.importsAdded }
  else .ok { output := source }

end Recipe

end DeferFetch
