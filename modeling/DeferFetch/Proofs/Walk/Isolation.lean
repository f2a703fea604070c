/-
# DeferFetch.Proofs.Walk.Isolation — a failure stays where it is.

The record of a walk accounts for all that is reported: the sites are those of the attempts that
replaced, the failures those of the attempts that failed, both in the order of the attempts
(`attemptAll_reports`). And a failure is felt nowhere else: the walk attempts the same annotations, with
the same imports planned, and comes to the same file as one that leaves every annotation alone on which
it fails (`attemptAll_lenient`).
-/
import DeferFetch.Proofs.Walk.Trace
import DeferFetch.Proofs.Laziness.Synthesis

namespace DeferFetch

/-! ## What an attempt reports -/

namespace Attempt

/-- The site that an attempt reports. -/
def site? : Attempt → Option Site
  | .replaced site _ _ => some site
  | _ => none

/-- The failure that an attempt reports. -/
def failure? : Attempt → Option Failure
  | .failed failure => some failure
  | _ => none

/-- **`t.lenient`** — the attempt, but an annotation on which it fails is taken for one to which it does
not apply. -/
def lenient : Attempt → Attempt
  | .failed _ => .notApplicable
  | t => t

end Attempt

/-- **`reported attempt plan record`** — the state and the record of a walk that has come to an import
plan after the recorded attempts, if those are all that it reports. -/
def reported (attempt : ImportPlan → Annotation → Attempt)
    (s : ImportPlan × List (ImportPlan × Annotation)) : Recorded :=
  ({ plan := s.1
     sites := s.2.filterMap fun (plan, a) => (attempt plan a).site?
     failures := s.2.filterMap fun (plan, a) => (attempt plan a).failure? }, s.2)

/-- Recording an attempt, if the sites and the failures are read off the record. -/
def planning (attempt : ImportPlan → Annotation → Attempt) (a : Annotation) :
    StateM (ImportPlan × List (ImportPlan × Annotation)) Annotation := fun s =>
  let (b, state, record) := (recording attempt a).run (reported attempt s)
  (b, state.plan, record)

theorem shadows_reported (attempt : ImportPlan → Annotation → Attempt) (a : Annotation) :
    Shadows (reported attempt) (recording attempt a) (planning attempt a) := by
  intro s
  show _ = ((planning attempt a s).1, reported attempt (planning attempt a s).2)
  unfold planning
  rw [run_recording]
  show _ = (_, reported attempt (_, s.2 ++ [(s.1, a)]))
  simp only [reported, List.filterMap_append, List.filterMap_cons, List.filterMap_nil]
  cases attempt s.1 a <;> simp [Attempt.result, Attempt.site?, Attempt.failure?]

/-- **Reports are those of the attempts** — the sites of a walk, and its failures, are those of its
attempts, in order. -/
theorem attemptAll_reports (attempt : ImportPlan → Annotation → Attempt) (u : CompilationUnit) :
    (attemptAll attempt u).sites =
        (attempts attempt u).filterMap (fun (plan, a) => (attempt plan a).site?) ∧
      (attemptAll attempt u).failures =
        (attempts attempt u).filterMap fun (plan, a) => (attempt plan a).failure? := by
  have run := CompilationUnit.mapAnnotationsM_shadows (shadows_reported attempt) u (.ofUnit u, [])
  have walk := attemptAll_eq_recording attempt u
  have start : reported attempt (.ofUnit u, []) = ({ plan := .ofUnit u }, []) := rfl
  rw [start] at run
  unfold attempts
  rw [run] at walk ⊢
  rw [walk]
  exact ⟨rfl, rfl⟩

/-! ## Walks that overlook their failures -/

/-- The walk without its failures, the record kept. -/
def unfailing (s : Recorded) : Recorded := ({ s.1 with failures := [] }, s.2)

/-- A failure leaves the annotation, the plan, the sites and the record as an attempt that does not
apply does. -/
theorem shadows_lenient (attempt : ImportPlan → Annotation → Attempt) (a : Annotation) :
    Shadows unfailing (recording (fun plan a => (attempt plan a).lenient) a)
      (recording attempt a) := by
  intro s
  rw [run_recording, run_recording]
  show ((attempt s.1.plan a).lenient.result a _ |>.1, _) = _
  simp only [unfailing]
  cases attempt s.1.plan a <;> rfl

/-- **Failures change nothing** — overlooking the annotations on which a walk fails, the same annotations
are attempted, in the same state and with the same imports planned, and the walk comes to the same file,
plan of imports and sites. -/
theorem attemptAll_lenient (attempt : ImportPlan → Annotation → Attempt) (u : CompilationUnit) :
    let lenient := fun plan a => (attempt plan a).lenient
    attempts lenient u = attempts attempt u ∧
      attemptAll lenient u = { attemptAll attempt u with failures := [] } := by
  intro lenient
  have run := CompilationUnit.mapAnnotationsM_shadows (shadows_lenient attempt) u
    ({ plan := .ofUnit u }, [])
  have start : unfailing ({ plan := .ofUnit u }, []) = ({ plan := .ofUnit u }, []) := rfl
  rw [start] at run
  have walk := attemptAll_eq_recording lenient u
  have strict := attemptAll_eq_recording attempt u
  unfold attempts
  rw [run] at walk ⊢
  rw [walk, strict]
  exact ⟨rfl, rfl⟩

/-- **`lenientAttempt symbols targets plan a`** — the attempt, but an annotation for which the synthesis
fails is taken for one to which it does not apply. -/
def lenientAttempt (symbols : SymbolTable) (targets : Targets) (plan : ImportPlan) (a : Annotation) :
    Attempt :=
  if (synthesisFailure? symbols targets plan a).isSome then .notApplicable
  else attempt symbols targets plan a

/-- The failures that attempts report are those of the syntheses. -/
theorem failure?_attempt (symbols : SymbolTable) (targets : Targets) (plan : ImportPlan) (a : Annotation) :
    (attempt symbols targets plan a).failure? = synthesisFailure? symbols targets plan a := by
  refine Option.ext fun failure => ?_
  rw [← attempt_eq_failed]
  cases attempt symbols targets plan a <;> simp [Attempt.failure?]

theorem lenient_attempt (symbols : SymbolTable) (targets : Targets) :
    (fun plan a => (attempt symbols targets plan a).lenient) = lenientAttempt symbols targets := by
  funext plan a
  rw [lenientAttempt, ← failure?_attempt]
  cases attempt symbols targets plan a <;> rfl

/-- **Failures are isolated** — making the associations of a file lazy comes to the same file, import plan
and sites as a walk that takes every annotation for which the synthesis fails for one to which the attempt
does not apply; on the way, both attempt the same annotations with the same imports planned. What fails is
reported, each annotation once, and nothing else is. -/
theorem makeLazy_isolates_failures (catalog : Catalog) (n : Namespace) (u : CompilationUnit) :
    let symbols := SymbolTable.ofUnit u catalog
    let strict := attempt symbols (.ofNamespace n)
    let lenient := lenientAttempt symbols (.ofNamespace n)
    attempts lenient u = attempts strict u ∧
      (attemptAll lenient u).unit = (makeLazy catalog (.ofNamespace n) u).unit ∧
      (attemptAll lenient u).plan = (makeLazy catalog (.ofNamespace n) u).plan ∧
      (attemptAll lenient u).sites = (makeLazy catalog (.ofNamespace n) u).sites ∧
      (attemptAll lenient u).failures = [] ∧
      (makeLazy catalog (.ofNamespace n) u).failures =
        (attempts strict u).filterMap fun (plan, a) => synthesisFailure? symbols (.ofNamespace n) plan a := by
  intro symbols strict lenient
  obtain ⟨record, walk⟩ := attemptAll_lenient strict u
  rw [lenient_attempt] at record walk
  have failures := (attemptAll_reports strict u).2
  simp only [strict, failure?_attempt] at failures
  rw [walk]
  exact ⟨record, rfl, rfl, rfl, rfl, failures⟩

/-- An association cannot be rewritten, but the one within it can. -/
example :
    let source := "import jakarta.persistence.*; class A \x7b @ManyToOne(@OneToOne) B b; \x7d"
    ((parseUnit source).toExcept.toOption.map fun u =>
        let outcome := makeLazy (.persistence .jakarta) (.ofNamespace .jakarta) u
        (outcome.failures.map Failure.before, outcome.sites.map Site.before)) =
    some (["@ManyToOne(@OneToOne(fetch = FetchType.LAZY))"], ["@OneToOne"]) := by
  decide +kernel

end DeferFetch
