/-
# DeferFetch.Proofs.Walk.Visit — what a walk does to one annotation.

The attempt decides what a visit comes to. Here are its cases as an equation, and what follows for a
walk in which no attempt applies.
-/
import DeferFetch.Proofs.Walk.Annotations
import DeferFetch.Laziness.Sites

namespace DeferFetch

/-- **`Attempt.result attempt a s`** — the annotation and the state after an attempt on `a`. -/
def Attempt.result (a : Annotation) (s : WalkState) : Attempt → Annotation × WalkState
  | .notApplicable => (a, s)
  | .alreadyLazy plan => (a, { s with plan })
  | .replaced site replacement plan =>
    (replacement, { s with plan, sites := s.sites ++ [site] })
  | .failed failure => (a, { s with failures := s.failures ++ [failure] })

/-- Visiting an annotation is attempting it with the imports planned so far. -/
theorem run_visit (attempt : ImportPlan → Annotation → Attempt) (a : Annotation) (s : WalkState) :
    (visit attempt a).run s = (attempt s.plan a).result a s := by
  show (visit attempt a) s = _
  unfold visit
  simp only [bind, StateT.bind, get, getThe, MonadStateOf.get, StateT.get, pure]
  cases attempt s.plan a <;> rfl

/-- A walk in which no attempt applies changes nothing. -/
theorem attemptAll_idle {attempt : ImportPlan → Annotation → Attempt} {u : CompilationUnit}
    (h : ∀ a ∈ u.annotations, attempt (.ofUnit u) a = .notApplicable) :
    attemptAll attempt u = ⟨u, .ofUnit u, [], []⟩ := by
  have idle : (u.mapAnnotationsM (visit attempt)).run { plan := .ofUnit u } =
      (u, { plan := .ofUnit u }) := by
    refine CompilationUnit.mapAnnotationsM_idle fun a ha => ?_
    rw [run_visit, h a ha, Attempt.result]
  simp only [attemptAll, idle]

end DeferFetch
