/-
# DeferFetch.Proofs.Walk.Trace — walks that keep a record.

A walk whose state holds more than another one's, and that does the same through a projection, gives
the same file (`CompilationUnit.mapAnnotationsM_shadows`). So the attempts of a walk can be recorded:
`attempts` lists, for every annotation, the imports planned when it was attempted and the annotation
as it was then, with its inner ones replaced.
-/
import DeferFetch.Proofs.Walk.Visit

namespace DeferFetch

variable {σ τ α β : Type}

/-! ## Walks seen through a projection -/

/-- **`Shadows π x y`** — seen through `π`, the computation `y` does what `x` does. -/
def Shadows (π : τ → σ) (x : StateM σ α) (y : StateM τ α) : Prop :=
  ∀ t, x.run (π t) = ((y.run t).1, π (y.run t).2)

namespace Shadows

variable {π : τ → σ}

protected theorem pure (a : α) : Shadows π (pure a) (pure a) := fun _ => rfl

protected theorem bind {x : StateM σ α} {y : StateM τ α} {f : α → StateM σ β} {g : α → StateM τ β}
    (h : Shadows π x y) (next : ∀ a, Shadows π (f a) (g a)) : Shadows π (x >>= f) (y >>= g) := by
  intro t
  rw [run_bind_state, run_bind_state, h t]
  exact next _ _

protected theorem map {x : StateM σ α} {y : StateM τ α} (f : α → β) (h : Shadows π x y) :
    Shadows π (f <$> x) (f <$> y) := by
  intro t
  rw [run_map_state, run_map_state, h t]

protected theorem mapM {f : α → StateM σ β} {g : α → StateM τ β} (h : ∀ a, Shadows π (f a) (g a))
    (as : List α) : Shadows π (as.mapM f) (as.mapM g) := by
  induction as with
  | nil =>
    rw [List.mapM_nil, List.mapM_nil]
    exact .pure _
  | cons a as ih =>
    rw [List.mapM_cons, List.mapM_cons]
    exact .bind (h a) fun b => .bind ih fun bs => .pure _

end Shadows

section Walks

variable {π : τ → σ} {visit : Annotation → StateM σ Annotation}
  {visit' : Annotation → StateM τ Annotation}

mutual

theorem TokenTree.mapAnnotationsM_shadows (h : ∀ a, Shadows π (visit a) (visit' a))
    (tree : TokenTree) :
    Shadows π (tree.mapAnnotationsM visit) (tree.mapAnnotationsM visit') := by
  match tree with
  | .token _ => exact .pure _
  | .group ⟨_, _, trees, _⟩ =>
    simp only [TokenTree.mapAnnotationsM]
    exact .bind (TokenTree.listMapAnnotationsM_shadows h trees) fun _ => .pure _
  | .annot a =>
    simp only [TokenTree.mapAnnotationsM]
    exact .map _ (a.mapAnnotationsM_shadows h)

theorem TokenTree.listMapAnnotationsM_shadows (h : ∀ a, Shadows π (visit a) (visit' a))
    (trees : List TokenTree) :
    Shadows π (TokenTree.listMapAnnotationsM visit trees)
      (TokenTree.listMapAnnotationsM visit' trees) := by
  match trees with
  | [] => exact .pure _
  | tree :: trees =>
    simp only [TokenTree.listMapAnnotationsM]
    exact .bind (TokenTree.mapAnnotationsM_shadows h tree) fun _ =>
      .bind (TokenTree.listMapAnnotationsM_shadows h trees) fun _ => .pure _

theorem Annotation.mapAnnotationsM_shadows (h : ∀ a, Shadows π (visit a) (visit' a))
    (a : Annotation) :
    Shadows π (a.mapAnnotationsM visit) (a.mapAnnotationsM visit') := by
  match a with
  | ⟨_, _, none⟩ =>
    unfold Annotation.mapAnnotationsM
    exact h _
  | ⟨_, _, some ⟨_, arguments, _, _⟩⟩ =>
    unfold Annotation.mapAnnotationsM
    exact .bind (Argument.listMapAnnotationsM_shadows h arguments) fun _ => h _

theorem Argument.listMapAnnotationsM_shadows (h : ∀ a, Shadows π (visit a) (visit' a))
    (arguments : List Argument) :
    Shadows π (Argument.listMapAnnotationsM visit arguments)
      (Argument.listMapAnnotationsM visit' arguments) := by
  match arguments with
  | [] => exact .pure _
  | ⟨_, value⟩ :: arguments =>
    simp only [Argument.listMapAnnotationsM]
    exact .bind (ElementValue.mapAnnotationsM_shadows h value) fun _ =>
      .bind (Argument.listMapAnnotationsM_shadows h arguments) fun _ => .pure _

theorem ElementValue.mapAnnotationsM_shadows (h : ∀ a, Shadows π (visit a) (visit' a))
    (value : ElementValue) :
    Shadows π (value.mapAnnotationsM visit) (value.mapAnnotationsM visit') := by
  match value with
  | .expression trees =>
    simp only [ElementValue.mapAnnotationsM]
    exact .map _ (TokenTree.listMapAnnotationsM_shadows h trees)
  | .annot a =>
    simp only [ElementValue.mapAnnotationsM]
    exact .map _ (a.mapAnnotationsM_shadows h)
  | .array _ values _ _ =>
    simp only [ElementValue.mapAnnotationsM]
    exact .bind (ElementValue.listMapAnnotationsM_shadows h values) fun _ => .pure _

theorem ElementValue.listMapAnnotationsM_shadows (h : ∀ a, Shadows π (visit a) (visit' a))
    (values : List ElementValue) :
    Shadows π (ElementValue.listMapAnnotationsM visit values)
      (ElementValue.listMapAnnotationsM visit' values) := by
  match values with
  | [] => exact .pure _
  | value :: values =>
    simp only [ElementValue.listMapAnnotationsM]
    exact .bind (ElementValue.mapAnnotationsM_shadows h value) fun _ =>
      .bind (ElementValue.listMapAnnotationsM_shadows h values) fun _ => .pure _

end

theorem Group.mapAnnotationsM_shadows (h : ∀ a, Shadows π (visit a) (visit' a)) (g : Group) :
    Shadows π (g.mapAnnotationsM visit) (g.mapAnnotationsM visit') :=
  .bind (TokenTree.listMapAnnotationsM_shadows h g.trees) fun _ => .pure _

theorem Modifier.mapAnnotationsM_shadows (h : ∀ a, Shadows π (visit a) (visit' a)) (m : Modifier) :
    Shadows π (m.mapAnnotationsM visit) (m.mapAnnotationsM visit') := by
  cases m with
  | annot a => exact .map _ (a.mapAnnotationsM_shadows h)
  | keyword t => exact .pure _
  | contextual words => exact .pure _

theorem MethodBody.mapAnnotationsM_shadows (h : ∀ a, Shadows π (visit a) (visit' a))
    (body : MethodBody) :
    Shadows π (body.mapAnnotationsM visit) (body.mapAnnotationsM visit') := by
  cases body with
  | block g => exact .map _ (Group.mapAnnotationsM_shadows h g)
  | semicolon t => exact .pure _

mutual

theorem TypeDeclaration.mapAnnotationsM_shadows (h : ∀ a, Shadows π (visit a) (visit' a))
    (d : TypeDeclaration) :
    Shadows π (d.mapAnnotationsM visit) (d.mapAnnotationsM visit') := by
  match d with
  | ⟨modifiers, _, _, _, header, _, members, _⟩ =>
    simp only [TypeDeclaration.mapAnnotationsM]
    exact .bind (.mapM (Modifier.mapAnnotationsM_shadows h) modifiers) fun _ =>
      .bind (TokenTree.listMapAnnotationsM_shadows h header) fun _ =>
        .bind (Member.listMapAnnotationsM_shadows h members) fun _ => .pure _

theorem Member.mapAnnotationsM_shadows (h : ∀ a, Shadows π (visit a) (visit' a)) (m : Member) :
    Shadows π (m.mapAnnotationsM visit) (m.mapAnnotationsM visit') := by
  match m with
  | .field modifiers trees _ =>
    simp only [Member.mapAnnotationsM]
    exact .bind (.mapM (Modifier.mapAnnotationsM_shadows h) modifiers) fun _ =>
      .bind (TokenTree.listMapAnnotationsM_shadows h trees) fun _ => .pure _
  | .method modifiers signature body =>
    simp only [Member.mapAnnotationsM]
    exact .bind (.mapM (Modifier.mapAnnotationsM_shadows h) modifiers) fun _ =>
      .bind (TokenTree.listMapAnnotationsM_shadows h signature) fun _ =>
        .bind (MethodBody.mapAnnotationsM_shadows h body) fun _ => .pure _
  | .type declaration =>
    simp only [Member.mapAnnotationsM]
    exact .map _ (TypeDeclaration.mapAnnotationsM_shadows h declaration)
  | .block modifiers block =>
    simp only [Member.mapAnnotationsM]
    exact .bind (.mapM (Modifier.mapAnnotationsM_shadows h) modifiers) fun _ =>
      .bind (Group.mapAnnotationsM_shadows h block) fun _ => .pure _
  | .constants trees _ =>
    simp only [Member.mapAnnotationsM]
    exact .bind (TokenTree.listMapAnnotationsM_shadows h trees) fun _ => .pure _
  | .empty _ => exact .pure _

theorem Member.listMapAnnotationsM_shadows (h : ∀ a, Shadows π (visit a) (visit' a))
    (ms : List Member) :
    Shadows π (Member.listMapAnnotationsM visit ms) (Member.listMapAnnotationsM visit' ms) := by
  match ms with
  | [] => exact .pure _
  | m :: ms =>
    simp only [Member.listMapAnnotationsM]
    exact .bind (Member.mapAnnotationsM_shadows h m) fun _ =>
      .bind (Member.listMapAnnotationsM_shadows h ms) fun _ => .pure _

end

theorem TopLevel.mapAnnotationsM_shadows (h : ∀ a, Shadows π (visit a) (visit' a)) (d : TopLevel) :
    Shadows π (d.mapAnnotationsM visit) (d.mapAnnotationsM visit') := by
  cases d with
  | type d => exact .map _ (TypeDeclaration.mapAnnotationsM_shadows h d)
  | empty t => exact .pure _

/-- **Walks with more state** — a walk whose visits do the same through a projection does the same. -/
theorem CompilationUnit.mapAnnotationsM_shadows (h : ∀ a, Shadows π (visit a) (visit' a))
    (u : CompilationUnit) :
    Shadows π (u.mapAnnotationsM visit) (u.mapAnnotationsM visit') := by
  have package : Shadows π (u.package?.mapM (PackageDeclaration.mapAnnotationsM visit))
      (u.package?.mapM (PackageDeclaration.mapAnnotationsM visit')) := by
    cases u.package? with
    | none => exact .pure _
    | some p =>
      simp only [Option.mapM_some]
      exact .map _ (.bind (.mapM (·.mapAnnotationsM_shadows h) p.annotations) fun _ => .pure _)
  exact .bind package fun _ => .bind (.mapM (TopLevel.mapAnnotationsM_shadows h) u.types) fun _ => .pure _

end Walks

/-! ## Recording attempts -/

/-- The state of a walk, and what was attempted: the imports planned then, and the annotation. -/
abbrev Recorded := WalkState × List (ImportPlan × Annotation)

/-- **`recording attempt a`** — visits an annotation and keeps a record of the attempt. -/
def recording (attempt : ImportPlan → Annotation → Attempt) (a : Annotation) :
    StateM Recorded Annotation := do
  let (state, record) ← get
  let (b, next) := (visit attempt a).run state
  set (next, record ++ [(state.plan, a)])
  return b

theorem run_recording (attempt : ImportPlan → Annotation → Attempt) (a : Annotation) (s : Recorded) :
    (recording attempt a).run s =
      (((attempt s.1.plan a).result a s.1).1,
        (((attempt s.1.plan a).result a s.1).2, s.2 ++ [(s.1.plan, a)])) := by
  rw [← run_visit]
  rfl

/-- **`attempts attempt unit`** — what a walk over the file attempts, in order: the imports planned
until then and the annotation, in which those within its arguments have been replaced. -/
def attempts (attempt : ImportPlan → Annotation → Attempt) (unit : CompilationUnit) :
    List (ImportPlan × Annotation) :=
  ((unit.mapAnnotationsM (recording attempt)).run ({ plan := .ofUnit unit }, [])).2.2

/-- **The record is that of the walk** — keeping it changes neither the file nor the state. -/
theorem attemptAll_eq_recording (attempt : ImportPlan → Annotation → Attempt)
    (unit : CompilationUnit) :
    let (unit', state, _) := (unit.mapAnnotationsM (recording attempt)).run
      ({ plan := .ofUnit unit }, [])
    attemptAll attempt unit = ⟨unit', state.plan, state.sites, state.failures⟩ := by
  have shadows : ∀ a, Shadows Prod.fst (visit attempt a) (recording attempt a) := by
    intro a s
    rw [run_recording, run_visit]
  have := CompilationUnit.mapAnnotationsM_shadows shadows unit ({ plan := .ofUnit unit }, [])
  simp only [attemptAll]
  rw [this]
  rfl

/-- **`plans attempt unit`** — the import plans that a walk over the file comes to: before each
attempt, and in the end. -/
def plans (attempt : ImportPlan → Annotation → Attempt) (unit : CompilationUnit) : List ImportPlan :=
  (attempts attempt unit).map Prod.fst ++ [(attemptAll attempt unit).plan]

/-! ## Walks in which nothing is replaced -/

/-- **`attempt.Idle plan`** — the attempt replaces nothing and leaves the import plan as it is. It may fail. -/
def Attempt.Idle (plan : ImportPlan) : Attempt → Prop
  | .notApplicable => True
  | .alreadyLazy next => next = plan
  | .replaced .. => False
  | .failed _ => True

/-- The walk without its failures. -/
def unreported (attempt : ImportPlan → Annotation → Attempt) (a : Annotation) :
    StateM (ImportPlan × List Site) Annotation := fun (plan, sites) =>
  let (b, next) := (visit attempt a).run ⟨plan, sites, []⟩
  (b, next.plan, next.sites)

/-- **Walks that only fail** — a walk whose attempts replace nothing and plan nothing gives the file back,
without sites and with the plan it began with. -/
theorem attemptAll_of_idle {attempt : ImportPlan → Annotation → Attempt} {u : CompilationUnit}
    (h : ∀ a ∈ u.annotations, (attempt (.ofUnit u) a).Idle (.ofUnit u)) :
    (attemptAll attempt u).unit = u ∧ (attemptAll attempt u).plan = .ofUnit u ∧
      (attemptAll attempt u).sites = [] := by
  let plain (s : WalkState) : ImportPlan × List Site := (s.plan, s.sites)
  -- failures are reported and nothing else, so the walk is that over what they leave alone
  have shadows : ∀ a, Shadows plain (unreported attempt a) (visit attempt a) := by
    intro a s
    show unreported attempt a (plain s) = _
    simp only [unreported, plain, run_visit]
    cases attempt s.plan a <;> rfl
  have idle : (u.mapAnnotationsM (unreported attempt)).run (.ofUnit u, []) = (u, .ofUnit u, []) := by
    refine CompilationUnit.mapAnnotationsM_idle fun a ha => ?_
    show unreported attempt a (.ofUnit u, []) = _
    simp only [unreported, run_visit]
    have quiet := h a ha
    cases result : attempt (.ofUnit u) a with
    | notApplicable => rfl
    | failed => rfl
    | alreadyLazy next =>
      rw [result] at quiet
      rw [show next = .ofUnit u from quiet]
      rfl
    | replaced =>
      rw [result] at quiet
      exact quiet.elim
  have run := CompilationUnit.mapAnnotationsM_shadows shadows u { plan := .ofUnit u }
  rw [show plain { plan := .ofUnit u } = (.ofUnit u, []) from rfl, idle, Prod.mk.injEq,
    Prod.mk.injEq] at run
  exact ⟨run.1.symm, run.2.1.symm, run.2.2.symm⟩

end DeferFetch
