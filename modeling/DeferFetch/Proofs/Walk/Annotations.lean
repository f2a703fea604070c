/-
# DeferFetch.Proofs.Walk.Annotations — the annotations of a file.

Every annotation that stands anywhere in a tree is listed, those within an annotation's arguments
before the annotation itself: that is the order in which the walk comes to them. The tokens of each
stand in a row among those of the tree. A walk that leaves each of them alone leaves the tree alone
(`CompilationUnit.mapAnnotationsM_idle`).
-/
import DeferFetch.Syntax.Traversal

namespace DeferFetch

/-! ## Listing annotations -/

mutual

/-- **`tree.annotations`** — the annotations of a tree. -/
def TokenTree.annotations : TokenTree → List Annotation
  | .token _ => []
  | .group ⟨_, _, trees, _⟩ => TokenTree.listAnnotations trees
  | .annot a => a.annotations

/-- The annotations of several trees. -/
def TokenTree.listAnnotations : List TokenTree → List Annotation
  | [] => []
  | tree :: trees => tree.annotations ++ TokenTree.listAnnotations trees

/-- **`a.annotations`** — the annotations within the arguments, and then the annotation. -/
def Annotation.annotations : Annotation → List Annotation
  | ⟨sigil, name, none⟩ => [⟨sigil, name, none⟩]
  | ⟨sigil, name, some ⟨opening, arguments, commas, closing⟩⟩ =>
    Argument.listAnnotations arguments ++ [⟨sigil, name, some ⟨opening, arguments, commas, closing⟩⟩]

/-- The annotations of several arguments. -/
def Argument.listAnnotations : List Argument → List Annotation
  | [] => []
  | ⟨_, value⟩ :: arguments => value.annotations ++ Argument.listAnnotations arguments

/-- **`value.annotations`** — the annotations of an element value. -/
def ElementValue.annotations : ElementValue → List Annotation
  | .expression trees => TokenTree.listAnnotations trees
  | .annot a => a.annotations
  | .array _ values _ _ => ElementValue.listAnnotations values

/-- The annotations of several values. -/
def ElementValue.listAnnotations : List ElementValue → List Annotation
  | [] => []
  | value :: values => value.annotations ++ ElementValue.listAnnotations values

end

/-- The annotations of a group. -/
def Group.annotations (g : Group) : List Annotation := TokenTree.listAnnotations g.trees

/-- The annotations of a modifier. -/
def Modifier.annotations : Modifier → List Annotation
  | .annot a => a.annotations
  | _ => []

/-- The annotations of a method's body. -/
def MethodBody.annotations : MethodBody → List Annotation
  | .block g => g.annotations
  | .semicolon _ => []

mutual

/-- **`d.allAnnotations`** — the annotations of a type declaration and of all that is in it. -/
def TypeDeclaration.allAnnotations : TypeDeclaration → List Annotation
  | ⟨modifiers, _, _, _, header, _, members, _⟩ =>
    modifiers.flatMap Modifier.annotations ++ TokenTree.listAnnotations header
      ++ Member.listAnnotations members

/-- **`m.annotations`** — the annotations of a member. -/
def Member.annotations : Member → List Annotation
  | .field modifiers trees _ =>
    modifiers.flatMap Modifier.annotations ++ TokenTree.listAnnotations trees
  | .method modifiers trees body =>
    modifiers.flatMap Modifier.annotations ++ TokenTree.listAnnotations trees ++ body.annotations
  | .type d => d.allAnnotations
  | .block modifiers block => modifiers.flatMap Modifier.annotations ++ block.annotations
  | .constants trees _ => TokenTree.listAnnotations trees
  | .empty _ => []

/-- The annotations of several members. -/
def Member.listAnnotations : List Member → List Annotation
  | [] => []
  | m :: ms => m.annotations ++ Member.listAnnotations ms

end

/-- The annotations of a declaration at the top of a file. -/
def TopLevel.annotations : TopLevel → List Annotation
  | .type d => d.allAnnotations
  | .empty _ => []

/-- **`u.annotations`** — every annotation of a file, in the order in which a walk comes to them. -/
def CompilationUnit.annotations (u : CompilationUnit) : List Annotation :=
  (u.package?.map fun p => p.annotations.flatMap Annotation.annotations).getD []
    ++ u.types.flatMap TopLevel.annotations

/-! ## Walks that change nothing -/

section Idle

variable {σ : Type}

theorem run_pure_state {α : Type} (a : α) (s : σ) : (pure a : StateM σ α).run s = (a, s) := rfl

theorem run_map_state {α β : Type} (f : α → β) (x : StateM σ α) (s : σ) :
    (f <$> x).run s = (f (x.run s).1, (x.run s).2) := rfl

theorem run_bind_state {α β : Type} (x : StateM σ α) (f : α → StateM σ β) (s : σ) :
    (x >>= f).run s = (f (x.run s).1).run (x.run s).2 := rfl

variable {visit : Annotation → StateM σ Annotation} {s : σ}

mutual

theorem TokenTree.mapAnnotationsM_idle {tree : TokenTree}
    (h : ∀ a ∈ tree.annotations, (visit a).run s = (a, s)) :
    (tree.mapAnnotationsM visit).run s = (tree, s) := by
  match tree with
  | .token t => rfl
  | .group ⟨d, opening, trees, closing⟩ =>
    simp only [TokenTree.mapAnnotationsM, TokenTree.listMapAnnotationsM_idle h,
      run_bind_state, run_pure_state]
  | .annot a => simp only [TokenTree.mapAnnotationsM, Annotation.mapAnnotationsM_idle h,
      run_map_state]

theorem TokenTree.listMapAnnotationsM_idle {trees : List TokenTree}
    (h : ∀ a ∈ TokenTree.listAnnotations trees, (visit a).run s = (a, s)) :
    (TokenTree.listMapAnnotationsM visit trees).run s = (trees, s) := by
  match trees with
  | [] => rfl
  | tree :: trees =>
    rw [TokenTree.listAnnotations, List.forall_mem_append] at h
    simp only [TokenTree.listMapAnnotationsM, TokenTree.mapAnnotationsM_idle h.1,
      TokenTree.listMapAnnotationsM_idle h.2,
      run_bind_state, run_pure_state]

theorem Annotation.mapAnnotationsM_idle {a : Annotation}
    (h : ∀ b ∈ a.annotations, (visit b).run s = (b, s)) :
    (a.mapAnnotationsM visit).run s = (a, s) := by
  match a with
  | ⟨sigil, name, none⟩ => exact h _ (List.mem_singleton_self _)
  | ⟨sigil, name, some ⟨opening, arguments, commas, closing⟩⟩ =>
    unfold Annotation.annotations at h
    rw [List.forall_mem_append] at h
    simp only [Argument.listMapAnnotationsM_idle h.1, Annotation.mapAnnotationsM,
      h.2 _ (List.mem_singleton_self _),
      run_bind_state]

theorem Argument.listMapAnnotationsM_idle {arguments : List Argument}
    (h : ∀ a ∈ Argument.listAnnotations arguments, (visit a).run s = (a, s)) :
    (Argument.listMapAnnotationsM visit arguments).run s = (arguments, s) := by
  match arguments with
  | [] => rfl
  | ⟨label, value⟩ :: arguments =>
    rw [Argument.listAnnotations, List.forall_mem_append] at h
    simp only [Argument.listMapAnnotationsM, ElementValue.mapAnnotationsM_idle h.1,
      Argument.listMapAnnotationsM_idle h.2,
      run_bind_state, run_pure_state]

theorem ElementValue.mapAnnotationsM_idle {value : ElementValue}
    (h : ∀ a ∈ value.annotations, (visit a).run s = (a, s)) :
    (value.mapAnnotationsM visit).run s = (value, s) := by
  match value with
  | .expression trees =>
    simp only [ElementValue.mapAnnotationsM, TokenTree.listMapAnnotationsM_idle h,
      run_map_state]
  | .annot a => simp only [ElementValue.mapAnnotationsM, Annotation.mapAnnotationsM_idle h,
      run_map_state]
  | .array opening values commas closing =>
    simp only [ElementValue.mapAnnotationsM, ElementValue.listMapAnnotationsM_idle h,
      run_bind_state, run_pure_state]

theorem ElementValue.listMapAnnotationsM_idle {values : List ElementValue}
    (h : ∀ a ∈ ElementValue.listAnnotations values, (visit a).run s = (a, s)) :
    (ElementValue.listMapAnnotationsM visit values).run s = (values, s) := by
  match values with
  | [] => rfl
  | value :: values =>
    rw [ElementValue.listAnnotations, List.forall_mem_append] at h
    simp only [ElementValue.listMapAnnotationsM, ElementValue.mapAnnotationsM_idle h.1,
      ElementValue.listMapAnnotationsM_idle h.2,
      run_bind_state, run_pure_state]

end

/-- Going through a list without a change to it or to the state. -/
theorem mapM_idle {α : Type} {f : α → StateM σ α} {as : List α} (h : ∀ a ∈ as, (f a).run s = (a, s)) :
    (as.mapM f).run s = (as, s) := by
  induction as with
  | nil => simp only [List.mapM_nil, run_pure_state]
  | cons a as ih =>
    obtain ⟨ha, has⟩ := List.forall_mem_cons.1 h
    simp only [List.mapM_cons, run_bind_state, run_pure_state, ha, ih has]

theorem Group.mapAnnotationsM_idle {g : Group}
    (h : ∀ a ∈ g.annotations, (visit a).run s = (a, s)) :
    (g.mapAnnotationsM visit).run s = (g, s) := by
  cases g
  simp only [Group.annotations] at h
  simp only [Group.mapAnnotationsM, TokenTree.listMapAnnotationsM_idle h,
      run_bind_state, run_pure_state]

theorem Modifier.mapAnnotationsM_idle {m : Modifier}
    (h : ∀ a ∈ m.annotations, (visit a).run s = (a, s)) :
    (m.mapAnnotationsM visit).run s = (m, s) := by
  match m with
  | .annot a => simp only [Modifier.mapAnnotationsM, Annotation.mapAnnotationsM_idle h,
      run_map_state]
  | .keyword t => rfl
  | .contextual words => rfl

theorem Modifier.listMapAnnotationsM_idle {ms : List Modifier}
    (h : ∀ a ∈ ms.flatMap Modifier.annotations, (visit a).run s = (a, s)) :
    (ms.mapM fun m : Modifier => m.mapAnnotationsM visit).run s = (ms, s) :=
  mapM_idle fun m hm => Modifier.mapAnnotationsM_idle fun a ha =>
    h a (List.mem_flatMap.2 ⟨m, hm, ha⟩)

theorem MethodBody.mapAnnotationsM_idle {body : MethodBody}
    (h : ∀ a ∈ body.annotations, (visit a).run s = (a, s)) :
    (body.mapAnnotationsM visit).run s = (body, s) := by
  match body with
  | .block g => simp only [MethodBody.mapAnnotationsM, Group.mapAnnotationsM_idle h,
      run_map_state]
  | .semicolon t => rfl

mutual

theorem TypeDeclaration.mapAnnotationsM_idle {d : TypeDeclaration}
    (h : ∀ a ∈ d.allAnnotations, (visit a).run s = (a, s)) :
    (d.mapAnnotationsM visit).run s = (d, s) := by
  match d with
  | ⟨modifiers, kind, introducer, name, header, opening, members, closing⟩ =>
    rw [TypeDeclaration.allAnnotations, List.forall_mem_append, List.forall_mem_append] at h
    simp only [TypeDeclaration.mapAnnotationsM, Modifier.listMapAnnotationsM_idle h.1.1,
      TokenTree.listMapAnnotationsM_idle h.1.2, Member.listMapAnnotationsM_idle h.2,
      run_bind_state, run_pure_state]

theorem Member.mapAnnotationsM_idle {m : Member}
    (h : ∀ a ∈ m.annotations, (visit a).run s = (a, s)) :
    (m.mapAnnotationsM visit).run s = (m, s) := by
  match m with
  | .field modifiers trees semicolon =>
    rw [Member.annotations, List.forall_mem_append] at h
    simp only [Member.mapAnnotationsM, Modifier.listMapAnnotationsM_idle h.1,
      TokenTree.listMapAnnotationsM_idle h.2,
      run_bind_state, run_pure_state]
  | .method modifiers trees body =>
    rw [Member.annotations, List.forall_mem_append, List.forall_mem_append] at h
    simp only [Member.mapAnnotationsM, Modifier.listMapAnnotationsM_idle h.1.1,
      TokenTree.listMapAnnotationsM_idle h.1.2, MethodBody.mapAnnotationsM_idle h.2,
      run_bind_state, run_pure_state]
  | .type d => simp only [Member.mapAnnotationsM, TypeDeclaration.mapAnnotationsM_idle h,
      run_map_state]
  | .block modifiers block =>
    rw [Member.annotations, List.forall_mem_append] at h
    simp only [Member.mapAnnotationsM, Modifier.listMapAnnotationsM_idle h.1,
      Group.mapAnnotationsM_idle h.2,
      run_bind_state, run_pure_state]
  | .constants trees semicolon =>
    simp only [Member.mapAnnotationsM, TokenTree.listMapAnnotationsM_idle h,
      run_bind_state, run_pure_state]
  | .empty semicolon => rfl

theorem Member.listMapAnnotationsM_idle {ms : List Member}
    (h : ∀ a ∈ Member.listAnnotations ms, (visit a).run s = (a, s)) :
    (Member.listMapAnnotationsM visit ms).run s = (ms, s) := by
  match ms with
  | [] => rfl
  | m :: ms =>
    rw [Member.listAnnotations, List.forall_mem_append] at h
    simp only [Member.listMapAnnotationsM, Member.mapAnnotationsM_idle h.1,
      Member.listMapAnnotationsM_idle h.2,
      run_bind_state, run_pure_state]

end

theorem TopLevel.mapAnnotationsM_idle {d : TopLevel}
    (h : ∀ a ∈ d.annotations, (visit a).run s = (a, s)) :
    (d.mapAnnotationsM visit).run s = (d, s) := by
  match d with
  | .type d => simp only [TopLevel.mapAnnotationsM, TypeDeclaration.mapAnnotationsM_idle h,
      run_map_state]
  | .empty t => rfl

/-- **Idle walks** — a walk that leaves every annotation and the state alone gives the file back. -/
theorem CompilationUnit.mapAnnotationsM_idle {u : CompilationUnit}
    (h : ∀ a ∈ u.annotations, (visit a).run s = (a, s)) :
    (u.mapAnnotationsM visit).run s = (u, s) := by
  obtain ⟨package?, imports, types, eof⟩ := u
  rw [CompilationUnit.annotations, List.forall_mem_append] at h
  have htypes : (types.mapM fun d : TopLevel => d.mapAnnotationsM visit).run s = (types, s) :=
    mapM_idle fun d hd => TopLevel.mapAnnotationsM_idle fun a ha =>
      h.2 a (List.mem_flatMap.2 ⟨d, hd, ha⟩)
  cases package? with
  | none => simp only [CompilationUnit.mapAnnotationsM, htypes, Option.mapM_none,
      run_bind_state, run_pure_state]
  | some p =>
    have hp : (p.annotations.mapM fun a : Annotation => a.mapAnnotationsM visit).run s = (p.annotations, s) :=
      mapM_idle fun a ha => Annotation.mapAnnotationsM_idle fun b hb =>
        h.1 b (List.mem_flatMap.2 ⟨a, ha, hb⟩)
    simp only [CompilationUnit.mapAnnotationsM, Option.mapM_some, PackageDeclaration.mapAnnotationsM, hp,
      htypes, run_bind_state, run_map_state, run_pure_state]

end Idle

end DeferFetch
