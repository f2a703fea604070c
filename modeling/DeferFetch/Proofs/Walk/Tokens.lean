/-
# DeferFetch.Proofs.Walk.Tokens — replacing the tokens of an annotation in order.

A walk that replaces every token of a tree does what going through the list of its tokens does: it has
the same effects, and the tokens of the new tree are the list of the new tokens (`tokens_mapTokensM`,
for any monad). So a callback with a state is handed the tokens in the order in which they are listed
(`Annotation.mapTokensM_follows_tokens`), whatever the lengths of the lists of commas.
-/
import DeferFetch.Proofs.Walk.Annotations

namespace DeferFetch

/-! ## In any monad -/

section Monadic

variable {m : Type → Type} [Monad m] [LawfulMonad m] (f : Token → m Token)

theorem NameSegment.tokens_mapM (segments : List NameSegment) :
    (List.flatMap fun segment : NameSegment => [segment.dot, segment.identifier]) <$>
        (segments.mapM fun segment => do
          let dot ← f segment.dot
          let identifier ← f segment.identifier
          return (⟨dot, identifier⟩ : NameSegment)) =
      (segments.flatMap fun segment => [segment.dot, segment.identifier]).mapM f := by
  induction segments with
  | nil => simp only [List.mapM_nil, List.flatMap_nil, map_pure]
  | cons segment segments ih =>
    simp only [List.flatMap_cons, List.mapM_append, List.mapM_cons, List.mapM_nil, ← ih,
      map_eq_pure_bind, bind_assoc, pure_bind]

theorem QualifiedName.tokens_mapTokensM (n : QualifiedName) :
    QualifiedName.tokens <$> n.mapTokensM f = n.tokens.mapM f := by
  simp only [QualifiedName.mapTokensM, QualifiedName.tokens, List.mapM_cons,
    ← NameSegment.tokens_mapM, map_eq_pure_bind, bind_assoc, pure_bind]

theorem labelTokens_mapLabelM (label : Option (Token × Token)) :
    labelTokens <$> mapLabelM f label = (labelTokens label).mapM f := by
  cases label <;>
    simp only [mapLabelM, labelTokens, List.mapM_cons, List.mapM_nil, map_eq_pure_bind, bind_assoc,
      pure_bind]

/-- Where there is no comma, a walk makes none. -/
theorem Argument.listMapTokensM_nil (arguments : List Argument) :
    ∃ walk : m (List Argument),
      Argument.listMapTokensM f arguments [] = (fun arguments => (arguments, [])) <$> walk := by
  induction arguments with
  | nil =>
    exact ⟨pure [], by simp only [Argument.listMapTokensM, List.mapM_nil, pure_bind, map_pure]⟩
  | cons a arguments ih =>
    obtain ⟨label, value⟩ := a
    obtain ⟨walk, h⟩ := ih
    refine ⟨do
      let label ← mapLabelM f label
      let value ← value.mapTokensM f
      let arguments ← walk
      return ⟨label, value⟩ :: arguments, ?_⟩
    simp only [Argument.listMapTokensM, h, map_eq_pure_bind, bind_assoc, pure_bind]

/-- Where there is no comma, a walk makes none. -/
theorem ElementValue.listMapTokensM_nil (values : List ElementValue) :
    ∃ walk : m (List ElementValue),
      ElementValue.listMapTokensM f values [] = (fun values => (values, [])) <$> walk := by
  induction values with
  | nil =>
    exact ⟨pure [], by simp only [ElementValue.listMapTokensM, List.mapM_nil, pure_bind, map_pure]⟩
  | cons value values ih =>
    obtain ⟨walk, h⟩ := ih
    refine ⟨do
      let value ← value.mapTokensM f
      let values ← walk
      return value :: values, ?_⟩
    simp only [ElementValue.listMapTokensM, h, map_eq_pure_bind, bind_assoc, pure_bind]

mutual

theorem TokenTree.tokens_mapTokensM (tree : TokenTree) :
    TokenTree.tokens <$> tree.mapTokensM f = tree.tokens.mapM f := by
  cases tree with
  | token t =>
    simp only [TokenTree.mapTokensM, TokenTree.tokens, List.mapM_cons, List.mapM_nil,
      map_eq_pure_bind, bind_assoc, pure_bind]
  | group g =>
    obtain ⟨_, opening, trees, closing⟩ := g
    simp only [TokenTree.mapTokensM, TokenTree.tokens, List.mapM_cons, List.mapM_append,
      List.mapM_nil, ← TokenTree.listTokens_mapTokensM trees, map_eq_pure_bind, bind_assoc,
      pure_bind]
  | annot a =>
    simp only [TokenTree.mapTokensM, TokenTree.tokens, ← Annotation.tokens_mapTokensM a,
      map_eq_pure_bind, bind_assoc, pure_bind]

theorem TokenTree.listTokens_mapTokensM (trees : List TokenTree) :
    TokenTree.listTokens <$> TokenTree.listMapTokensM f trees =
      (TokenTree.listTokens trees).mapM f := by
  match trees with
  | [] => simp only [TokenTree.listMapTokensM, TokenTree.listTokens, List.mapM_nil, map_pure]
  | tree :: trees =>
    simp only [TokenTree.listMapTokensM, TokenTree.listTokens, List.mapM_append,
      ← TokenTree.tokens_mapTokensM tree, ← TokenTree.listTokens_mapTokensM trees,
      map_eq_pure_bind, bind_assoc, pure_bind]

theorem Annotation.tokens_mapTokensM (a : Annotation) :
    Annotation.tokens <$> a.mapTokensM f = a.tokens.mapM f := by
  match a with
  | ⟨sigil, name, none⟩ =>
    simp only [List.mapM_cons, Annotation.tokens, Annotation.mapTokensM,
      ← QualifiedName.tokens_mapTokensM, map_eq_pure_bind, bind_assoc, pure_bind]
  | ⟨sigil, name, some ⟨opening, arguments, commas, closing⟩⟩ =>
    simp only [List.mapM_cons, Annotation.tokens, Annotation.mapTokensM, List.mapM_append,
      List.mapM_nil, ← QualifiedName.tokens_mapTokensM,
      ← Argument.listTokens_mapTokensM arguments commas, map_eq_pure_bind, bind_assoc, pure_bind]

theorem Argument.listTokens_mapTokensM (arguments : List Argument) (commas : List Token) :
    (fun p => Argument.listTokens p.1 p.2) <$> Argument.listMapTokensM f arguments commas =
      (Argument.listTokens arguments commas).mapM f := by
  match arguments, commas with
  | [], commas =>
    simp only [Argument.listMapTokensM, Argument.listTokens, map_eq_pure_bind, bind_assoc,
      pure_bind, bind_pure]
  | ⟨label, value⟩ :: arguments, [] =>
    -- without its commas the walk over the rest is known to give none either
    obtain ⟨walk, h⟩ := Argument.listMapTokensM_nil f arguments
    have rest := Argument.listTokens_mapTokensM arguments []
    simp only [Argument.listMapTokensM, Argument.listTokens, List.mapM_append,
      ← labelTokens_mapLabelM, ← ElementValue.tokens_mapTokensM value, ← rest, h,
      map_eq_pure_bind, bind_assoc, pure_bind]
  | ⟨label, value⟩ :: arguments, comma :: commas =>
    simp only [Argument.listMapTokensM, Argument.listTokens, List.mapM_append, List.mapM_cons,
      ← labelTokens_mapLabelM, ← ElementValue.tokens_mapTokensM value,
      ← Argument.listTokens_mapTokensM arguments commas, map_eq_pure_bind, bind_assoc, pure_bind]

theorem ElementValue.tokens_mapTokensM (value : ElementValue) :
    ElementValue.tokens <$> value.mapTokensM f = value.tokens.mapM f := by
  match value with
  | .expression trees =>
    simp only [ElementValue.mapTokensM, ElementValue.tokens,
      ← TokenTree.listTokens_mapTokensM trees, map_eq_pure_bind, bind_assoc, pure_bind]
  | .annot a =>
    simp only [ElementValue.mapTokensM, ElementValue.tokens, ← Annotation.tokens_mapTokensM a,
      map_eq_pure_bind, bind_assoc, pure_bind]
  | .array opening values commas closing =>
    simp only [ElementValue.mapTokensM, ElementValue.tokens, List.mapM_cons, List.mapM_append,
      List.mapM_nil, ← ElementValue.listTokens_mapTokensM values commas, map_eq_pure_bind,
      bind_assoc, pure_bind]

theorem ElementValue.listTokens_mapTokensM (values : List ElementValue) (commas : List Token) :
    (fun p => ElementValue.listTokens p.1 p.2) <$> ElementValue.listMapTokensM f values commas =
      (ElementValue.listTokens values commas).mapM f := by
  match values, commas with
  | [], commas =>
    simp only [ElementValue.listMapTokensM, ElementValue.listTokens, map_eq_pure_bind, bind_assoc,
      pure_bind, bind_pure]
  | value :: values, [] =>
    obtain ⟨walk, h⟩ := ElementValue.listMapTokensM_nil f values
    have rest := ElementValue.listTokens_mapTokensM values []
    simp only [ElementValue.listMapTokensM, ElementValue.listTokens, List.mapM_append,
      ← ElementValue.tokens_mapTokensM value, ← rest, h, map_eq_pure_bind, bind_assoc, pure_bind]
  | value :: values, comma :: commas =>
    simp only [ElementValue.listMapTokensM, ElementValue.listTokens, List.mapM_append,
      List.mapM_cons, ← ElementValue.tokens_mapTokensM value,
      ← ElementValue.listTokens_mapTokensM values commas, map_eq_pure_bind, bind_assoc, pure_bind]

end

end Monadic

/-! ## With a state -/

section Stateful

variable {σ : Type}

/-- **`noting f`** — the callback `f` that also notes down every token it is handed. -/
def noting (f : Token → StateM σ Token) (t : Token) : StateM (σ × List Token) Token :=
  fun (s, seen) =>
    let (t', s') := (f t).run s
    (t', s', seen ++ [t])

/-- Going through a list notes the list down, and does with the tokens what it does without notes. -/
theorem run_mapM_noting (f : Token → StateM σ Token) (ts : List Token) (s : σ) (seen : List Token) :
    (ts.mapM (noting f)).run (s, seen) =
      (((ts.mapM f).run s).1, ((ts.mapM f).run s).2, seen ++ ts) := by
  induction ts generalizing s seen with
  | nil => simp only [List.mapM_nil, run_pure_state, List.append_nil]
  | cons t ts ih =>
    have first : (noting f t).run (s, seen) = (((f t).run s).1, ((f t).run s).2, seen ++ [t]) := rfl
    simp only [List.mapM_cons, run_bind_state, run_pure_state, first, ih, List.append_assoc,
      List.singleton_append]

/-- **Replacing the tokens of an annotation follows the list of its tokens**: the callback is handed the
listed tokens one after another, and the new annotation lists what it makes of them in that order and
ends in the state in which going through the list ends. -/
theorem Annotation.mapTokensM_follows_tokens (f : Token → StateM σ Token) (a : Annotation) (s : σ) :
    ((a.mapTokensM (noting f)).run (s, [])).2.2 = a.tokens ∧
      (((a.mapTokensM f).run s).1.tokens, ((a.mapTokensM f).run s).2) = (a.tokens.mapM f).run s := by
  constructor
  · have noted := congrArg (fun walk => (StateT.run walk (s, [])).2.2)
      (a.tokens_mapTokensM (noting f))
    simpa only [run_map_state, run_mapM_noting, List.nil_append] using noted
  · exact congrArg (StateT.run · s) (a.tokens_mapTokensM f)

end Stateful

end DeferFetch
