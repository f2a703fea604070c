/-
# DeferFetch.Proofs.Naming.Values — the types of values, and which of them is a lazy fetch.

The type of a value depends on the kinds of its tokens alone, so a value over other tokens has the
same type. Whether an argument is a lazy fetch depends on its text besides.
-/
import DeferFetch.Proofs.Grammar.Relabel
import DeferFetch.Proofs.Lexing.Reading
import DeferFetch.Laziness.Directive

namespace DeferFetch

namespace Scope

variable {f : Token → Token} (hf : ∀ t, (f t).kind = t.kind) (s : Scope)

/-- The tokens that trees consist of, over other tokens. -/
theorem mapM_token?_mapTokens (trees : List TokenTree) :
    (trees.map (TokenTree.mapTokens f)).mapM TokenTree.token? =
      (trees.mapM TokenTree.token?).map (List.map f) := by
  induction trees with
  | nil => rfl
  | cons tree trees ih =>
    rw [List.map_cons, List.mapM_cons, List.mapM_cons, ih]
    cases tree with
    | token t =>
      rw [TokenTree.mapTokens_token]
      cases trees.mapM TokenTree.token? <;> rfl
    | group g =>
      obtain ⟨_, _, _, _⟩ := g
      rw [TokenTree.mapTokens_group]
      rfl
    | annot a =>
      rw [TokenTree.mapTokens_annot]
      rfl

include hf

mutual

theorem treesType?_mapTokens (trees : List TokenTree) :
    s.treesType? (trees.map (TokenTree.mapTokens f)) = s.treesType? trees := by
  match trees with
  | [] => rfl
  | [tree] =>
    rw [List.map_cons, List.map_nil, treesType?, treesType?]
    exact treeType?_mapTokens tree
  | tree :: tree' :: trees =>
    have kindsEq (ts : List Token) : (ts.map f).map Token.kind = ts.map Token.kind := by
      simp [hf]
    have whole := mapM_token?_mapTokens (f := f) (tree :: tree' :: trees)
    rw [List.map_cons, List.map_cons] at whole ⊢
    rw [treesType?, treesType?, whole]
    · cases (tree :: tree' :: trees).mapM TokenTree.token? with
      | none => rfl
      | some ts => simp only [Option.map_some, Option.bind_some, kindsEq]
    · exact nofun
    · exact nofun

theorem treeType?_mapTokens (tree : TokenTree) :
    s.treeType? (tree.mapTokens f) = s.treeType? tree := by
  match tree with
  | .token t => rw [TokenTree.mapTokens_token, treeType?, treeType?, hf]
  | .group ⟨_, _, trees, _⟩ =>
    rw [TokenTree.mapTokens_group, treeType?, treeType?]
    exact treesType?_mapTokens trees
  | .annot a => rw [TokenTree.mapTokens_annot, treeType?, treeType?]

end

theorem annotationType?_mapTokens (a : Annotation) :
    s.annotationType? (a.mapTokens f) = s.annotationType? a := by
  rw [annotationType?, annotationType?, Annotation.name_mapTokens, QualifiedName.dotted_mapTokens hf]

/-- A value has the same type over other tokens of the same kinds. -/
theorem valueType?_mapTokens (value : ElementValue) :
    s.valueType? (value.mapTokens f) = s.valueType? value := by
  match value with
  | .expression trees =>
    rw [ElementValue.mapTokens_expression, valueType?, valueType?, treesType?_mapTokens hf]
  | .annot a =>
    rw [ElementValue.mapTokens_annot, valueType?, valueType?, annotationType?_mapTokens hf]
  | .array _ [] _ _ => rw [ElementValue.mapTokens_array, List.map_nil, valueType?, valueType?]
  | .array _ (value :: _) _ _ =>
    rw [ElementValue.mapTokens_array, List.map_cons, valueType?, valueType?,
      valueType?_mapTokens value]

end Scope

/-! ## Lazy fetches -/

theorem Argument.name?_mapTokens {f : Token → Token} (hf : ∀ t, (f t).kind = t.kind) (a : Argument) :
    (a.mapTokens f).name? = a.name? := by
  obtain ⟨_ | ⟨name, equals⟩, value⟩ := a
  · rfl
  · simp [Argument.mapTokens, Argument.name?, mapLabel, Token.text, hf]

/-- Whether an argument is a lazy fetch does not depend on where its tokens stand. -/
theorem isLazyFetch_bare (s : Scope) (targets : Targets) (a : Argument) :
    isLazyFetch s targets (a.mapTokens Token.bare) = isLazyFetch s targets a := by
  have source : (a.value.mapTokens Token.bare).source = a.value.source := by
    rw [ElementValue.source, ElementValue.tokens_mapTokens, print_bare, ElementValue.source]
  have value : (a.mapTokens Token.bare).value = a.value.mapTokens Token.bare := rfl
  rw [isLazyFetch, isLazyFetch, Argument.name?_mapTokens Token.kind_bare, value, source,
    Scope.valueType?_mapTokens Token.kind_bare]

end DeferFetch
