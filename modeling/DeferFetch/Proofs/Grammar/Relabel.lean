/-
# DeferFetch.Proofs.Grammar.Relabel — the same tree over other tokens.

Which tree some tokens form depends on nothing but their kinds. So a tree can be carried over to any
other tokens of the same kinds (`exists_relabel`), and it fits there just as before.
-/
import DeferFetch.Proofs.Grammar.Fits
import DeferFetch.Proofs.Walk.Tokens

namespace DeferFetch

/-! ## Replacing tokens -/

/-- Replaces the tokens of a name. -/
def QualifiedName.mapTokens (f : Token → Token) (n : QualifiedName) : QualifiedName :=
  ⟨f n.first, n.others.map fun segment => ⟨f segment.dot, f segment.identifier⟩⟩

/-- Replaces the tokens of an argument's name and equals sign. -/
def mapLabel (f : Token → Token) (label : Option (Token × Token)) : Option (Token × Token) :=
  label.map fun (name, equals) => (f name, f equals)

/-- Replaces the tokens of a tree. -/
def TokenTree.mapTokens (f : Token → Token) (tree : TokenTree) : TokenTree :=
  Id.run (tree.mapTokensM fun t => pure (f t))

/-- Replaces the tokens of an element value. -/
def ElementValue.mapTokens (f : Token → Token) (value : ElementValue) : ElementValue :=
  Id.run (value.mapTokensM fun t => pure (f t))

/-- Replaces the tokens of an argument. -/
def Argument.mapTokens (f : Token → Token) (a : Argument) : Argument :=
  ⟨mapLabel f a.label, a.value.mapTokens f⟩

section Equations

variable {f : Token → Token}

theorem QualifiedName.run_mapTokensM (n : QualifiedName) :
    Id.run (n.mapTokensM fun t => pure (f t)) = n.mapTokens f := by
  simp only [QualifiedName.mapTokensM, QualifiedName.mapTokens, pure_bind, Id.run_pure,
    List.mapM_pure]

theorem run_mapLabelM (label : Option (Token × Token)) :
    Id.run (mapLabelM (fun t => pure (f t)) label) = mapLabel f label := by
  cases label <;> rfl

theorem TokenTree.run_listMapTokensM (trees : List TokenTree) :
    Id.run (TokenTree.listMapTokensM (fun t => pure (f t)) trees) = trees.map (mapTokens f) := by
  induction trees with
  | nil => rfl
  | cons tree trees ih =>
    simp only [TokenTree.listMapTokensM, Id.run_bind, Id.run_pure, ih, List.map_cons]
    rfl

theorem TokenTree.mapTokens_token (t : Token) :
    (TokenTree.token t).mapTokens f = .token (f t) := by
  simp only [TokenTree.mapTokens, TokenTree.mapTokensM, Id.run_map, Id.run_pure]

theorem TokenTree.mapTokens_group (delimiter : Delimiter) (opening closing : Token)
    (trees : List TokenTree) :
    (TokenTree.group ⟨delimiter, opening, trees, closing⟩).mapTokens f =
      .group ⟨delimiter, f opening, trees.map (TokenTree.mapTokens f), f closing⟩ := by
  simp only [TokenTree.mapTokens, TokenTree.mapTokensM, Id.run_bind, Id.run_pure,
    TokenTree.run_listMapTokensM]

theorem TokenTree.mapTokens_annot (a : Annotation) :
    (TokenTree.annot a).mapTokens f = .annot (a.mapTokens f) := by
  simp only [TokenTree.mapTokens, TokenTree.mapTokensM, Id.run_map]
  rfl

theorem Argument.run_listMapTokensM (arguments : List Argument) (commas : List Token) :
    Id.run (Argument.listMapTokensM (fun t => pure (f t)) arguments commas) =
      (arguments.map (mapTokens f), commas.map f) := by
  induction arguments generalizing commas with
  | nil =>
    simp only [Argument.listMapTokensM, pure_bind, Id.run_pure, List.mapM_pure, List.map_nil]
  | cons a arguments ih =>
    obtain ⟨label, value⟩ := a
    cases commas with
    | nil =>
      simp only [Argument.listMapTokensM, Id.run_bind, Id.run_pure, ih, run_mapLabelM]
      rfl
    | cons comma commas =>
      simp only [Argument.listMapTokensM, Id.run_bind, Id.run_pure, ih, run_mapLabelM]
      rfl

theorem ElementValue.run_listMapTokensM (values : List ElementValue) (commas : List Token) :
    Id.run (ElementValue.listMapTokensM (fun t => pure (f t)) values commas) =
      (values.map (mapTokens f), commas.map f) := by
  induction values generalizing commas with
  | nil =>
    simp only [ElementValue.listMapTokensM, pure_bind, Id.run_pure, List.mapM_pure, List.map_nil]
  | cons value values ih =>
    cases commas with
    | nil =>
      simp only [ElementValue.listMapTokensM, Id.run_bind, Id.run_pure, ih]
      rfl
    | cons comma commas =>
      simp only [ElementValue.listMapTokensM, Id.run_bind, Id.run_pure, ih]
      rfl

theorem Annotation.mapTokens_marker (sigil : Token) (name : QualifiedName) :
    (⟨sigil, name, none⟩ : Annotation).mapTokens f = ⟨f sigil, name.mapTokens f, none⟩ := by
  simp only [Id.run_bind, Annotation.mapTokensM, Annotation.mapTokens, Id.run_pure,
    QualifiedName.run_mapTokensM]

theorem Annotation.mapTokens_withArguments (sigil : Token) (name : QualifiedName)
    (opening : Token) (arguments : List Argument) (commas : List Token) (closing : Token) :
    (⟨sigil, name, some ⟨opening, arguments, commas, closing⟩⟩ : Annotation).mapTokens f =
      ⟨f sigil, name.mapTokens f,
        some ⟨f opening, arguments.map (Argument.mapTokens f), commas.map f, f closing⟩⟩ := by
  simp only [Id.run_bind, Annotation.mapTokensM, Annotation.mapTokens, Id.run_pure,
    QualifiedName.run_mapTokensM, Argument.run_listMapTokensM]

theorem ElementValue.mapTokens_expression (trees : List TokenTree) :
    (ElementValue.expression trees).mapTokens f = .expression (trees.map (TokenTree.mapTokens f)) := by
  simp only [ElementValue.mapTokens, ElementValue.mapTokensM, Id.run_map,
    TokenTree.run_listMapTokensM]

theorem ElementValue.mapTokens_annot (a : Annotation) :
    (ElementValue.annot a).mapTokens f = .annot (a.mapTokens f) := by
  simp only [ElementValue.mapTokens, ElementValue.mapTokensM, Id.run_map]
  rfl

theorem ElementValue.mapTokens_array (opening closing : Token) (values : List ElementValue)
    (commas : List Token) :
    (ElementValue.array opening values commas closing).mapTokens f =
      .array (f opening) (values.map (mapTokens f)) (commas.map f) (f closing) := by
  simp only [ElementValue.mapTokens, ElementValue.mapTokensM, Id.run_bind, Id.run_pure,
    ElementValue.run_listMapTokensM]

/-! ## The tokens afterwards -/

/-- What going through a list without effects gives is the list of the replaced tokens. -/
theorem run_of_eq_mapM {listed : Id (List Token)} {ts : List Token}
    (h : listed = ts.mapM fun t => pure (f t)) : Id.run listed = ts.map f := by
  rw [h, List.mapM_pure, Id.run_pure]

theorem QualifiedName.tokens_mapTokens (n : QualifiedName) :
    (n.mapTokens f).tokens = n.tokens.map f := by
  have walk := run_of_eq_mapM (QualifiedName.tokens_mapTokensM (fun t => pure (f t)) n)
  rwa [Id.run_map, QualifiedName.run_mapTokensM] at walk

theorem labelTokens_mapLabel (label : Option (Token × Token)) :
    labelTokens (mapLabel f label) = (labelTokens label).map f := by
  cases label <;> rfl

theorem TokenTree.tokens_mapTokens (tree : TokenTree) :
    (tree.mapTokens f).tokens = tree.tokens.map f := by
  have walk := run_of_eq_mapM (TokenTree.tokens_mapTokensM (fun t => pure (f t)) tree)
  rwa [Id.run_map] at walk

theorem TokenTree.listTokens_mapTokens (trees : List TokenTree) :
    TokenTree.listTokens (trees.map (TokenTree.mapTokens f)) =
      (TokenTree.listTokens trees).map f := by
  have walk := run_of_eq_mapM (TokenTree.listTokens_mapTokensM (fun t => pure (f t)) trees)
  rwa [Id.run_map, TokenTree.run_listMapTokensM] at walk

theorem Annotation.tokens_mapTokens (a : Annotation) : (a.mapTokens f).tokens = a.tokens.map f := by
  have walk := run_of_eq_mapM (a.tokens_mapTokensM fun t => pure (f t))
  rwa [Id.run_map] at walk

theorem Argument.listTokens_mapTokens (arguments : List Argument) (commas : List Token) :
    Argument.listTokens (arguments.map (Argument.mapTokens f)) (commas.map f) =
      (Argument.listTokens arguments commas).map f := by
  have walk := run_of_eq_mapM
    (Argument.listTokens_mapTokensM (fun t => pure (f t)) arguments commas)
  rwa [Id.run_map, Argument.run_listMapTokensM] at walk

theorem ElementValue.tokens_mapTokens (value : ElementValue) :
    (value.mapTokens f).tokens = value.tokens.map f := by
  have walk := run_of_eq_mapM (ElementValue.tokens_mapTokensM (fun t => pure (f t)) value)
  rwa [Id.run_map] at walk

theorem ElementValue.listTokens_mapTokens (values : List ElementValue) (commas : List Token) :
    ElementValue.listTokens (values.map (ElementValue.mapTokens f)) (commas.map f) =
      (ElementValue.listTokens values commas).map f := by
  have walk := run_of_eq_mapM
    (ElementValue.listTokens_mapTokensM (fun t => pure (f t)) values commas)
  rwa [Id.run_map, ElementValue.run_listMapTokensM] at walk

/-! ## Fitting afterwards -/

theorem kinds_map (hf : ∀ t, (f t).kind = t.kind) (ts : List Token) : kinds (ts.map f) = kinds ts := by
  simp [kinds, hf]

theorem QualifiedName.fits_mapTokens (hf : ∀ t, (f t).kind = t.kind) {n : QualifiedName}
    {g : List TokenKind} : (n.mapTokens f).Fits g ↔ n.Fits g := by
  simp only [QualifiedName.Fits, QualifiedName.mapTokens, hf, List.forall_mem_map]

theorem fitsLabel_mapLabel (hf : ∀ t, (f t).kind = t.kind) {label : Option (Token × Token)}
    {g : List TokenKind} : fitsLabel (mapLabel f label) g ↔ fitsLabel label g := by
  rcases label with _ | ⟨name, equals⟩
  · exact Iff.rfl
  · simp only [mapLabel, Option.map_some, fitsLabel, hf]

theorem labelled_mapTokens {arguments : List Argument} :
    labelled (arguments.map (Argument.mapTokens f)) ↔ labelled arguments := by
  rcases arguments with _ | ⟨a, _ | ⟨b, arguments⟩⟩
  · exact Iff.rfl
  · exact Iff.rfl
  · simp [labelled, Argument.mapTokens, mapLabel]

theorem avoids_mapTokens (hf : ∀ t, (f t).kind = t.kind) {stop : List TokenKind → Bool}
    {trees : List TokenTree} {g : List TokenKind} :
    avoids stop (trees.map (TokenTree.mapTokens f)) g ↔ avoids stop trees g := by
  induction trees with
  | nil => exact Iff.rfl
  | cons tree trees ih =>
    simp only [List.map_cons, avoids, TokenTree.tokens_mapTokens, TokenTree.listTokens_mapTokens,
      ← List.map_append, kinds_map hf, ih]

mutual

theorem TokenTree.fits_mapTokens (hf : ∀ t, (f t).kind = t.kind) {n : Nat} {tree : TokenTree}
    {g : List TokenKind} : (tree.mapTokens f).Fits n g ↔ tree.Fits n g := by
  match tree with
  | .token t => simp only [TokenTree.mapTokens_token, TokenTree.Fits, hf]
  | .group ⟨_, _, trees, _⟩ =>
    simp only [TokenTree.mapTokens_group, TokenTree.Fits, hf, TokenTree.listFits_mapTokens hf]
  | .annot a =>
    simp only [TokenTree.mapTokens_annot, TokenTree.Fits, Annotation.tokens_mapTokens,
      kinds_map hf, Annotation.fits_mapTokens hf]

theorem TokenTree.listFits_mapTokens (hf : ∀ t, (f t).kind = t.kind) {n : Nat}
    {trees : List TokenTree} {g : List TokenKind} :
    TokenTree.listFits n (trees.map (TokenTree.mapTokens f)) g ↔ TokenTree.listFits n trees g := by
  match trees with
  | [] => exact Iff.rfl
  | tree :: trees =>
    simp only [List.map_cons, TokenTree.listFits, TokenTree.listTokens_mapTokens, kinds_map hf,
      TokenTree.fits_mapTokens hf, TokenTree.listFits_mapTokens hf]

theorem Annotation.fits_mapTokens (hf : ∀ t, (f t).kind = t.kind) {n : Nat} {a : Annotation}
    {g : List TokenKind} : (a.mapTokens f).Fits n g ↔ a.Fits n g := by
  match a with
  | ⟨_, _, none⟩ =>
    simp only [hf, Annotation.Fits, Annotation.mapTokens_marker, QualifiedName.fits_mapTokens hf]
  | ⟨_, _, some ⟨_, arguments, _, _⟩⟩ =>
    simp only [hf, Annotation.Fits, Annotation.mapTokens_withArguments,
      QualifiedName.fits_mapTokens hf, labelled_mapTokens, Argument.listFits_mapTokens hf]

theorem Argument.listFits_mapTokens (hf : ∀ t, (f t).kind = t.kind) {n : Nat}
    {arguments : List Argument} {commas : List Token} {g : List TokenKind} :
    Argument.listFits n (arguments.map (Argument.mapTokens f)) (commas.map f) g ↔
      Argument.listFits n arguments commas g := by
  match arguments, commas with
  | [], commas => simp only [List.map_nil, Argument.listFits, List.map_eq_nil_iff]
  | ⟨label, value⟩ :: arguments, [] =>
    simp only [List.map_cons, List.map_nil, Argument.mapTokens, Argument.listFits,
      List.map_eq_nil_iff, fitsLabel_mapLabel hf, ElementValue.tokens_mapTokens, kinds_map hf,
      ElementValue.fits_mapTokens hf]
  | ⟨label, value⟩ :: arguments, comma :: commas =>
    simp only [List.map_cons, Argument.mapTokens, Argument.listFits, hf, ne_eq,
      List.map_eq_nil_iff, fitsLabel_mapLabel hf, ElementValue.tokens_mapTokens,
      Argument.listTokens_mapTokens, kinds_map hf, ElementValue.fits_mapTokens hf,
      Argument.listFits_mapTokens hf]

theorem ElementValue.fits_mapTokens (hf : ∀ t, (f t).kind = t.kind) {n : Nat}
    {value : ElementValue} {g : List TokenKind} :
    (value.mapTokens f).Fits n g ↔ value.Fits n g := by
  match value with
  | .expression trees =>
    simp only [ElementValue.mapTokens_expression, ElementValue.Fits, ne_eq, List.map_eq_nil_iff,
      TokenTree.listTokens_mapTokens, kinds_map hf, TokenTree.listFits_mapTokens hf,
      avoids_mapTokens hf]
  | .annot a =>
    simp only [ElementValue.mapTokens_annot, ElementValue.Fits, Annotation.fits_mapTokens hf]
  | .array _ values _ _ =>
    simp only [ElementValue.mapTokens_array, ElementValue.Fits, hf,
      ElementValue.listFits_mapTokens hf]

theorem ElementValue.listFits_mapTokens (hf : ∀ t, (f t).kind = t.kind) {n : Nat}
    {values : List ElementValue} {commas : List Token} {g : List TokenKind} :
    ElementValue.listFits n (values.map (ElementValue.mapTokens f)) (commas.map f) g ↔
      ElementValue.listFits n values commas g := by
  match values, commas with
  | [], commas => simp only [List.map_nil, ElementValue.listFits, List.map_eq_nil_iff]
  | value :: values, [] =>
    simp only [List.map_cons, List.map_nil, ElementValue.listFits, List.map_eq_nil_iff,
      ElementValue.fits_mapTokens hf]
  | value :: values, comma :: commas =>
    simp only [List.map_cons, ElementValue.listFits, hf, ElementValue.listTokens_mapTokens,
      kinds_map hf, ElementValue.fits_mapTokens hf, ElementValue.listFits_mapTokens hf]

end

/-! ## One replacement after another -/

variable {g : Token → Token}

theorem QualifiedName.mapTokens_mapTokens (n : QualifiedName) :
    (n.mapTokens f).mapTokens g = n.mapTokens (g ∘ f) := by
  simp [QualifiedName.mapTokens]

theorem mapLabel_mapLabel (label : Option (Token × Token)) :
    mapLabel g (mapLabel f label) = mapLabel (g ∘ f) label := by
  cases label <;> rfl

mutual

theorem TokenTree.mapTokens_mapTokens (tree : TokenTree) :
    (tree.mapTokens f).mapTokens g = tree.mapTokens (g ∘ f) := by
  match tree with
  | .token t => simp only [TokenTree.mapTokens_token, Function.comp_apply]
  | .group ⟨_, _, trees, _⟩ =>
    simp only [TokenTree.mapTokens_group, TokenTree.listMap_mapTokens trees, Function.comp_apply]
  | .annot a => simp only [TokenTree.mapTokens_annot, Annotation.mapTokens_mapTokens a]

theorem TokenTree.listMap_mapTokens (trees : List TokenTree) :
    (trees.map (TokenTree.mapTokens f)).map (TokenTree.mapTokens g) =
      trees.map (TokenTree.mapTokens (g ∘ f)) := by
  match trees with
  | [] => rfl
  | tree :: trees =>
    simp only [List.map_cons, TokenTree.mapTokens_mapTokens tree, TokenTree.listMap_mapTokens trees]

theorem Annotation.mapTokens_mapTokens (a : Annotation) :
    (a.mapTokens f).mapTokens g = a.mapTokens (g ∘ f) := by
  match a with
  | ⟨_, _, none⟩ =>
    simp only [QualifiedName.mapTokens_mapTokens, Annotation.mapTokens_marker,
      Function.comp_apply]
  | ⟨_, _, some ⟨_, arguments, commas, _⟩⟩ =>
    simp only [QualifiedName.mapTokens_mapTokens, Annotation.mapTokens_withArguments,
      Argument.listMap_mapTokens arguments, List.map_map, Function.comp_apply]

theorem Argument.listMap_mapTokens (arguments : List Argument) :
    (arguments.map (Argument.mapTokens f)).map (Argument.mapTokens g) =
      arguments.map (Argument.mapTokens (g ∘ f)) := by
  match arguments with
  | [] => rfl
  | ⟨label, value⟩ :: arguments =>
    simp only [List.map_cons, Argument.mapTokens, mapLabel_mapLabel,
      ElementValue.mapTokens_mapTokens value, Argument.listMap_mapTokens arguments]

theorem ElementValue.mapTokens_mapTokens (value : ElementValue) :
    (value.mapTokens f).mapTokens g = value.mapTokens (g ∘ f) := by
  match value with
  | .expression trees =>
    simp only [ElementValue.mapTokens_expression, TokenTree.listMap_mapTokens trees]
  | .annot a => simp only [ElementValue.mapTokens_annot, Annotation.mapTokens_mapTokens a]
  | .array _ values commas _ =>
    simp only [ElementValue.mapTokens_array, ElementValue.listMap_mapTokens values, List.map_map,
      Function.comp_apply]

theorem ElementValue.listMap_mapTokens (values : List ElementValue) :
    (values.map (ElementValue.mapTokens f)).map (ElementValue.mapTokens g) =
      values.map (ElementValue.mapTokens (g ∘ f)) := by
  match values with
  | [] => rfl
  | value :: values =>
    simp only [List.map_cons, ElementValue.mapTokens_mapTokens value,
      ElementValue.listMap_mapTokens values]

end

/-! ## Other tokens -/

theorem exists_of_map_eq_cons {us : List Token} {t : Token} {ts : List Token}
    (h : us.map g = (t :: ts).map g) : ∃ u vs, us = u :: vs ∧ g u = g t ∧ vs.map g = ts.map g := by
  obtain ⟨u, vs, rfl, hu, hvs⟩ := List.map_eq_cons_iff.1 h
  exact ⟨u, vs, rfl, hu, hvs⟩

theorem exists_of_map_eq_append {us ts ts' : List Token} (h : us.map g = (ts ++ ts').map g) :
    ∃ vs vs', us = vs ++ vs' ∧ vs.map g = ts.map g ∧ vs'.map g = ts'.map g := by
  rw [List.map_append] at h
  exact List.map_eq_append_iff.1 h

theorem exists_relabel_segments (others : List NameSegment) {us : List Token}
    (h : us.map g = (others.flatMap fun segment => [segment.dot, segment.identifier]).map g) :
    ∃ segments : List NameSegment,
      (segments.flatMap fun segment => [segment.dot, segment.identifier]) = us ∧
        segments.map (fun segment => NameSegment.mk (g segment.dot) (g segment.identifier)) =
          others.map fun segment => ⟨g segment.dot, g segment.identifier⟩ := by
  induction others generalizing us with
  | nil => exact ⟨[], (List.map_eq_nil_iff.1 h).symm, rfl⟩
  | cons segment others ih =>
    obtain ⟨dot, vs, rfl, hdot, h⟩ := exists_of_map_eq_cons h
    obtain ⟨identifier, vs, rfl, hidentifier, h⟩ := exists_of_map_eq_cons h
    obtain ⟨segments, rfl, hsegments⟩ := ih h
    exact ⟨⟨dot, identifier⟩ :: segments, rfl, by simp [hdot, hidentifier, hsegments]⟩

theorem QualifiedName.exists_relabel (n : QualifiedName) {us : List Token}
    (h : us.map g = n.tokens.map g) :
    ∃ m : QualifiedName, m.tokens = us ∧ m.mapTokens g = n.mapTokens g := by
  obtain ⟨first, others⟩ := n
  obtain ⟨u, vs, rfl, hu, hvs⟩ := exists_of_map_eq_cons h
  obtain ⟨segments, rfl, hsegments⟩ := exists_relabel_segments others hvs
  exact ⟨⟨u, segments⟩, rfl, by simp [QualifiedName.mapTokens, hu, hsegments]⟩

theorem exists_relabel_label (label : Option (Token × Token)) {us : List Token}
    (h : us.map g = (labelTokens label).map g) :
    ∃ label', labelTokens label' = us ∧ mapLabel g label' = mapLabel g label := by
  rcases label with _ | ⟨name, equals⟩
  · exact ⟨none, (List.map_eq_nil_iff.1 h).symm, rfl⟩
  · obtain ⟨name', us, rfl, hname, h⟩ := exists_of_map_eq_cons h
    obtain ⟨equals', us, rfl, hequals, h⟩ := exists_of_map_eq_cons h
    obtain rfl := List.map_eq_nil_iff.1 h
    exact ⟨some (name', equals'), rfl, by simp [mapLabel, hname, hequals]⟩

mutual

theorem TokenTree.exists_relabel (tree : TokenTree) {us : List Token}
    (h : us.map g = tree.tokens.map g) :
    ∃ tree' : TokenTree, tree'.tokens = us ∧ tree'.mapTokens g = tree.mapTokens g := by
  match tree with
  | .token t =>
    rw [TokenTree.tokens] at h
    obtain ⟨u, vs, rfl, hu, hvs⟩ := exists_of_map_eq_cons h
    obtain rfl := List.map_eq_nil_iff.1 hvs
    exact ⟨.token u, by rw [TokenTree.tokens], by simp only [TokenTree.mapTokens_token, hu]⟩
  | .group ⟨delimiter, opening, trees, closing⟩ =>
    rw [TokenTree.tokens] at h
    obtain ⟨o, vs, rfl, ho, h⟩ := exists_of_map_eq_cons h
    obtain ⟨vs, ws, rfl, hvs, h⟩ := exists_of_map_eq_append h
    obtain ⟨c, ws, rfl, hc, h⟩ := exists_of_map_eq_cons h
    obtain rfl := List.map_eq_nil_iff.1 h
    obtain ⟨trees', rfl, htrees⟩ := TokenTree.exists_relabel_list trees hvs
    exact ⟨.group ⟨delimiter, o, trees', c⟩, by rw [TokenTree.tokens],
      by simp only [TokenTree.mapTokens_group, ho, htrees, hc]⟩
  | .annot a =>
    rw [TokenTree.tokens] at h
    obtain ⟨a', rfl, ha⟩ := Annotation.exists_relabel a h
    exact ⟨.annot a', by rw [TokenTree.tokens], by simp only [TokenTree.mapTokens_annot, ha]⟩

theorem TokenTree.exists_relabel_list (trees : List TokenTree) {us : List Token}
    (h : us.map g = (TokenTree.listTokens trees).map g) :
    ∃ trees' : List TokenTree, TokenTree.listTokens trees' = us ∧
      trees'.map (TokenTree.mapTokens g) = trees.map (TokenTree.mapTokens g) := by
  match trees with
  | [] => exact ⟨[], (List.map_eq_nil_iff.1 h).symm, rfl⟩
  | tree :: trees =>
    rw [TokenTree.listTokens] at h
    obtain ⟨vs, ws, rfl, hvs, hws⟩ := exists_of_map_eq_append h
    obtain ⟨tree', rfl, htree⟩ := TokenTree.exists_relabel tree hvs
    obtain ⟨trees', rfl, htrees⟩ := TokenTree.exists_relabel_list trees hws
    exact ⟨tree' :: trees', by rw [TokenTree.listTokens], by simp only [List.map_cons, htree, htrees]⟩

theorem Annotation.exists_relabel (a : Annotation) {us : List Token}
    (h : us.map g = a.tokens.map g) :
    ∃ a' : Annotation, a'.tokens = us ∧ a'.mapTokens g = a.mapTokens g := by
  match a with
  | ⟨sigil, name, none⟩ =>
    unfold Annotation.tokens at h
    obtain ⟨s, vs, rfl, hs, h⟩ := exists_of_map_eq_cons h
    obtain ⟨name', rfl, hname⟩ := name.exists_relabel h
    exact ⟨⟨s, name', none⟩, rfl,
      by simp only [hs, Annotation.mapTokens_marker, hname]⟩
  | ⟨sigil, name, some ⟨opening, arguments, commas, closing⟩⟩ =>
    unfold Annotation.tokens at h
    obtain ⟨s, vs, rfl, hs, h⟩ := exists_of_map_eq_cons h
    obtain ⟨vs, ws, rfl, hvs, h⟩ := exists_of_map_eq_append h
    obtain ⟨o, ws, rfl, ho, h⟩ := exists_of_map_eq_cons h
    obtain ⟨ws, xs, rfl, hws, h⟩ := exists_of_map_eq_append h
    obtain ⟨c, xs, rfl, hc, h⟩ := exists_of_map_eq_cons h
    obtain rfl := List.map_eq_nil_iff.1 h
    obtain ⟨name', rfl, hname⟩ := name.exists_relabel hvs
    obtain ⟨arguments', commas', rfl, harguments, hcommas⟩ :=
      Argument.exists_relabel_list arguments commas hws
    exact ⟨⟨s, name', some ⟨o, arguments', commas', c⟩⟩, rfl,
      by simp only [hs, Annotation.mapTokens_withArguments, hname, ho, harguments, hcommas, hc]⟩

theorem Argument.exists_relabel_list (arguments : List Argument) (commas : List Token)
    {us : List Token} (h : us.map g = (Argument.listTokens arguments commas).map g) :
    ∃ (arguments' : List Argument) (commas' : List Token),
      Argument.listTokens arguments' commas' = us ∧
        arguments'.map (Argument.mapTokens g) = arguments.map (Argument.mapTokens g) ∧
        commas'.map g = commas.map g := by
  match arguments, commas with
  | [], commas => exact ⟨[], us, by rw [Argument.listTokens], rfl, h⟩
  | ⟨label, value⟩ :: arguments, [] =>
    rw [Argument.listTokens] at h
    obtain ⟨vs, ws, rfl, hvs, hws⟩ := exists_of_map_eq_append h
    obtain ⟨vs, xs, rfl, hvs, hxs⟩ := exists_of_map_eq_append hvs
    obtain ⟨label', rfl, hlabel⟩ := exists_relabel_label label hvs
    obtain ⟨value', rfl, hvalue⟩ := ElementValue.exists_relabel value hxs
    obtain ⟨arguments', commas', rfl, harguments, hcommas⟩ :=
      Argument.exists_relabel_list arguments [] hws
    obtain rfl := List.map_eq_nil_iff.1 hcommas
    exact ⟨⟨label', value'⟩ :: arguments', [], by rw [Argument.listTokens],
      by simp only [List.map_cons, Argument.mapTokens, hlabel, hvalue, harguments], rfl⟩
  | ⟨label, value⟩ :: arguments, comma :: commas =>
    rw [Argument.listTokens] at h
    obtain ⟨vs, ws, rfl, hvs, hws⟩ := exists_of_map_eq_append h
    obtain ⟨vs, xs, rfl, hvs, hxs⟩ := exists_of_map_eq_append hvs
    obtain ⟨comma', ws, rfl, hcomma, hws⟩ := exists_of_map_eq_cons hws
    obtain ⟨label', rfl, hlabel⟩ := exists_relabel_label label hvs
    obtain ⟨value', rfl, hvalue⟩ := ElementValue.exists_relabel value hxs
    obtain ⟨arguments', commas', rfl, harguments, hcommas⟩ :=
      Argument.exists_relabel_list arguments commas hws
    exact ⟨⟨label', value'⟩ :: arguments', comma' :: commas', by rw [Argument.listTokens],
      by simp only [List.map_cons, Argument.mapTokens, hlabel, hvalue, harguments],
      by simp only [List.map_cons, hcomma, hcommas]⟩

theorem ElementValue.exists_relabel (value : ElementValue) {us : List Token}
    (h : us.map g = value.tokens.map g) :
    ∃ value' : ElementValue, value'.tokens = us ∧ value'.mapTokens g = value.mapTokens g := by
  match value with
  | .expression trees =>
    rw [ElementValue.tokens] at h
    obtain ⟨trees', rfl, htrees⟩ := TokenTree.exists_relabel_list trees h
    exact ⟨.expression trees', by rw [ElementValue.tokens],
      by simp only [ElementValue.mapTokens_expression, htrees]⟩
  | .annot a =>
    rw [ElementValue.tokens] at h
    obtain ⟨a', rfl, ha⟩ := Annotation.exists_relabel a h
    exact ⟨.annot a', by rw [ElementValue.tokens], by simp only [ElementValue.mapTokens_annot, ha]⟩
  | .array opening values commas closing =>
    rw [ElementValue.tokens] at h
    obtain ⟨o, vs, rfl, ho, h⟩ := exists_of_map_eq_cons h
    obtain ⟨vs, ws, rfl, hvs, h⟩ := exists_of_map_eq_append h
    obtain ⟨c, ws, rfl, hc, h⟩ := exists_of_map_eq_cons h
    obtain rfl := List.map_eq_nil_iff.1 h
    obtain ⟨values', commas', rfl, hvalues, hcommas⟩ :=
      ElementValue.exists_relabel_list values commas hvs
    exact ⟨.array o values' commas' c, by rw [ElementValue.tokens],
      by simp only [ElementValue.mapTokens_array, ho, hvalues, hcommas, hc]⟩

theorem ElementValue.exists_relabel_list (values : List ElementValue) (commas : List Token)
    {us : List Token} (h : us.map g = (ElementValue.listTokens values commas).map g) :
    ∃ (values' : List ElementValue) (commas' : List Token),
      ElementValue.listTokens values' commas' = us ∧
        values'.map (ElementValue.mapTokens g) = values.map (ElementValue.mapTokens g) ∧
        commas'.map g = commas.map g := by
  match values, commas with
  | [], commas => exact ⟨[], us, by rw [ElementValue.listTokens], rfl, h⟩
  | value :: values, [] =>
    rw [ElementValue.listTokens] at h
    obtain ⟨vs, ws, rfl, hvs, hws⟩ := exists_of_map_eq_append h
    obtain ⟨value', rfl, hvalue⟩ := ElementValue.exists_relabel value hvs
    obtain ⟨values', commas', rfl, hvalues, hcommas⟩ :=
      ElementValue.exists_relabel_list values [] hws
    obtain rfl := List.map_eq_nil_iff.1 hcommas
    exact ⟨value' :: values', [], by rw [ElementValue.listTokens],
      by simp only [List.map_cons, hvalue, hvalues], rfl⟩
  | value :: values, comma :: commas =>
    rw [ElementValue.listTokens] at h
    obtain ⟨vs, ws, rfl, hvs, hws⟩ := exists_of_map_eq_append h
    obtain ⟨comma', ws, rfl, hcomma, hws⟩ := exists_of_map_eq_cons hws
    obtain ⟨value', rfl, hvalue⟩ := ElementValue.exists_relabel value hvs
    obtain ⟨values', commas', rfl, hvalues, hcommas⟩ :=
      ElementValue.exists_relabel_list values commas hws
    exact ⟨value' :: values', comma' :: commas', by rw [ElementValue.listTokens],
      by simp only [List.map_cons, hvalue, hvalues], by simp only [List.map_cons, hcomma, hcommas]⟩

end

theorem Argument.exists_relabel (a : Argument) {us : List Token} (h : us.map g = a.tokens.map g) :
    ∃ a' : Argument, a'.tokens = us ∧ a'.mapTokens g = a.mapTokens g := by
  obtain ⟨label, value⟩ := a
  obtain ⟨vs, ws, rfl, hvs, hws⟩ := exists_of_map_eq_append h
  obtain ⟨label', rfl, hlabel⟩ := exists_relabel_label label hvs
  obtain ⟨value', rfl, hvalue⟩ := ElementValue.exists_relabel value hws
  exact ⟨⟨label', value'⟩, rfl, by simp only [Argument.mapTokens, hlabel, hvalue]⟩

/-! ## Parts of annotations -/

theorem Argument.tokens_mapTokens (a : Argument) : (a.mapTokens f).tokens = a.tokens.map f := by
  simp only [Argument.tokens, Argument.mapTokens, labelTokens_mapLabel,
    ElementValue.tokens_mapTokens, List.map_append]

theorem Argument.fits_mapTokens (hf : ∀ t, (f t).kind = t.kind) {n : Nat} {a : Argument}
    {g : List TokenKind} : (a.mapTokens f).Fits n g ↔ a.Fits n g := by
  simp only [Argument.Fits, Argument.mapTokens, fitsLabel_mapLabel hf,
    ElementValue.tokens_mapTokens, kinds_map hf, ElementValue.fits_mapTokens hf]

theorem Annotation.arguments_mapTokens (a : Annotation) :
    (a.mapTokens f).arguments = a.arguments.map (Argument.mapTokens f) := by
  obtain ⟨sigil, name, _ | ⟨opening, arguments, commas, closing⟩⟩ := a
  · rw [mapTokens_marker]
    rfl
  · rw [mapTokens_withArguments]
    rfl

theorem Annotation.name_mapTokens (a : Annotation) : (a.mapTokens f).name = a.name.mapTokens f := by
  obtain ⟨sigil, name, _ | ⟨opening, arguments, commas, closing⟩⟩ := a
  · rw [mapTokens_marker]
  · rw [mapTokens_withArguments]

/-- A name over other tokens of the same kinds is the same name. -/
theorem QualifiedName.dotted_mapTokens (hf : ∀ t, (f t).kind = t.kind) (n : QualifiedName) :
    (n.mapTokens f).dotted = n.dotted := by
  simp [QualifiedName.dotted, QualifiedName.identifiers, QualifiedName.mapTokens, Token.text, hf,
    Function.comp_def]

end Equations

end DeferFetch
