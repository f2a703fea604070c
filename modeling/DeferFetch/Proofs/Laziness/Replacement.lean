/-
# DeferFetch.Proofs.Laziness.Replacement — what a directive is parsed as.

The text of a directive parses just if every argument that it keeps has a name, and then as the
annotation that was meant (`parse_render_iff`): its name, a lazy fetch, and the arguments in order,
the same up to the white space before each of them. Put in the place of the old annotation, it fits
and is legible there.
-/
import DeferFetch.Proofs.Laziness.Render
import DeferFetch.Proofs.Grammar.Relabel
import DeferFetch.Proofs.Grammar.Unique
import DeferFetch.Proofs.Grammar.Text

namespace DeferFetch

/-! ## Arguments after a blank -/

/-- The token with nothing but its kind. -/
def Token.stripped (t : Token) : Token := .synthetic t.kind

@[simp] theorem Token.kind_stripped (t : Token) : t.stripped.kind = t.kind := rfl

/-- **`Respaced arguments others`** — the arguments, in the same order, with a blank instead of the
white space before each of them. -/
structure Respaced (arguments others : List Argument) : Prop where
  tokens : others.map Argument.tokens = arguments.map fun a => spaced a.tokens
  shape : others.map (Argument.mapTokens Token.stripped) =
    arguments.map (Argument.mapTokens Token.stripped)

theorem stripped_spaced (ts : List Token) :
    (spaced ts).map Token.stripped = ts.map Token.stripped := by
  cases ts <;> rfl

theorem exists_respaced (arguments : List Argument) : ∃ others, Respaced arguments others := by
  induction arguments with
  | nil => exact ⟨[], rfl, rfl⟩
  | cons a arguments ih =>
    obtain ⟨others, tokens, shape⟩ := ih
    obtain ⟨b, htokens, hshape⟩ := a.exists_relabel (stripped_spaced a.tokens)
    exact ⟨b :: others, by rw [List.map_cons, htokens, tokens, List.map_cons],
      by rw [List.map_cons, hshape, shape, List.map_cons]⟩

namespace Respaced

variable {arguments others : List Argument} {n : Nat}

/-- What holds of all the arguments up to where their tokens come from holds of the others. -/
theorem forall_iff (h : Respaced arguments others) {p : Argument → Prop}
    (stable : ∀ a, p (a.mapTokens Token.stripped) ↔ p a) :
    (∀ b ∈ others, p b) ↔ ∀ a ∈ arguments, p a := by
  have shapes (as : List Argument) :
      (∀ a ∈ as, p a) ↔ ∀ a ∈ as.map (Argument.mapTokens Token.stripped), p a := by
    simp [stable]
  rw [shapes others, h.shape, ← shapes arguments]

theorem isSome_iff (h : Respaced arguments others) :
    (∀ b ∈ others, b.label.isSome) ↔ ∀ a ∈ arguments, a.label.isSome :=
  h.forall_iff fun a => by simp [Argument.mapTokens, mapLabel]

theorem fits (h : Respaced arguments others) (detached : ∀ a ∈ arguments, a.Detached n)
    {k : TokenKind} (hk : k.closesValue = true) (f : List TokenKind) :
    ∀ b ∈ others, b.Fits n (k :: f) :=
  (h.forall_iff fun _ => Argument.fits_mapTokens Token.kind_stripped).2
    fun a ha => (detached a ha).fits k f hk

end Respaced

/-! ## The lazy fetch -/

/-- **`lazyArgument fetchType`** — a lazy fetch, with the fetch modes called `fetchType`. -/
def lazyArgument (fetchType : String) : Argument :=
  ⟨some (.synthetic (.identifier "fetch"), .synthetic .equals " "),
    .expression ((spelled " " (nameKinds (parts fetchType ++ ["LAZY"]))).map .token)⟩

theorem listTokens_map_token (ts : List Token) : TokenTree.listTokens (ts.map .token) = ts := by
  induction ts with
  | nil => rfl
  | cons t ts ih => simp [TokenTree.listTokens, TokenTree.tokens, ih]

theorem tokens_lazyArgument (fetchType : String) :
    (lazyArgument fetchType).tokens = lazyTokens fetchType := by
  simp [lazyArgument, Argument.tokens, labelTokens, ElementValue.tokens, listTokens_map_token,
    lazyTokens]

/-- Names are made of identifiers and dots. -/
theorem mem_nameKinds {names : List String} {k : TokenKind} (h : k ∈ nameKinds names) :
    k = .dot ∨ ∃ x, k = .identifier x := by
  induction names with
  | nil => cases h
  | cons x names ih =>
    cases names with
    | nil =>
      rw [List.mem_singleton.1 h]
      exact .inr ⟨x, rfl⟩
    | cons y names =>
      rw [nameKinds_cons_cons, List.mem_cons, List.mem_cons] at h
      rcases h with rfl | rfl | h
      · exact .inr ⟨x, rfl⟩
      · exact .inl rfl
      · exact ih h

/-- Identifiers and dots are trees by themselves, and no comma is among them. -/
theorem listFits_name {ts : List Token} (h : ∀ t ∈ ts, t.kind = .dot ∨ ∃ x, t.kind = .identifier x)
    (n : Nat) (f : List TokenKind) :
    TokenTree.listFits n (ts.map .token) f ∧ avoids (atKind .comma) (ts.map .token) f := by
  induction ts with
  | nil => exact ⟨trivial, trivial⟩
  | cons t ts ih =>
    obtain ⟨ht, hts⟩ := List.forall_mem_cons.1 h
    obtain ⟨fits, avoid⟩ := ih hts
    refine ⟨⟨?_, fits⟩, ?_, avoid⟩
    · rcases ht with ht | ⟨x, ht⟩ <;>
        simp [TokenTree.Fits, ht, TokenKind.isOpening, TokenKind.opens?, atAnnotation,
          TokenKind.isClosing, TokenKind.isError]
    · rcases ht with ht | ⟨x, ht⟩ <;> simp [TokenTree.tokens, atKind, ht]

theorem fits_lazyArgument (fetchType : String) (n : Nat) {k : TokenKind} (hk : k.closesValue = true)
    (f : List TokenKind) : (lazyArgument fetchType).Fits n (k :: f) := by
  obtain ⟨x, names, hnames⟩ := List.exists_cons_of_ne_nil
    (List.append_ne_nil_of_left_ne_nil (parts_ne_nil fetchType) ["LAZY"])
  obtain ⟨ks, hks⟩ := nameKinds_cons x names
  have words : ∀ t ∈ spelled " " (nameKinds (parts fetchType ++ ["LAZY"])),
      t.kind = .dot ∨ ∃ x, t.kind = .identifier x := fun t ht => mem_nameKinds (by
    rw [← kinds_spelled " " (nameKinds (parts fetchType ++ ["LAZY"]))]
    exact List.mem_map_of_mem ht)
  obtain ⟨fits, avoid⟩ := listFits_name words n (k :: f)
  refine ⟨⟨rfl, rfl⟩, ?_, ?_, fits, avoid, ?_⟩
  · simp [spelled_eq_nil, hnames, hks]
  · rw [listTokens_map_token, kinds_spelled, hnames, hks]
    rfl
  · simp only [TokenKind.closesValue, Bool.or_eq_true, decide_eq_true_eq] at hk
    rcases hk with hk | hk <;> simp [endsExpression, atClosing, atKind, hk]

/-! ## The whole annotation -/

/-- **`directiveTree leading name fetchType others`** — the annotation of that name after the text
`leading`, with a lazy fetch and then the other arguments. -/
def directiveTree (leading name fetchType : String) (others : List Argument) : Annotation :=
  ⟨.synthetic .at leading, .ofDotted name, some ⟨.synthetic (.opening .paren),
    lazyArgument fetchType :: others, others.map fun _ => .synthetic .comma,
    .synthetic (.closing .paren)⟩⟩

theorem nameKinds_eq (x : String) (names : List String) :
    nameKinds (x :: names) = .identifier x :: names.flatMap fun y => [.dot, .identifier y] := by
  induction names generalizing x with
  | nil => rfl
  | cons y names ih => rw [nameKinds_cons_cons, ih, List.flatMap_cons]; rfl

theorem tokens_ofDotted (name leading : String) :
    (QualifiedName.ofDotted name leading).tokens = spelled leading (nameKinds (parts name)) := by
  obtain ⟨x, others, hparts, hname⟩ := exists_parts name leading
  rw [hparts, hname, nameKinds_eq]
  simp [QualifiedName.tokens, spelled, List.flatMap_map, List.map_flatMap]

theorem fits_ofDotted (name leading : String) {f : List TokenKind} (hf : atSegment f = false) :
    (QualifiedName.ofDotted name leading).Fits f := by
  obtain ⟨x, others, -, hname⟩ := exists_parts name leading
  rw [hname]
  refine ⟨rfl, fun segment hsegment => ?_, hf⟩
  obtain ⟨part, -, rfl⟩ := List.mem_map.1 hsegment
  exact ⟨rfl, rfl⟩

section Tree

variable {n : Nat} {leading name fetchType : String} {arguments others : List Argument}
  {f : List TokenKind}

theorem listTokens_commas (a : Argument) (others : List Argument) :
    Argument.listTokens (a :: others) (others.map fun _ => .synthetic .comma) =
      a.tokens ++ (others.map Argument.tokens).flatMap fun ts => .synthetic .comma :: ts := by
  induction others generalizing a with
  | nil => simp
  | cons b others ih => rw [List.map_cons, Argument.listTokens_cons, ih]; simp

theorem listFits_commas {a : Argument} (hf : ∀ k g, k.closesValue = true → ∀ b ∈ a :: others, b.Fits n (k :: g))
    {k : TokenKind} (hk : k.closesValue = true) :
    Argument.listFits n (a :: others) (others.map fun _ => .synthetic .comma) (k :: f) := by
  induction others generalizing a with
  | nil => exact Argument.listFits_last.2 ⟨rfl, hf k f hk a List.mem_cons_self⟩
  | cons b others ih =>
    refine Argument.listFits_cons.2 ⟨rfl, List.cons_ne_nil b others,
      hf .comma _ rfl a List.mem_cons_self, ih fun k g hk c hc => ?_⟩
    exact hf k g hk c (List.mem_cons_of_mem a hc)

/-- The tree has the tokens of the directive. -/
theorem tokens_directiveTree (h : Respaced arguments others) :
    (directiveTree leading name fetchType others).tokens =
      directiveTokens leading name fetchType arguments := by
  simp only [directiveTree, Annotation.tokens, tokens_ofDotted, listTokens_commas,
    tokens_lazyArgument, h.tokens, directiveTokens, List.flatMap_map, List.append_assoc]

theorem written_directiveTree (h : Respaced arguments others)
    (detached : ∀ a ∈ arguments, a.Detached (n - 1)) :
    (directiveTree leading name fetchType others).Written n f := by
  refine ⟨fits_ofDotted name "" rfl, rfl, rfl, listFits_commas (fun k g hk => ?_) rfl⟩
  exact List.forall_mem_cons.2 ⟨fits_lazyArgument fetchType _ hk g, h.fits detached hk g⟩

/-- With a name before each of its arguments, the tree fits. -/
theorem fits_directiveTree (h : Respaced arguments others) (hn : 0 < n)
    (detached : ∀ a ∈ arguments, a.Detached (n - 1)) (names : ∀ a ∈ arguments, a.label.isSome) :
    (directiveTree leading name fetchType others).Fits n f := by
  have written : (directiveTree leading name fetchType others).Written n f :=
    written_directiveTree h detached
  obtain ⟨hname, hopening, hclosing, fits⟩ := written
  refine ⟨hn, rfl, hname, hopening, hclosing, ?_, fits⟩
  by_cases hne : others = []
  · rw [hne]
    trivial
  · exact (labelled_cons hne).2 (List.forall_mem_cons.2 ⟨rfl, h.isSome_iff.2 names⟩)

/-- A tree that fits has a name before each of its arguments. -/
theorem names_of_fits (h : Respaced arguments others)
    (fits : (directiveTree leading name fetchType others).Fits n f) : ∀ a ∈ arguments, a.label.isSome := by
  obtain ⟨-, -, -, -, -, names, -⟩ := fits
  refine h.isSome_iff.1 fun b hb => ?_
  rw [labelled_cons (List.ne_nil_of_mem hb)] at names
  exact names b (List.mem_cons_of_mem _ hb)

end Tree

/-! ## Parsing it -/

theorem Annotation.written_mapTokens {g : Token → Token} (hg : ∀ t, (g t).kind = t.kind) {n : Nat}
    {a : Annotation} {f : List TokenKind} : (a.mapTokens g).Written n f ↔ a.Written n f := by
  obtain ⟨sigil, name, _ | ⟨opening, arguments, commas, closing⟩⟩ := a
  · rw [mapTokens_marker]
    exact Iff.rfl
  · simp only [hg, Annotation.Written, Annotation.mapTokens_withArguments,
      QualifiedName.fits_mapTokens hg, Argument.listFits_mapTokens hg]

/-- **`Directs name fetchType arguments others`** — what is needed of the parts of a directive: the
names are names, the arguments are detached, and `others` are the arguments after a blank. -/
structure Directs (n : Nat) (name fetchType : String) (arguments others : List Argument) : Prop where
  name : IsName name
  fetchType : IsName fetchType
  detached : ∀ a ∈ arguments, a.Detached (n - 1)
  respaced : Respaced arguments others

/-- **What a directive is parsed as** — if all its arguments have names, it is parsed as the
annotation that was meant, up to where the tokens stand, and if not, it is not parsed. -/
theorem parse_render_iff {name fetchType : String} {arguments others : List Argument}
    (h : Directs maxNesting name fetchType arguments others) {b : Annotation} :
    (renderKept name fetchType arguments |> parseAnnotation).toExcept = .ok b ↔
      (∀ a ∈ arguments, a.label.isSome) ∧
        (∃ e, tokenize (renderKept name fetchType arguments) = b.tokens ++ [e]) ∧
        b.mapTokens Token.bare = (directiveTree "" name fetchType others).mapTokens Token.bare := by
  have read := tokenize_render h.name h.fetchType h.detached
  rw [← tokens_directiveTree h.respaced] at read
  have cut {b : Annotation} {e : Token}
      (htokens : tokenize (renderKept name fetchType arguments) = b.tokens ++ [e]) :
      b.tokens.map Token.bare = (directiveTree "" name fetchType others).tokens.map Token.bare ∧
        e.kind = .eof := by
    rw [htokens, List.map_append] at read
    obtain ⟨tokens, eof⟩ := List.append_inj' read rfl
    exact ⟨tokens, by simpa using congrArg (List.map Token.kind) eof⟩
  rw [parseAnnotation_eq_ok]
  constructor
  · rintro ⟨e, htokens, he, fits⟩
    -- what was meant, with the tokens as they stand: annotations are read in one way, so it is what was read
    obtain ⟨d, hd, same⟩ := (directiveTree "" name fetchType others).exists_relabel (cut htokens).1
    have written : d.Written maxNesting (kinds [e]) := by
      rw [← Annotation.written_mapTokens Token.kind_bare, same,
        Annotation.written_mapTokens Token.kind_bare]
      exact written_directiveTree h.respaced h.detached
    have fits : b.Fits maxNesting (kinds [e]) := by simpa [he] using fits
    obtain ⟨rfl, -⟩ := written.unique fits (by rw [hd])
    have meant : (directiveTree "" name fetchType others).Fits maxNesting [.eof] := by
      rwa [← Annotation.fits_mapTokens Token.kind_bare, ← same,
        Annotation.fits_mapTokens Token.kind_bare]
    exact ⟨names_of_fits h.respaced meant, ⟨e, htokens⟩, same⟩
  · rintro ⟨names, ⟨e, htokens⟩, same⟩
    refine ⟨e, htokens, (cut htokens).2, ?_⟩
    rw [← Annotation.fits_mapTokens Token.kind_bare, same, Annotation.fits_mapTokens Token.kind_bare]
    exact fits_directiveTree h.respaced (by decide) h.detached names

/-- Arguments that all have names are parsed again. -/
theorem exists_parse_render {name fetchType : String} {arguments others : List Argument}
    (h : Directs maxNesting name fetchType arguments others)
    (names : ∀ a ∈ arguments, a.label.isSome) :
    ∃ b, (renderKept name fetchType arguments |> parseAnnotation).toExcept = .ok b := by
  have read := tokenize_render h.name h.fetchType h.detached
  rw [← tokens_directiveTree h.respaced] at read
  obtain ⟨body, e, htokens, -⟩ := legible_tokenize (renderKept name fetchType arguments) none
  rw [htokens, List.map_append] at read
  obtain ⟨b, rfl, same⟩ := (directiveTree "" name fetchType others).exists_relabel
    (List.append_inj' read rfl).1
  exact ⟨b, (parse_render_iff h).2 ⟨names, ⟨e, htokens⟩, same⟩⟩

/-! ## Putting it in place -/

theorem Annotation.mapTokens_sigil (g : Token → Token) (a : Annotation) :
    (a.mapTokens g).sigil = g a.sigil := by
  obtain ⟨sigil, name, _ | ⟨opening, arguments, commas, closing⟩⟩ := a
  · rw [mapTokens_marker]
  · rw [mapTokens_withArguments]

/-- The annotation with another at sign. -/
def Annotation.withSigil (a : Annotation) (t : Token) : Annotation := { a with sigil := t }

@[simp] theorem Annotation.withSigil_sigil (a : Annotation) : a.withSigil a.sigil = a := by
  cases a
  rfl

theorem Annotation.tokens_withSigil (a : Annotation) (t : Token) :
    (a.withSigil t).tokens = t :: a.tokens.tail := by
  obtain ⟨sigil, name, _ | ⟨opening, arguments, commas, closing⟩⟩ := a
  · rfl
  · rfl

theorem Annotation.mapTokens_withSigil (g : Token → Token) (a : Annotation) (t : Token) :
    (a.withSigil t).mapTokens g = (a.mapTokens g).withSigil (g t) := by
  obtain ⟨sigil, name, _ | ⟨opening, arguments, commas, closing⟩⟩ := a
  · simp only [withSigil, mapTokens_marker]
  · simp only [withSigil, mapTokens_withArguments]

/-- **Putting a replacement in place** — it stands after what preceded the old annotation. -/
theorem inPlaceOf_mapTokens {name fetchType : String} {others : List Argument} (a : Annotation)
    {b : Annotation}
    (h : b.mapTokens Token.bare = (directiveTree "" name fetchType others).mapTokens Token.bare) :
    (inPlaceOf a b).mapTokens Token.bare =
      (directiveTree a.sigil.leadingText name fetchType others).mapTokens Token.bare := by
  have kind : b.sigil.kind = .at := by
    have := congrArg Annotation.sigil h
    rw [b.mapTokens_sigil, Annotation.mapTokens_sigil, Token.bare_eq_iff] at this
    exact this.1
  have span : (Token.bare ∘ fun t : Token => { t with span := a.span }) = Token.bare := rfl
  let spanned := b.mapTokens fun t => { t with span := a.span }
  have new : (inPlaceOf a b) = spanned.withSigil { spanned.sigil with trivia := a.sigil.trivia } := rfl
  have tree : directiveTree a.sigil.leadingText name fetchType others =
      (directiveTree "" name fetchType others).withSigil (.synthetic .at a.sigil.leadingText) := rfl
  have sigil : ({ spanned.sigil with trivia := a.sigil.trivia } : Token).bare =
      (Token.synthetic .at a.sigil.leadingText).bare := by
    rw [Token.bare_eq_iff, Annotation.mapTokens_sigil]
    exact ⟨kind, by rw [Token.leadingText_synthetic]; rfl⟩
  rw [new, tree, Annotation.mapTokens_withSigil, Annotation.mapTokens_withSigil,
    Annotation.mapTokens_mapTokens, span, h, sigil]

/-- **Replacements keep a file readable** — in the place of the old annotation, the new one fits and
is legible. -/
theorem Directs.keeps {n : Nat} {f : List TokenKind} {tail : List Char} {name fetchType : String}
    {arguments others : List Argument} {a c : Annotation}
    (h : Directs n name fetchType arguments others) (fits : a.Fits n f) (legible : Legible a.tokens tail)
    (names : ∀ b ∈ arguments, b.label.isSome)
    (hc : c.mapTokens Token.bare =
      (directiveTree a.sigil.leadingText name fetchType others).mapTokens Token.bare) :
    c.Fits n f ∧ Legible c.tokens tail := by
  constructor
  · rw [← Annotation.fits_mapTokens Token.kind_bare, hc, Annotation.fits_mapTokens Token.kind_bare]
    exact fits_directiveTree h.respaced fits.sigil.1 h.detached names
  · obtain ⟨ts, hts⟩ := a.tokens_eq_cons
    rw [hts] at legible
    rw [← legible_bare, ← Annotation.tokens_mapTokens, hc, Annotation.tokens_mapTokens, legible_bare,
      tokens_directiveTree h.respaced]
    exact legible_directiveTokens legible.1 h.name h.fetchType h.detached tail

end DeferFetch
