/-
# DeferFetch.Proofs.Walk.Replace — walks that replace annotations.

A walk rebuilds every node of a file around what its visits give. If each visit gives an annotation
that fits where the visited one does, and is legible there, then so is all that is rebuilt. Besides,
any relation between the old and the new parts of a file and the states around them holds of whole
trees if it composes along the tokens and holds of single visits (`Visits`, `CompilationUnit.walked`).
-/
import DeferFetch.Proofs.Grammar.Standing
import DeferFetch.Proofs.Grammar.Text
import DeferFetch.Proofs.Walk.Opening

namespace DeferFetch

/-! ## Parts of files -/

/-- **`Part`** — a part of a file: its tokens, and the annotations that stand among them, in the order
in which a walk comes to them. -/
structure Part where
  tokens : List Token
  annotations : List Annotation := []

namespace Part

instance : Append Part := ⟨fun p q => ⟨p.tokens ++ q.tokens, p.annotations ++ q.annotations⟩⟩

@[simp] theorem tokens_append (p q : Part) : (p ++ q).tokens = p.tokens ++ q.tokens := rfl

@[simp] theorem annotations_append (p q : Part) :
    (p ++ q).annotations = p.annotations ++ q.annotations := rfl

/-- A part without annotations. -/
def plain (ts : List Token) : Part := ⟨ts, []⟩

@[simp] theorem tokens_plain (ts : List Token) : (plain ts).tokens = ts := rfl

@[simp] theorem annotations_plain (ts : List Token) : (plain ts).annotations = [] := rfl

theorem ext {p q : Part} (tokens : p.tokens = q.tokens) (annotations : p.annotations = q.annotations) :
    p = q := by
  cases p
  cases q
  rw [mk.injEq]
  exact ⟨tokens, annotations⟩

end Part

/-- The tokens and annotations of a tree. -/
def TokenTree.part (tree : TokenTree) : Part := ⟨tree.tokens, tree.annotations⟩

/-- The tokens and annotations of several trees. -/
def TokenTree.listPart (trees : List TokenTree) : Part :=
  ⟨TokenTree.listTokens trees, TokenTree.listAnnotations trees⟩

theorem TokenTree.part_token (t : Token) : (TokenTree.token t).part = .plain [t] := by
  simp only [TokenTree.part, TokenTree.tokens, TokenTree.annotations, Part.plain]

theorem TokenTree.part_group (delimiter : Delimiter) (opening closing : Token)
    (trees : List TokenTree) :
    (TokenTree.group ⟨delimiter, opening, trees, closing⟩).part =
      ⟨[opening] ++ ((TokenTree.listPart trees).tokens ++ [closing]),
        (TokenTree.listPart trees).annotations⟩ := by
  simp only [TokenTree.part, TokenTree.tokens, TokenTree.annotations, TokenTree.listPart,
    List.cons_append, List.nil_append]

theorem TokenTree.listPart_nil : TokenTree.listPart [] = .plain [] := by
  simp only [TokenTree.listPart, TokenTree.listTokens, TokenTree.listAnnotations, Part.plain]

theorem TokenTree.listPart_cons (tree : TokenTree) (trees : List TokenTree) :
    TokenTree.listPart (tree :: trees) = tree.part ++ TokenTree.listPart trees := by
  simp only [TokenTree.listPart, TokenTree.listTokens, TokenTree.listAnnotations, TokenTree.part]
  rfl

/-- The tokens and annotations of several arguments. -/
def Argument.listPart (arguments : List Argument) (commas : List Token) : Part :=
  ⟨Argument.listTokens arguments commas, Argument.listAnnotations arguments⟩

/-- The tokens and annotations of an element value. -/
def ElementValue.part (value : ElementValue) : Part := ⟨value.tokens, value.annotations⟩

/-- The tokens and annotations of several values. -/
def ElementValue.listPart (values : List ElementValue) (commas : List Token) : Part :=
  ⟨ElementValue.listTokens values commas, ElementValue.listAnnotations values⟩

/-- The tokens of an annotation, and the annotations up to itself. -/
def Annotation.part (a : Annotation) : Part := ⟨a.tokens, a.annotations⟩

/-- What stands between the parentheses of an annotation. -/
def Annotation.inner (a : Annotation) : Part :=
  match a.arguments? with
  | none => .plain []
  | some l => Argument.listPart l.arguments l.commas

/-- The tokens of an annotation, and the annotations within its arguments. -/
def Annotation.shell (a : Annotation) : Part := ⟨a.tokens, a.inner.annotations⟩

/-- **`a.withArguments arguments`** — the annotation with other arguments between its parentheses. -/
def Annotation.withArguments (a : Annotation) (arguments : List Argument) : Annotation :=
  { a with arguments? := a.arguments?.map fun l => { l with arguments } }

/-! ## One part after the other -/

variable {σ : Type}

/-- **`Walked R s t p q f tail fits`** — walking over the part `p`, which stands before the kinds `f`
and the text `tail`, comes to `q` and from the state `s` to `t`. Whatever follows in the end, as long
as it is the same up to the next annotation: `fits` holds of its kinds, and `q` is legible before
its text. -/
structure Walked (R : σ → Part → Part → σ → Prop) (s t : σ) (p q : Part) (f : List TokenKind)
    (tail : List Char) (fits : List TokenKind → Prop) : Prop where
  related : R s p q t
  fits : ∀ g, SameKinds f g → fits g
  legible : ∀ tail', SameText tail tail' → Legible q.tokens tail'
  sameKinds : ∀ g, SameKinds f g → SameKinds (kinds p.tokens ++ f) (kinds q.tokens ++ g)
  sameText : ∀ tail', SameText tail tail' →
    SameText (spelling p.tokens ++ tail) (spelling q.tokens ++ tail')

/-- **`Composes R`** — the relation holds of parts without annotations that stay as they are, and of
two parts one after the other if it holds of each. -/
structure Composes (R : σ → Part → Part → σ → Prop) : Prop where
  plain : ∀ s ts, R s (.plain ts) (.plain ts) s
  append : ∀ {s t u p q p' q'}, R s p q t → R t p' q' u → R s (p ++ p') (q ++ q') u

section Walked

variable {R : σ → Part → Part → σ → Prop} {s t u : σ} {p q p' q' : Part} {f : List TokenKind}
  {tail : List Char} {fits fits' : List TokenKind → Prop}

/-- Tokens outside of annotations stay. -/
theorem Walked.plain (hR : Composes R) {ts : List Token} (plain : Plain ts)
    (legible : Legible ts tail) : Walked R s s (.plain ts) (.plain ts) f tail fun _ => True where
  related := hR.plain s ts
  fits _ _ := trivial
  legible tail' same := by
    refine same.legible (fun t ht => ?_) legible
    have := plain t ht
    simp only [TokenKind.isPlain, Bool.and_eq_true, Bool.not_eq_true'] at this
    exact this.2
  sameKinds g same := same.append _
  sameText tail' same := same.append _

theorem Walked.append (hR : Composes R)
    (h : Walked R s t p q (kinds p'.tokens ++ f) (spelling p'.tokens ++ tail) fits)
    (h' : Walked R t u p' q' f tail fits') :
    Walked R s u (p ++ p') (q ++ q') f tail
      fun g => fits (kinds q'.tokens ++ g) ∧ fits' g where
  related := hR.append h.related h'.related
  fits g same := ⟨h.fits _ (h'.sameKinds g same), h'.fits g same⟩
  legible tail' same := legible_append.2 ⟨h.legible _ (h'.sameText tail' same), h'.legible tail' same⟩
  sameKinds g same := by
    simpa using h.sameKinds _ (h'.sameKinds g same)
  sameText tail' same := by
    simpa using h.sameText _ (h'.sameText tail' same)

theorem Walked.imp (h : Walked R s t p q f tail fits)
    (imp : ∀ g, SameKinds f g → SameKinds (kinds p.tokens ++ f)
      (kinds q.tokens ++ g) → fits g → fits' g) :
    Walked R s t p q f tail fits' :=
  { h with fits := fun g same => imp g same (h.sameKinds g same) (h.fits g same) }

/-- The same parts, written in another way. -/
theorem Walked.cast (h : Walked R s t p q f tail fits) (hp : p = p') (hq : q = q') :
    Walked R s t p' q' f tail fits := hp ▸ hq ▸ h

/-- Tokens that stay may stand before and after. -/
theorem Walked.between (hR : Composes R) {before after : List Token} (plainBefore : Plain before)
    (plainAfter : Plain after) (legible : Legible (before ++ (p.tokens ++ after)) tail)
    (h : Walked R s t p q (kinds after ++ f) (spelling after ++ tail) fits) :
    Walked R s t ⟨before ++ (p.tokens ++ after), p.annotations⟩
      ⟨before ++ (q.tokens ++ after), q.annotations⟩ f tail
      fun g => fits (kinds after ++ g) := by
  rw [legible_append, legible_append] at legible
  have whole := (Walked.plain hR (s := s) (f := kinds (p.tokens ++ after) ++ f)
    plainBefore legible.1).append hR
    (h.append hR (Walked.plain hR plainAfter legible.2.2))
  have shape (p : Part) : Part.plain before ++ (p ++ Part.plain after) =
      ⟨before ++ (p.tokens ++ after), p.annotations⟩ := Part.ext rfl (by simp)
  exact (whole.cast (shape p) (shape q)).imp fun g _ _ h => h.2.1

end Walked

/-! ## Visits -/

/-- **`Visits N R visit`** — for annotations that nest at most `N` deep: a visit gives an annotation
that fits and is legible in the place of the visited one and stands after the same blanks and
comments, and the relation holds of a visit if it holds of the walk over the arguments before. -/
structure Visits (N : Nat) (R : σ → Part → Part → σ → Prop)
    (visit : Annotation → StateM σ Annotation) : Prop extends Composes R where
  keeps : ∀ {n : Nat} {f : List TokenKind} {tail : List Char} {a : Annotation} (s : σ), n ≤ N →
    a.Fits n f → Legible a.tokens tail →
    ((visit a).run s).1.Fits n f ∧ Legible ((visit a).run s).1.tokens tail
  leading : ∀ (a : Annotation) (s : σ),
    ((visit a).run s).1.sigil.leadingText = a.sigil.leadingText
  step : ∀ {n : Nat} {f : List TokenKind} {tail : List Char} {a : Annotation}
    {arguments : List Argument} {s t : σ}, n ≤ N → (a.withArguments arguments).Fits n f →
    Legible (a.withArguments arguments).tokens tail →
    R s a.inner (a.withArguments arguments).inner t →
    R s a.part ((visit (a.withArguments arguments)).run t).1.part
      ((visit (a.withArguments arguments)).run t).2

theorem Annotation.Fits.opens {n : Nat} {a : Annotation} {f : List TokenKind}
    (h : a.Fits n f) (g : List TokenKind) :
    DeferFetch.atAnnotation (DeferFetch.kinds a.tokens ++ g) = true := by
  obtain ⟨ks, name, hk⟩ : ∃ ks name, DeferFetch.kinds a.tokens = .at :: .identifier name :: ks := by
    have identifier {k : TokenKind} (hk : k.isIdentifier = true) : ∃ name, k = .identifier name := by
      cases k <;> first | exact ⟨_, rfl⟩ | cases hk
    obtain ⟨sigil, name, _ | ⟨opening, arguments, commas, closing⟩⟩ := a
    · obtain ⟨-, sign, first, -⟩ := h
      obtain ⟨x, hx⟩ := identifier first.1
      exact ⟨_, x, by simp [QualifiedName.tokens, Annotation.tokens, sign, hx]; rfl⟩
    · obtain ⟨-, sign, first, -⟩ := h
      obtain ⟨x, hx⟩ := identifier first.1
      exact ⟨_, x, by simp [QualifiedName.tokens, Annotation.tokens, sign, hx]; rfl⟩
  rw [hk]
  rfl

/-- Annotations after the same blanks and comments begin with the same text. -/
theorem Annotation.Fits.sameText {n m : Nat} {a b : Annotation} {f g : List TokenKind}
    (ha : a.Fits n f) (hb : b.Fits m g) (leading : b.sigil.leadingText = a.sigil.leadingText)
    (tail tail' : List Char) :
    SameText (spelling a.tokens ++ tail) (spelling b.tokens ++ tail') := by
  obtain ⟨ts, hts⟩ := a.tokens_eq_cons
  obtain ⟨us, hus⟩ := b.tokens_eq_cons
  rw [hts, hus, spelling_cons, spelling_cons, ha.sigil.2, hb.sigil.2, leading]
  simpa [TokenKind.text] using SameText.sign a.sigil.leadingText.toList (spelling ts ++ tail)
    (spelling us ++ tail')

section Trees

variable {N : Nat} {R : σ → Part → Part → σ → Prop} {visit : Annotation → StateM σ Annotation}

/-- An annotation whose arguments have been walked over is visited. -/
theorem Visits.walked (v : Visits N R visit) {n : Nat} (hn : n ≤ N) {a : Annotation}
    {arguments : List Argument} {f : List TokenKind} {tail : List Char} {s t : σ}
    (h : Walked R s t a.shell (a.withArguments arguments).shell f tail
      ((a.withArguments arguments).Fits n))
    (fits : a.Fits n f) (inner : R s a.inner (a.withArguments arguments).inner t) :
    Walked R s ((visit (a.withArguments arguments)).run t).2 a.part
      ((visit (a.withArguments arguments)).run t).1.part f tail
      (((visit (a.withArguments arguments)).run t).1.Fits n) where
  related := v.step hn (h.fits f (.refl f)) (h.legible tail (.refl tail)) inner
  fits g same := (v.keeps t hn (h.fits g same) (h.legible tail (.refl tail))).1
  legible tail' same := (v.keeps t hn (h.fits f (.refl f)) (h.legible tail' same)).2
  sameKinds g same := .of_opens (fits.opens f)
    ((v.keeps t hn (h.fits g same) (h.legible tail (.refl tail))).1.opens g)
  sameText tail' _ := fits.sameText (v.keeps t hn (h.fits f (.refl f)) (h.legible tail (.refl tail))).1
    (v.leading _ t) tail tail'

/-- **`Alike f g trees trees'`** — trees walked over, before `f` and `g`: one by one they are both
groups in parentheses or both not, and from each on the kinds are the same up to the next annotation.
-/
def Alike (f g : List TokenKind) : List TokenTree → List TokenTree → Prop
  | [], trees' => trees' = []
  | tree :: trees, trees' => ∃ tree' others, trees' = tree' :: others ∧
      Parser.isParenthesized tree' = Parser.isParenthesized tree ∧
      SameKinds (kinds (TokenTree.listTokens (tree :: trees)) ++ f)
        (kinds (TokenTree.listTokens (tree' :: others)) ++ g) ∧
      Alike f g trees others

theorem Alike.ne_nil {f g : List TokenKind} {trees trees' : List TokenTree}
    (h : Alike f g trees trees') (ne : trees ≠ []) : trees' ≠ [] := by
  cases trees with
  | nil => exact absurd rfl ne
  | cons tree trees =>
    obtain ⟨tree', others, rfl, -⟩ := h
    exact List.cons_ne_nil _ _

/-- A test that fails at each of some trees fails at each of the new ones. -/
theorem Alike.avoids {f g : List TokenKind} {trees trees' : List TokenTree}
    (h : Alike f g trees trees') {stop : List TokenKind → Bool} (short : Shortsighted stop)
    (avoid : avoids stop trees f) : DeferFetch.avoids stop trees' g := by
  induction trees generalizing trees' with
  | nil =>
    obtain rfl : trees' = [] := h
    trivial
  | cons tree trees ih =>
    obtain ⟨tree', others, rfl, -, same, alike⟩ := h
    exact ⟨(short.congr same).symm.trans avoid.1, ih alike avoid.2⟩

theorem TokenTree.isParenthesized_mapAnnotationsM (tree : TokenTree) (s : σ) :
    Parser.isParenthesized ((tree.mapAnnotationsM visit).run s).1 = Parser.isParenthesized tree := by
  rcases tree with t | ⟨delimiter, opening, trees, closing⟩ | a
  · simp only [TokenTree.mapAnnotationsM, run_pure_state]
  · simp only [TokenTree.mapAnnotationsM, run_bind_state, run_pure_state, Parser.isParenthesized]
  · simp only [TokenTree.mapAnnotationsM, run_map_state, Parser.isParenthesized]

/-- A label fits before a value that begins as the old one did. -/
theorem fitsLabel.congr {label : Option (Token × Token)} {f g : List TokenKind}
    (h : fitsLabel label f) (same : SameKinds f g) : fitsLabel label g := by
  cases label with
  | none => exact (Shortsighted.atLabel.congr same).symm.trans h
  | some label => exact h

/-- Arguments with the same labels have names just as the old ones. -/
theorem labelled.congr {arguments arguments' : List Argument}
    (same : arguments'.map Argument.label = arguments.map Argument.label)
    (h : DeferFetch.labelled arguments) : DeferFetch.labelled arguments' := by
  have all {as bs : List Argument} (same : bs.map Argument.label = as.map Argument.label)
      (h : ∀ a ∈ as, a.label.isSome) : ∀ b ∈ bs, b.label.isSome := by
    intro b hb
    obtain ⟨a, ha, label⟩ := List.mem_map.1 (same ▸ List.mem_map_of_mem (f := Argument.label) hb)
    rw [← label]
    exact h a ha
  rcases arguments with _ | ⟨a, _ | ⟨b, arguments⟩⟩
  · obtain rfl : arguments' = [] := by simpa using same
    exact h
  · obtain ⟨a', rfl⟩ : ∃ a', arguments' = [a'] := by
      rw [← List.length_eq_one_iff]
      simpa using congrArg List.length same
    trivial
  · obtain ⟨a', b', others, rfl⟩ : ∃ a' b' others, arguments' = a' :: b' :: others := by
      rcases arguments' with _ | ⟨a', _ | ⟨b', others⟩⟩
      · simp at same
      · simp at same
      · exact ⟨a', b', others, rfl⟩
    exact all same h

theorem Walked.annotTree {a a' : Annotation} {n : Nat} {s t : σ} {f : List TokenKind}
    {tail : List Char} (h : Walked R s t a.part a'.part f tail (a'.Fits n)) :
    Walked R s t (TokenTree.annot a).part (TokenTree.annot a').part f tail
      ((TokenTree.annot a').Fits n) := by
  have shape (a : Annotation) : a.part = (TokenTree.annot a).part :=
    Part.ext (by simp only [TokenTree.part, Annotation.part, TokenTree.tokens])
      (by simp only [TokenTree.part, Annotation.part, TokenTree.annotations])
  exact (h.cast (shape a) (shape a')).imp fun g _ _ h => ⟨h.opens g, h⟩

theorem Walked.annotValue {a a' : Annotation} {n : Nat} {s t : σ} {f : List TokenKind}
    {tail : List Char} (h : Walked R s t a.part a'.part f tail (a'.Fits n)) :
    Walked R s t (ElementValue.annot a).part (ElementValue.annot a').part f tail
      ((ElementValue.annot a').Fits n) := by
  have shape (a : Annotation) : a.part = (ElementValue.annot a).part :=
    Part.ext (by simp only [ElementValue.part, Annotation.part, ElementValue.tokens])
      (by simp only [ElementValue.part, Annotation.part, ElementValue.annotations])
  exact h.cast (shape a) (shape a')

theorem Walked.expression {trees trees' : List TokenTree} {n : Nat} {s t : σ}
    {f : List TokenKind} {tail : List Char}
    (fits : (ElementValue.expression trees).Fits n f)
    (h : TokenTree.listFits n trees f →
      Walked R s t (TokenTree.listPart trees) (TokenTree.listPart trees') f tail fun g =>
        TokenTree.listFits n trees' g ∧ Alike f g trees trees') :
    Walked R s t (ElementValue.expression trees).part (ElementValue.expression trees').part f tail
      ((ElementValue.expression trees').Fits n) := by
  obtain ⟨ne, begins, hf, avoid, ends⟩ := fits
  have shape (trees : List TokenTree) :
      TokenTree.listPart trees = (ElementValue.expression trees).part :=
    Part.ext (by simp [TokenTree.listPart, ElementValue.part, ElementValue.tokens])
      (by simp [TokenTree.listPart, ElementValue.part, ElementValue.annotations])
  refine ((h hf).imp fun g same kinds h => ?_).cast (shape trees) (shape trees')
  exact ⟨h.2.ne_nil ne, (Shortsighted.beginsOther.congr kinds).symm.trans begins, h.1,
    h.2.avoids (.atKind _) avoid, (Shortsighted.endsExpression.congr same).symm.trans ends⟩

theorem Walked.lastValue {value value' : ElementValue} {n : Nat} {s t : σ} {f : List TokenKind}
    {tail : List Char}
    (fits : ElementValue.listFits n [value] [] f)
    (legible : Legible (ElementValue.listTokens [value] []) tail)
    (h : value.Fits n f → Legible value.tokens tail →
      Walked R s t value.part value'.part f tail (value'.Fits n)) :
    Walked R s t (ElementValue.listPart [value] []) (ElementValue.listPart [value'] [])
      f tail (ElementValue.listFits n [value'] []) := by
  have shape (value : ElementValue) : value.part = ElementValue.listPart [value] [] :=
    Part.ext (by simp [ElementValue.listPart, ElementValue.part, ElementValue.listTokens])
      (by simp [ElementValue.listPart, ElementValue.part, ElementValue.listAnnotations])
  have legible : Legible value.tokens tail := by simpa [ElementValue.listTokens] using legible
  exact ((h fits.2 legible).cast (shape value) (shape value')).imp fun g _ _ h => ⟨rfl, h⟩

section Nodes

variable (hR : Composes R) {s t u : σ} {n : Nat} {f : List TokenKind} {tail : List Char}

include hR

theorem Walked.token {token : Token} (fits : (TokenTree.token token).Fits n f)
    (legible : Legible (TokenTree.token token).tokens tail) :
    Walked R s s (TokenTree.token token).part (TokenTree.token token).part f tail
      ((TokenTree.token token).Fits n) := by
  have plain : Plain [token] := by simpa only [TokenTree.tokens] using TokenTree.Fits.plain fits
  rw [TokenTree.tokens] at legible
  rw [TokenTree.part_token]
  refine (Walked.plain hR plain legible).imp fun g same _ _ => ?_
  obtain ⟨opening, sign, others⟩ := fits
  exact ⟨opening, (Shortsighted.atAnnotation.congr (same.cons token.kind)).symm.trans sign, others⟩

theorem Walked.group {delimiter : Delimiter} {opening closing : Token} {trees trees' : List TokenTree}
    (fits : (TokenTree.group ⟨delimiter, opening, trees, closing⟩).Fits n f)
    (legible : Legible (TokenTree.group ⟨delimiter, opening, trees, closing⟩).tokens tail)
    (h : TokenTree.listFits (n - 1) trees (closing.kind :: f) →
      Legible (TokenTree.listTokens trees) (spelling [closing] ++ tail) →
      Walked R s t (TokenTree.listPart trees) (TokenTree.listPart trees') (closing.kind :: f)
        (spelling [closing] ++ tail) (TokenTree.listFits (n - 1) trees')) :
    Walked R s t (TokenTree.group ⟨delimiter, opening, trees, closing⟩).part
      (TokenTree.group ⟨delimiter, opening, trees', closing⟩).part f tail
      ((TokenTree.group ⟨delimiter, opening, trees', closing⟩).Fits n) := by
  obtain ⟨deep, ho, hf, hc⟩ := fits
  rw [TokenTree.tokens] at legible
  have inside := h hf (legible_append.1 (legible_cons.1 legible).2.2).1
  have legible : Legible ([opening] ++ ((TokenTree.listPart trees).tokens ++ [closing])) tail :=
    legible
  have whole := inside.between (f := f) hR
    (by simp [TokenKind.isPlain_of_eq ho rfl]) (by simp [TokenKind.isPlain_of_eq hc rfl]) legible
  rw [TokenTree.part_group, TokenTree.part_group]
  exact whole.imp fun g _ _ h => ⟨deep, ho, h, hc⟩

theorem Walked.tree {tree tree' : TokenTree} {trees trees' : List TokenTree}
    (fits : TokenTree.listFits n (tree :: trees) f)
    (legible : Legible (TokenTree.listTokens (tree :: trees)) tail)
    (h : tree.Fits n (kinds (TokenTree.listTokens trees) ++ f) →
      Legible tree.tokens (spelling (TokenTree.listTokens trees) ++ tail) →
      Walked R s t tree.part tree'.part (kinds (TokenTree.listTokens trees) ++ f)
        (spelling (TokenTree.listTokens trees) ++ tail) (tree'.Fits n))
    (alike : Parser.isParenthesized tree' = Parser.isParenthesized tree)
    (hs : TokenTree.listFits n trees f → Legible (TokenTree.listTokens trees) tail →
      Walked R t u (TokenTree.listPart trees) (TokenTree.listPart trees') f tail fun g =>
        TokenTree.listFits n trees' g ∧ Alike f g trees trees') :
    Walked R s u (TokenTree.listPart (tree :: trees)) (TokenTree.listPart (tree' :: trees')) f tail
      fun g => TokenTree.listFits n (tree' :: trees') g ∧ Alike f g (tree :: trees) (tree' :: trees')
    := by
  rw [TokenTree.listTokens, legible_append] at legible
  rw [TokenTree.listPart_cons, TokenTree.listPart_cons]
  refine ((h fits.1 legible.1).append hR (hs fits.2 legible.2)).imp fun g same kinds h => ?_
  refine ⟨⟨h.1, h.2.1⟩, tree', trees', rfl, alike, ?_, h.2.2⟩
  rw [TokenTree.listTokens, TokenTree.listTokens]
  exact kinds

theorem Walked.labelled {label : Option (Token × Token)} {value value' : ElementValue}
    (fits : fitsLabel label (kinds value.tokens ++ f))
    (legible : Legible (labelTokens label ++ value.tokens) tail)
    (h : Legible value.tokens tail → Walked R s t value.part value'.part f tail (value'.Fits n)) :
    Walked R s t (.plain (labelTokens label) ++ value.part)
      (.plain (labelTokens label) ++ value'.part) f tail
      fun g => fitsLabel label (kinds value'.tokens ++ g) ∧ value'.Fits n g := by
  have walked := h (legible_append.1 legible).2
  refine ((Walked.plain hR (fitsLabel.plain fits) (legible_append.1 legible).1).append hR
    walked).imp fun g same _ h => ⟨fits.congr (walked.sameKinds g same), h.2⟩

theorem Walked.lastArgument {label : Option (Token × Token)} {value value' : ElementValue}
    (fits : Argument.listFits n [⟨label, value⟩] [] f)
    (legible : Legible (Argument.listTokens [⟨label, value⟩] []) tail)
    (h : value.Fits n f → Legible value.tokens tail →
      Walked R s t value.part value'.part f tail (value'.Fits n)) :
    Walked R s t (Argument.listPart [⟨label, value⟩] []) (Argument.listPart [⟨label, value'⟩] [])
      f tail (Argument.listFits n [⟨label, value'⟩] []) := by
  obtain ⟨-, hl, hv⟩ := fits
  rw [Argument.listTokens_last] at legible
  have shape (value : ElementValue) : Argument.listPart [⟨label, value⟩] [] =
      .plain (labelTokens label) ++ value.part :=
    Part.ext (Argument.listTokens_last _) (by
      simp [Argument.listPart, Argument.listAnnotations, ElementValue.part])
  rw [shape, shape]
  exact (Walked.labelled hR hl legible (h hv)).imp fun g _ _ h => ⟨rfl, h.1, h.2⟩

theorem Walked.argument {label : Option (Token × Token)} {value value' : ElementValue}
    {arguments arguments' : List Argument} {comma : Token} {commas : List Token}
    (fits : Argument.listFits n (⟨label, value⟩ :: arguments) (comma :: commas) f)
    (legible : Legible (Argument.listTokens (⟨label, value⟩ :: arguments) (comma :: commas)) tail)
    (h : value.Fits n (comma.kind :: (kinds (Argument.listTokens arguments commas) ++ f)) →
      Legible value.tokens (spelling (comma :: Argument.listTokens arguments commas) ++ tail) →
      Walked R s t value.part value'.part
        (comma.kind :: (kinds (Argument.listTokens arguments commas) ++ f))
        (spelling (comma :: Argument.listTokens arguments commas) ++ tail) (value'.Fits n))
    (hs : Argument.listFits n arguments commas f →
      Legible (Argument.listTokens arguments commas) tail →
      Walked R t u (Argument.listPart arguments commas) (Argument.listPart arguments' commas) f tail
        (Argument.listFits n arguments' commas))
    (labels : arguments'.map Argument.label = arguments.map Argument.label) :
    Walked R s u (Argument.listPart (⟨label, value⟩ :: arguments) (comma :: commas))
      (Argument.listPart (⟨label, value'⟩ :: arguments') (comma :: commas)) f tail
      (Argument.listFits n (⟨label, value'⟩ :: arguments') (comma :: commas)) := by
  obtain ⟨hc, ne, hl, hv, hfs⟩ := fits
  rw [Argument.listTokens, legible_append] at legible
  have shape (value : ElementValue) (arguments : List Argument) :
      Argument.listPart (⟨label, value⟩ :: arguments) (comma :: commas) =
        (.plain (labelTokens label) ++ value.part) ++
          (.plain [comma] ++ Argument.listPart arguments commas) :=
    Part.ext (by simp [Argument.listPart, Argument.listTokens, ElementValue.part])
      (by simp [Argument.listPart, Argument.listAnnotations, ElementValue.part])
  rw [shape, shape]
  have others := hs hfs (legible_cons.1 legible.2).2.2
  have rest := (Walked.plain hR (s := t)
    (show Plain [comma] by simp [TokenKind.isPlain_of_eq hc rfl]) ⟨(legible_cons.1 legible.2).1,
      (legible_cons.1 legible.2).2.1, legible_nil _⟩).append hR others
  have first := Walked.labelled hR (by simpa using hl) legible.1 (h (by simpa using hv))
  -- a comma stands before another argument, and none has gone
  have ne' : arguments' ≠ [] := by
    rintro rfl
    exact ne (List.map_eq_nil_iff.1 labels.symm)
  refine (first.append hR rest).imp fun g same _ h => ⟨hc, ne', ?_, ?_, h.2.2⟩
  · simpa [Argument.listPart] using h.1.1
  · simpa [Argument.listPart] using h.1.2

theorem Walked.noArguments {commas : List Token} (fits : Argument.listFits n [] commas f) :
    Walked R s s (Argument.listPart [] commas) (Argument.listPart [] commas) f tail
      (Argument.listFits n [] commas) := by
  obtain rfl : commas = [] := fits
  have stays := Walked.plain hR (s := s) (f := f) plain_nil (legible_nil tail)
  have shape : Part.plain [] = Argument.listPart [] [] := Part.ext rfl rfl
  exact (stays.cast shape shape).imp fun _ _ _ _ => rfl

theorem Walked.array {opening closing : Token} {values values' : List ElementValue}
    {commas : List Token} (fits : (ElementValue.array opening values commas closing).Fits n f)
    (legible : Legible (ElementValue.array opening values commas closing).tokens tail)
    (h : ElementValue.listFits (n - 1) values commas (closing.kind :: f) →
      Legible (ElementValue.listTokens values commas) (spelling [closing] ++ tail) →
      Walked R s t (ElementValue.listPart values commas) (ElementValue.listPart values' commas)
        (closing.kind :: f) (spelling [closing] ++ tail)
        (ElementValue.listFits (n - 1) values' commas)) :
    Walked R s t (ElementValue.array opening values commas closing).part
      (ElementValue.array opening values' commas closing).part f tail
      ((ElementValue.array opening values' commas closing).Fits n) := by
  obtain ⟨deep, ho, hc, hf⟩ := fits
  rw [ElementValue.tokens] at legible
  have inside := h hf (legible_append.1 (legible_cons.1 legible).2.2).1
  have legible : Legible ([opening] ++ ((ElementValue.listPart values commas).tokens ++ [closing]))
    tail := legible
  have shape (values : List ElementValue) :
      ⟨[opening] ++ ((ElementValue.listPart values commas).tokens ++ [closing]),
        (ElementValue.listPart values commas).annotations⟩ =
      (ElementValue.array opening values commas closing).part :=
    Part.ext (by simp [ElementValue.listPart, ElementValue.part, ElementValue.tokens])
      (by simp [ElementValue.listPart, ElementValue.part, ElementValue.annotations])
  have whole := inside.between (f := f) hR
    (by simp [TokenKind.isPlain_of_eq ho rfl]) (by simp [TokenKind.isPlain_of_eq hc rfl]) legible
  exact (whole.cast (shape values) (shape values')).imp fun g _ _ h => ⟨deep, ho, hc, h⟩

theorem Walked.noValues {commas : List Token} (fits : ElementValue.listFits n [] commas f) :
    Walked R s s (ElementValue.listPart [] commas) (ElementValue.listPart [] commas) f tail
      (ElementValue.listFits n [] commas) := by
  obtain rfl : commas = [] := fits
  have stays := Walked.plain hR (s := s) (f := f) plain_nil (legible_nil tail)
  have shape : Part.plain [] = ElementValue.listPart [] [] := Part.ext rfl rfl
  exact (stays.cast shape shape).imp fun _ _ _ _ => rfl

theorem Walked.value {value value' : ElementValue} {values values' : List ElementValue}
    {comma : Token} {commas : List Token}
    (fits : ElementValue.listFits n (value :: values) (comma :: commas) f)
    (legible : Legible (ElementValue.listTokens (value :: values) (comma :: commas)) tail)
    (h : value.Fits n (comma.kind :: (kinds (ElementValue.listTokens values commas) ++ f)) →
      Legible value.tokens (spelling (comma :: ElementValue.listTokens values commas) ++ tail) →
      Walked R s t value.part value'.part
        (comma.kind :: (kinds (ElementValue.listTokens values commas) ++ f))
        (spelling (comma :: ElementValue.listTokens values commas) ++ tail) (value'.Fits n))
    (hs : ElementValue.listFits n values commas f →
      Legible (ElementValue.listTokens values commas) tail →
      Walked R t u (ElementValue.listPart values commas) (ElementValue.listPart values' commas) f
        tail (ElementValue.listFits n values' commas)) :
    Walked R s u (ElementValue.listPart (value :: values) (comma :: commas))
      (ElementValue.listPart (value' :: values') (comma :: commas)) f tail
      (ElementValue.listFits n (value' :: values') (comma :: commas)) := by
  obtain ⟨hc, hv, hfs⟩ := fits
  rw [ElementValue.listTokens, legible_append] at legible
  have shape (value : ElementValue) (values : List ElementValue) :
      value.part ++ (.plain [comma] ++ ElementValue.listPart values commas) =
        ElementValue.listPart (value :: values) (comma :: commas) :=
    Part.ext (by simp [ElementValue.listPart, ElementValue.listTokens, ElementValue.part])
      (by simp [ElementValue.listPart, ElementValue.listAnnotations, ElementValue.part])
  rw [← shape, ← shape]
  have others := hs hfs (legible_cons.1 legible.2).2.2
  have rest := (Walked.plain hR (s := t)
    (show Plain [comma] by simp [TokenKind.isPlain_of_eq hc rfl]) ⟨(legible_cons.1 legible.2).1,
      (legible_cons.1 legible.2).2.1, legible_nil _⟩).append hR others
  have first := h (by simpa using hv) legible.1
  exact (first.append hR rest).imp fun g _ _ h => ⟨hc, by simpa [ElementValue.listPart] using h.1, h.2.2⟩

end Nodes

theorem Visits.marker (v : Visits N R visit) {n : Nat} (hn : n ≤ N) {sigil : Token}
    {name : QualifiedName} {f : List TokenKind} {tail : List Char}
    (fits : (⟨sigil, name, none⟩ : Annotation).Fits n f)
    (legible : Legible (⟨sigil, name, none⟩ : Annotation).tokens tail) (s : σ) :
    Walked R s ((visit ⟨sigil, name, none⟩).run s).2 (⟨sigil, name, none⟩ : Annotation).part
      ((visit ⟨sigil, name, none⟩).run s).1.part f tail
      (((visit ⟨sigil, name, none⟩).run s).1.Fits n) := by
  have stays := Walked.plain v.toComposes (s := s) (f := f) fits.plain legible
  have shape : Part.plain (⟨sigil, name, none⟩ : Annotation).tokens =
      (⟨sigil, name, none⟩ : Annotation).shell := Part.ext rfl rfl
  have alone : (⟨sigil, name, none⟩ : Annotation) =
      (⟨sigil, name, none⟩ : Annotation).withArguments [] := rfl
  have whole : Walked R s s (⟨sigil, name, none⟩ : Annotation).shell
      (⟨sigil, name, none⟩ : Annotation).shell f tail
      ((⟨sigil, name, none⟩ : Annotation).Fits n) :=
    (stays.cast shape shape).imp fun g same _ _ => by
      obtain ⟨deep, sign, ⟨first, others, ends⟩, bare⟩ := fits
      exact ⟨deep, sign, ⟨first, others, (Shortsighted.atSegment.congr same).symm.trans ends⟩,
        (Shortsighted.congr (.atKind _) same).symm.trans bare⟩
  rw [alone] at whole ⊢
  exact v.walked hn whole fits (v.plain s [])

theorem Visits.withArguments (v : Visits N R visit) {n : Nat} (hn : n ≤ N) {sigil : Token}
    {name : QualifiedName} {opening closing : Token} {arguments arguments' : List Argument}
    {commas : List Token} {f : List TokenKind} {tail : List Char} {s t : σ}
    (fits : (⟨sigil, name, some ⟨opening, arguments, commas, closing⟩⟩ : Annotation).Fits n f)
    (legible :
      Legible (⟨sigil, name, some ⟨opening, arguments, commas, closing⟩⟩ : Annotation).tokens tail)
    (h : Argument.listFits (n - 1) arguments commas (closing.kind :: f) →
      Legible (Argument.listTokens arguments commas) (spelling [closing] ++ tail) →
      Walked R s t (Argument.listPart arguments commas) (Argument.listPart arguments' commas)
        (closing.kind :: f) (spelling [closing] ++ tail)
        (Argument.listFits (n - 1) arguments' commas))
    (labels : arguments'.map Argument.label = arguments.map Argument.label) :
    Walked R s ((visit ⟨sigil, name, some ⟨opening, arguments', commas, closing⟩⟩).run t).2
      (⟨sigil, name, some ⟨opening, arguments, commas, closing⟩⟩ : Annotation).part
      ((visit ⟨sigil, name, some ⟨opening, arguments', commas, closing⟩⟩).run t).1.part f tail
      (((visit ⟨sigil, name, some ⟨opening, arguments', commas, closing⟩⟩).run t).1.Fits n) := by
  obtain ⟨deep, sign, hn', ho, hc, names, hf⟩ := id fits
  have tokens (arguments : List Argument) :
      (⟨sigil, name, some ⟨opening, arguments, commas, closing⟩⟩ : Annotation).tokens =
        (sigil :: name.tokens ++ [opening]) ++
          ((Argument.listPart arguments commas).tokens ++ [closing]) := by
    simp [Argument.listPart, Annotation.tokens]
  rw [tokens] at legible
  have inside := h hf (legible_append.1 (legible_append.1 legible).2).1
  have whole := inside.between (f := f) v.toComposes
    (by simp [TokenKind.isPlain_of_eq sign rfl, hn'.plain, TokenKind.isPlain_of_eq ho rfl])
    (by simp [TokenKind.isPlain_of_eq hc rfl]) legible
  -- the annotation as a part: what stands around the arguments is plain
  have shape (arguments : List Argument) :
      ⟨(sigil :: name.tokens ++ [opening]) ++
          ((Argument.listPart arguments commas).tokens ++ [closing]),
        (Argument.listPart arguments commas).annotations⟩ =
        (⟨sigil, name, some ⟨opening, arguments, commas, closing⟩⟩ : Annotation).shell :=
    Part.ext (tokens arguments).symm rfl
  have replaced : (⟨sigil, name, some ⟨opening, arguments', commas, closing⟩⟩ : Annotation) =
      (⟨sigil, name, some ⟨opening, arguments, commas, closing⟩⟩ : Annotation).withArguments
        arguments' := rfl
  rw [replaced]
  exact v.walked hn ((whole.cast (shape arguments) (shape arguments')).imp fun g _ _ h =>
    ⟨deep, sign, hn', ho, hc, labelled.congr labels names, h⟩) fits inside.related

theorem Argument.map_label_listMapAnnotationsM (arguments : List Argument) (s : σ) :
    ((Argument.listMapAnnotationsM visit arguments).run s).1.map Argument.label =
      arguments.map Argument.label := by
  induction arguments generalizing s with
  | nil => rfl
  | cons a arguments ih =>
    obtain ⟨label, value⟩ := a
    simp only [Argument.listMapAnnotationsM, run_bind_state, run_pure_state, List.map_cons, ih]

mutual

theorem TokenTree.walked (v : Visits N R visit) {n : Nat} (hn : n ≤ N) {tree : TokenTree}
    {f : List TokenKind} {tail : List Char} (fits : tree.Fits n f)
    (legible : Legible tree.tokens tail) (s : σ) :
    Walked R s ((tree.mapAnnotationsM visit).run s).2 tree.part
      ((tree.mapAnnotationsM visit).run s).1.part f tail
      (((tree.mapAnnotationsM visit).run s).1.Fits n) := by
  match tree, fits, legible with
  | .token t, fits, legible =>
    simp only [TokenTree.mapAnnotationsM, run_pure_state]
    exact .token v.toComposes fits legible
  | .group ⟨delimiter, opening, trees, closing⟩, fits, legible =>
    simp only [TokenTree.mapAnnotationsM, run_bind_state, run_pure_state]
    exact .group v.toComposes fits legible fun fits legible =>
      (TokenTree.listWalked v (Nat.le_trans (Nat.sub_le n 1) hn) fits legible s).imp fun _ _ _ h => h.1
  | .annot a, fits, legible =>
    simp only [TokenTree.mapAnnotationsM, run_map_state]
    exact .annotTree <| Annotation.walked v hn fits.2 legible s

theorem TokenTree.listWalked (v : Visits N R visit) {n : Nat} (hn : n ≤ N) {trees : List TokenTree}
    {f : List TokenKind} {tail : List Char} (fits : TokenTree.listFits n trees f)
    (legible : Legible (TokenTree.listTokens trees) tail) (s : σ) :
    Walked R s ((TokenTree.listMapAnnotationsM visit trees).run s).2 (TokenTree.listPart trees)
      (TokenTree.listPart ((TokenTree.listMapAnnotationsM visit trees).run s).1) f tail
      fun g => TokenTree.listFits n ((TokenTree.listMapAnnotationsM visit trees).run s).1 g ∧
        Alike f g trees ((TokenTree.listMapAnnotationsM visit trees).run s).1 := by
  match trees with
  | [] =>
    simp only [TokenTree.listMapAnnotationsM, run_pure_state]
    have stays := Walked.plain v.toComposes (s := s) (f := f) plain_nil (legible_nil tail)
    exact (stays.cast TokenTree.listPart_nil.symm TokenTree.listPart_nil.symm).imp
      fun g _ _ _ => ⟨trivial, rfl⟩
  | tree :: trees =>
    simp only [TokenTree.listMapAnnotationsM, run_bind_state, run_pure_state]
    exact .tree v.toComposes fits legible (fun fits legible => TokenTree.walked v hn fits legible s)
      (tree.isParenthesized_mapAnnotationsM s)
      fun fits legible => TokenTree.listWalked v hn fits legible _

theorem Annotation.walked (v : Visits N R visit) {n : Nat} (hn : n ≤ N) {a : Annotation}
    {f : List TokenKind} {tail : List Char} (fits : a.Fits n f) (legible : Legible a.tokens tail)
    (s : σ) :
    Walked R s ((a.mapAnnotationsM visit).run s).2 a.part ((a.mapAnnotationsM visit).run s).1.part f
      tail (((a.mapAnnotationsM visit).run s).1.Fits n) := by
  match a, fits, legible with
  | ⟨sigil, name, none⟩, fits, legible =>
    unfold Annotation.mapAnnotationsM
    exact v.marker hn fits legible s
  | ⟨sigil, name, some ⟨opening, arguments, commas, closing⟩⟩, fits, legible =>
    simp only [run_bind_state, Annotation.mapAnnotationsM]
    exact v.withArguments hn fits legible (fun fits legible =>
        Argument.listWalked v (Nat.le_trans (Nat.sub_le n 1) hn) fits legible s)
      (Argument.map_label_listMapAnnotationsM arguments s)

theorem Argument.listWalked (v : Visits N R visit) {n : Nat} (hn : n ≤ N)
    {arguments : List Argument} {commas : List Token} {f : List TokenKind} {tail : List Char}
    (fits : Argument.listFits n arguments commas f)
    (legible : Legible (Argument.listTokens arguments commas) tail) (s : σ) :
    Walked R s ((Argument.listMapAnnotationsM visit arguments).run s).2
      (Argument.listPart arguments commas)
      (Argument.listPart ((Argument.listMapAnnotationsM visit arguments).run s).1 commas) f tail
      (Argument.listFits n ((Argument.listMapAnnotationsM visit arguments).run s).1 commas) := by
  match arguments, commas, fits, legible with
  | [], _, fits, _ =>
    simp only [Argument.listMapAnnotationsM, run_pure_state]
    exact .noArguments v.toComposes fits
  | ⟨label, value⟩ :: [], [], fits, legible =>
    simp only [Argument.listMapAnnotationsM, run_bind_state, run_pure_state]
    exact .lastArgument v.toComposes fits legible fun fits legible =>
      ElementValue.walked v hn fits legible s
  | ⟨_, _⟩ :: _ :: _, [], fits, _ => cases fits.1
  | ⟨label, value⟩ :: arguments, comma :: commas, fits, legible =>
    simp only [Argument.listMapAnnotationsM, run_bind_state, run_pure_state]
    exact .argument v.toComposes fits legible
      (fun fits legible => ElementValue.walked v hn fits legible s)
      (fun fits legible => Argument.listWalked v hn fits legible _)
      (Argument.map_label_listMapAnnotationsM arguments _)

theorem ElementValue.walked (v : Visits N R visit) {n : Nat} (hn : n ≤ N) {value : ElementValue}
    {f : List TokenKind} {tail : List Char} (fits : value.Fits n f)
    (legible : Legible value.tokens tail) (s : σ) :
    Walked R s ((value.mapAnnotationsM visit).run s).2 value.part
      ((value.mapAnnotationsM visit).run s).1.part f tail
      (((value.mapAnnotationsM visit).run s).1.Fits n) := by
  match value, fits, legible with
  | .expression trees, fits, legible =>
    simp only [ElementValue.mapAnnotationsM, run_map_state]
    exact .expression fits fun fits =>
      TokenTree.listWalked v hn fits legible s
  | .annot a, fits, legible =>
    simp only [ElementValue.mapAnnotationsM, run_map_state]
    exact .annotValue <| Annotation.walked v hn fits legible s
  | .array opening values commas closing, fits, legible =>
    simp only [ElementValue.mapAnnotationsM, run_bind_state, run_pure_state]
    exact .array v.toComposes fits legible fun fits legible =>
      ElementValue.listWalked v (Nat.le_trans (Nat.sub_le n 1) hn) fits legible s

theorem ElementValue.listWalked (v : Visits N R visit) {n : Nat} (hn : n ≤ N)
    {values : List ElementValue} {commas : List Token} {f : List TokenKind} {tail : List Char}
    (fits : ElementValue.listFits n values commas f)
    (legible : Legible (ElementValue.listTokens values commas) tail) (s : σ) :
    Walked R s ((ElementValue.listMapAnnotationsM visit values).run s).2
      (ElementValue.listPart values commas)
      (ElementValue.listPart ((ElementValue.listMapAnnotationsM visit values).run s).1 commas) f
      tail
      (ElementValue.listFits n ((ElementValue.listMapAnnotationsM visit values).run s).1 commas) := by
  match values, commas, fits, legible with
  | [], _, fits, _ =>
    simp only [ElementValue.listMapAnnotationsM, run_pure_state]
    exact .noValues v.toComposes fits
  | value :: [], [], fits, legible =>
    simp only [ElementValue.listMapAnnotationsM, run_bind_state, run_pure_state]
    exact .lastValue fits legible fun fits legible => ElementValue.walked v hn fits legible s
  | _ :: _ :: _, [], fits, _ => cases fits.1
  | value :: values, comma :: commas, fits, legible =>
    simp only [ElementValue.listMapAnnotationsM, run_bind_state, run_pure_state]
    exact .value v.toComposes fits legible
      (fun fits legible => ElementValue.walked v hn fits legible s)
      (fun fits legible => ElementValue.listWalked v hn fits legible _)

end

end Trees

end DeferFetch
