/-
# DeferFetch.Proofs.Grammar.Fits — which trees the parser can give.

A tree fits a budget and what follows it if its tokens are of the right kinds, nothing in it nests
deeper than the budget, and no part of it could go on into what comes next. `DeferFetch.Proofs.Grammar.Tree`
shows that the parser reads exactly the tokens of the trees that fit. Only the kinds of tokens count, and of
what follows only a few properties of its beginning (`Resumes`).
-/
import DeferFetch.Proofs.Grammar.Takes

namespace DeferFetch

/-! ## Names -/

theorem TokenKind.eq_identifier_text {k : TokenKind} (h : k.isIdentifier = true) :
    k = .identifier k.text := by
  cases k <;> first | rfl | cases h

/-- **`n.Fits f`** — the name is made of identifiers and dots, and does not go on in `f`. -/
def QualifiedName.Fits (n : QualifiedName) (f : List TokenKind) : Prop :=
  n.first.kind.isIdentifier ∧
    (∀ segment ∈ n.others, segment.dot.kind = .dot ∧ segment.identifier.kind.isIdentifier) ∧
    atSegment f = false

/-! ## Trees and annotations -/

/-- **`avoids stop trees f`** — at none of the trees, what comes after it and `f` included, the
test `stop` holds. -/
def avoids (stop : List TokenKind → Bool) : List TokenTree → List TokenKind → Prop
  | [], _ => True
  | tree :: trees, f =>
    stop (kinds (tree.tokens ++ TokenTree.listTokens trees) ++ f) = false ∧ avoids stop trees f

/-- An expression ends before `f`. -/
def endsExpression (f : List TokenKind) : Bool := atEnd f || atClosing f || atKind .comma f

/-- An element value that is an expression cannot begin like another one. -/
def beginsOther : List TokenKind → Bool
  | .at :: _ => true
  | .opening .brace :: _ => true
  | _ => false

/-- **`fitsLabel label f`** — the name of an argument is an identifier with an equals sign; without
one, the value in `f` does not begin so. -/
def fitsLabel : Option (Token × Token) → List TokenKind → Prop
  | none, f => atLabel f = false
  | some (name, equals), _ => name.kind.isIdentifier ∧ equals.kind = .equals

/-- A single argument may have no name; several all have one. -/
def labelled : List Argument → Prop
  | [_] => True
  | arguments => ∀ a ∈ arguments, a.label.isSome

mutual

/-- **`tree.Fits n f`** — the tree fits the budget `n` before `f`. -/
def TokenTree.Fits (n : Nat) : TokenTree → List TokenKind → Prop
  | .token t, f =>
    t.kind.isOpening = false ∧ atAnnotation (t.kind :: f) = false ∧ t.kind ≠ .eof ∧
      t.kind.isClosing = false ∧ t.kind.isError = false
  | .group ⟨delimiter, opening, trees, closing⟩, f =>
    0 < n ∧ opening.kind = .opening delimiter ∧
      TokenTree.listFits (n - 1) trees (closing.kind :: f) ∧ closing.kind = .closing delimiter
  | .annot a, f => atAnnotation (kinds a.tokens ++ f) = true ∧ a.Fits n f

/-- Several trees, one after the other. -/
def TokenTree.listFits (n : Nat) : List TokenTree → List TokenKind → Prop
  | [], _ => True
  | tree :: trees, f =>
    tree.Fits n (kinds (TokenTree.listTokens trees) ++ f) ∧ TokenTree.listFits n trees f

/-- **`a.Fits n f`** — the annotation fits the budget `n` before `f`. -/
def Annotation.Fits (n : Nat) : Annotation → List TokenKind → Prop
  | ⟨sigil, name, none⟩, f =>
    0 < n ∧ sigil.kind = .at ∧ name.Fits f ∧ atKind (.opening .paren) f = false
  | ⟨sigil, name, some ⟨opening, arguments, commas, closing⟩⟩, f =>
    0 < n ∧ sigil.kind = .at ∧ name.Fits [opening.kind] ∧ opening.kind = .opening .paren ∧
      closing.kind = .closing .paren ∧ labelled arguments ∧
      Argument.listFits (n - 1) arguments commas (closing.kind :: f)

/-- Arguments with a comma between any two of them. -/
def Argument.listFits (n : Nat) : List Argument → List Token → List TokenKind → Prop
  | [], commas, _ => commas = []
  | ⟨label, value⟩ :: arguments, [], f =>
    arguments = [] ∧ fitsLabel label (kinds value.tokens ++ f) ∧ value.Fits n f
  | ⟨label, value⟩ :: arguments, comma :: commas, f =>
    comma.kind = .comma ∧ arguments ≠ [] ∧
      fitsLabel label (kinds value.tokens ++ comma.kind :: kinds (Argument.listTokens arguments commas) ++ f) ∧
      value.Fits n (comma.kind :: kinds (Argument.listTokens arguments commas) ++ f) ∧
      Argument.listFits n arguments commas f

/-- **`value.Fits n f`** — the element value fits the budget `n` before `f`. -/
def ElementValue.Fits (n : Nat) : ElementValue → List TokenKind → Prop
  | .expression trees, f =>
    trees ≠ [] ∧ beginsOther (kinds (TokenTree.listTokens trees) ++ f) = false ∧
      TokenTree.listFits n trees f ∧ avoids (atKind .comma) trees f ∧ endsExpression f = true
  | .annot a, f => a.Fits n f
  | .array opening values commas closing, f =>
    0 < n ∧ opening.kind = .opening .brace ∧ closing.kind = .closing .brace ∧
      ElementValue.listFits (n - 1) values commas (closing.kind :: f)

/-- Values with a comma between any two of them, and perhaps one after the last. -/
def ElementValue.listFits (n : Nat) : List ElementValue → List Token → List TokenKind → Prop
  | [], commas, _ => commas = []
  | value :: values, [], f => values = [] ∧ value.Fits n f
  | value :: values, comma :: commas, f =>
    comma.kind = .comma ∧
      value.Fits n (comma.kind :: kinds (ElementValue.listTokens values commas) ++ f) ∧
      ElementValue.listFits n values commas f

end

/-- **`g.Fits n f`** — the group fits the budget `n` before `f`. -/
def Group.Fits (n : Nat) (g : Group) (f : List TokenKind) : Prop := (TokenTree.group g).Fits n f

theorem Group.fits_iff {n : Nat} {g : Group} {f : List TokenKind} :
    g.Fits n f ↔ 0 < n ∧ g.opening.kind = .opening g.delimiter ∧
      TokenTree.listFits (n - 1) g.trees (g.closing.kind :: f) ∧
      g.closing.kind = .closing g.delimiter := by
  cases g
  exact Iff.rfl

/-- **`a.Fits n f`** — the argument fits the budget `n` before `f`. -/
def Argument.Fits (n : Nat) (a : Argument) (f : List TokenKind) : Prop :=
  fitsLabel a.label (kinds a.value.tokens ++ f) ∧ a.value.Fits n f

/-! ## Several arguments -/

/-- Of two arguments or more each has a name. -/
theorem labelled_cons {a : Argument} {as : List Argument} (hne : as ≠ []) :
    labelled (a :: as) ↔ ∀ b ∈ a :: as, b.label.isSome := by
  cases as with
  | nil => exact absurd rfl hne
  | cons b as => exact Iff.rfl

namespace Argument

@[simp] theorem listTokens_last (a : Argument) : listTokens [a] [] = a.tokens := by
  cases a
  simp [listTokens, tokens]

@[simp] theorem listTokens_cons (a : Argument) (as : List Argument) (comma : Token)
    (commas : List Token) :
    listTokens (a :: as) (comma :: commas) = a.tokens ++ comma :: listTokens as commas := by
  cases a
  simp [listTokens, tokens]

variable {n : Nat} {f : List TokenKind}

theorem listFits_last {a : Argument} {as : List Argument} :
    listFits n (a :: as) [] f ↔ as = [] ∧ a.Fits n f := by
  cases a
  exact Iff.rfl

theorem listFits_cons {a : Argument} {as : List Argument} {comma : Token} {commas : List Token} :
    listFits n (a :: as) (comma :: commas) f ↔
      comma.kind = .comma ∧ as ≠ [] ∧
        a.Fits n (comma.kind :: kinds (listTokens as commas) ++ f) ∧ listFits n as commas f := by
  cases a
  simp only [listFits, Argument.Fits, List.cons_append, List.append_assoc, and_assoc]

/-- Arguments that fit are those before the last one, each with its comma, and the last one. -/
theorem listFits.exists_front {arguments : List Argument} {commas : List Token}
    (h : listFits n arguments commas f) (hne : arguments ≠ []) :
    ∃ (front : List (Argument × Token)) (last : Argument),
      arguments = front.map Prod.fst ++ [last] ∧ commas = front.map Prod.snd := by
  induction arguments generalizing commas with
  | nil => exact absurd rfl hne
  | cons a as ih =>
    cases commas with
    | nil =>
      obtain ⟨rfl, -⟩ := listFits_last.1 h
      exact ⟨[], a, rfl, rfl⟩
    | cons comma commas =>
      obtain ⟨-, hne', -, h⟩ := listFits_cons.1 h
      obtain ⟨front, last, rfl, rfl⟩ := ih h hne'
      exact ⟨(a, comma) :: front, last, rfl, rfl⟩

end Argument

/-! ## Several trees -/

theorem TokenTree.listTokens_eq_flatMap (trees : List TokenTree) :
    TokenTree.listTokens trees = trees.flatMap TokenTree.tokens := by
  induction trees with
  | nil => rfl
  | cons tree trees ih => rw [TokenTree.listTokens, List.flatMap_cons, ih]

/-- Trees that are read one after the other fit one after the other. -/
theorem chain_tree {σ : Type} {n : Nat} {next : σ → TokenTree → σ} {x : σ} {trees : List TokenTree}
    {f : List TokenKind} :
    Parser.chain TokenTree.tokens (fun _ tree f => tree.Fits n f) next x trees f ↔
      TokenTree.listFits n trees f := by
  induction trees generalizing x with
  | nil => simp [Parser.chain, TokenTree.listFits]
  | cons tree trees ih =>
    rw [Parser.chain, ih, ← TokenTree.listTokens_eq_flatMap, TokenTree.listFits]

/-- Trees that are read one after the other as long as a test fails. -/
theorem chain_tree_avoiding {σ : Type} {n : Nat} {stop : List TokenKind → Bool}
    {next : σ → TokenTree → σ} {x : σ} {trees : List TokenTree} {f : List TokenKind} :
    Parser.chain TokenTree.tokens
        (fun _ tree f => stop (kinds tree.tokens ++ f) = false ∧ tree.Fits n f) next x trees f ↔
      TokenTree.listFits n trees f ∧ avoids stop trees f := by
  induction trees generalizing x with
  | nil => simp [Parser.chain, TokenTree.listFits, avoids]
  | cons tree trees ih =>
    rw [Parser.chain, ih, ← TokenTree.listTokens_eq_flatMap, TokenTree.listFits, avoids, kinds,
      kinds, kinds_append, List.append_assoc]
    constructor
    · rintro ⟨⟨hstop, htree⟩, htrees, havoid⟩
      exact ⟨⟨htree, htrees⟩, hstop, havoid⟩
    · rintro ⟨⟨htree, htrees⟩, hstop, havoid⟩
      exact ⟨⟨hstop, htree⟩, htrees, havoid⟩

/-! ## How a tree begins -/

/-- An annotation begins with its at sign. -/
theorem Annotation.tokens_eq_cons (a : Annotation) : ∃ ts, a.tokens = a.sigil :: ts := by
  obtain ⟨sigil, name, _ | ⟨opening, arguments, commas, closing⟩⟩ := a
  · exact ⟨_, rfl⟩
  · exact ⟨_, rfl⟩

theorem Annotation.tokens_ne_nil (a : Annotation) : a.tokens ≠ [] := by
  obtain ⟨ts, h⟩ := a.tokens_eq_cons
  simp [h]

theorem TokenTree.tokens_ne_nil (tree : TokenTree) : tree.tokens ≠ [] := by
  match tree with
  | .token t => simp [TokenTree.tokens]
  | .group ⟨_, _, _, _⟩ => simp [TokenTree.tokens]
  | .annot a => exact a.tokens_ne_nil

/-- The sigil of a fitting annotation is an at sign, and the budget allows for it. -/
theorem Annotation.Fits.sigil {n : Nat} {a : Annotation} {f : List TokenKind} (h : a.Fits n f) :
    0 < n ∧ a.sigil.kind = .at := by
  obtain ⟨sigil, name, _ | ⟨opening, arguments, commas, closing⟩⟩ := a
  · exact ⟨h.1, h.2.1⟩
  · exact ⟨h.1, h.2.1⟩

/-- A fitting annotation begins with an at sign. -/
theorem Annotation.Fits.kinds {n : Nat} {a : Annotation} {f : List TokenKind} (h : a.Fits n f) :
    ∃ ks, DeferFetch.kinds a.tokens = .at :: ks := by
  obtain ⟨ts, ht⟩ := a.tokens_eq_cons
  exact ⟨DeferFetch.kinds ts, by rw [ht, kinds_cons, h.sigil.2]⟩

/-- A tree begins with no closing bracket, and not with the end. -/
theorem TokenTree.Fits.begins {n : Nat} {tree : TokenTree} {f : List TokenKind}
    (h : tree.Fits n f) (g : List TokenKind) :
    atEnd (kinds tree.tokens ++ g) = false ∧ atClosing (kinds tree.tokens ++ g) = false := by
  match tree, h with
  | .token t, h =>
    obtain ⟨-, -, heof, hclosing, -⟩ := h
    simp [TokenTree.tokens, atEnd, atClosing, heof, hclosing]
  | .group ⟨delimiter, opening, trees, closing⟩, h =>
    obtain ⟨-, hopening, -⟩ := h
    simp [TokenTree.tokens, atEnd, atClosing, hopening, TokenKind.isClosing]
  | .annot a, h =>
    obtain ⟨ks, hks⟩ := h.2.kinds
    simp [TokenTree.tokens, hks, atEnd, atClosing, TokenKind.isClosing]

/-- An element value begins with no closing bracket. -/
theorem ElementValue.Fits.begins {n : Nat} {value : ElementValue} {f : List TokenKind}
    (h : value.Fits n f) (g : List TokenKind) : atClosing (kinds value.tokens ++ g) = false := by
  match value, h with
  | .expression (tree :: trees), h =>
    have := (h.2.2.1.1.begins (kinds (TokenTree.listTokens trees) ++ g)).2
    simpa [ElementValue.tokens, TokenTree.listTokens] using this
  | .expression [], h => exact absurd rfl h.1
  | .annot a, h =>
    obtain ⟨ks, hks⟩ := Annotation.Fits.kinds h
    simp [ElementValue.tokens, hks, atClosing, TokenKind.isClosing]
  | .array opening values commas closing, h =>
    simp [ElementValue.tokens, atClosing, h.2.1, TokenKind.isClosing]

/-- A value that begins with an at sign is an annotation. -/
theorem ElementValue.Fits.of_at {n : Nat} {value : ElementValue} {f ks : List TokenKind}
    (h : value.Fits n f) (begins : kinds value.tokens ++ f = .at :: ks) :
    ∃ a, value = .annot a := by
  cases value with
  | annot a => exact ⟨a, rfl⟩
  | expression trees =>
    obtain ⟨-, other, -⟩ := h
    rw [ElementValue.tokens] at begins
    rw [begins] at other
    cases other
  | array opening values commas closing => simp [ElementValue.tokens, h.2.1] at begins

/-- A value that begins with a brace is an array. -/
theorem ElementValue.Fits.of_brace {n : Nat} {value : ElementValue} {f ks : List TokenKind}
    (h : value.Fits n f) (begins : kinds value.tokens ++ f = .opening .brace :: ks) :
    ∃ opening values commas closing, value = .array opening values commas closing := by
  cases value with
  | annot a =>
    obtain ⟨as, sigil⟩ := Annotation.Fits.kinds h
    simp [ElementValue.tokens, sigil] at begins
  | expression trees =>
    obtain ⟨-, other, -⟩ := h
    rw [ElementValue.tokens] at begins
    rw [begins] at other
    cases other
  | array opening values commas closing => exact ⟨opening, values, commas, closing, rfl⟩

/-- Every other value is an expression. -/
theorem ElementValue.Fits.of_other {n : Nat} {value : ElementValue} {f : List TokenKind}
    (h : value.Fits n f) (begins : beginsOther (kinds value.tokens ++ f) = false) :
    ∃ trees, value = .expression trees := by
  cases value with
  | annot a =>
    obtain ⟨as, sigil⟩ := Annotation.Fits.kinds h
    simp [ElementValue.tokens, sigil, beginsOther] at begins
  | expression trees => exact ⟨trees, rfl⟩
  | array opening values commas closing =>
    simp [ElementValue.tokens, h.2.1, beginsOther] at begins

theorem ElementValue.Fits.tokens_ne_nil {n : Nat} {value : ElementValue} {f : List TokenKind}
    (h : value.Fits n f) : value.tokens ≠ [] := by
  match value, h with
  | .expression (tree :: trees), h => simp [ElementValue.tokens, TokenTree.listTokens,
      tree.tokens_ne_nil]
  | .expression [], h => exact absurd rfl h.1
  | .annot a, h => exact a.tokens_ne_nil
  | .array opening values commas closing, h => simp [ElementValue.tokens]

/-- Arguments begin with no closing bracket. -/
theorem Argument.listFits.begins {n : Nat} {arguments : List Argument} {commas : List Token}
    {f : List TokenKind} (h : Argument.listFits n arguments commas f) (hne : arguments ≠ [])
    (g : List TokenKind) :
    atClosing (DeferFetch.kinds (Argument.listTokens arguments commas) ++ g) = false := by
  have one {a : Argument} {f : List TokenKind} (ha : a.Fits n f) (g : List TokenKind) :
      atClosing (DeferFetch.kinds a.tokens ++ g) = false := by
    obtain ⟨_ | ⟨name, equals⟩, value⟩ := a
    · exact ha.2.begins g
    · obtain ⟨⟨hname, -⟩, -⟩ := ha
      cases hk : name.kind <;>
        simp_all [Argument.tokens, labelTokens, atClosing, TokenKind.isClosing,
          TokenKind.isIdentifier]
  match arguments, commas, h with
  | [], _, _ => exact absurd rfl hne
  | a :: as, [], h =>
    obtain ⟨rfl, ha⟩ := listFits_last.1 h
    rw [listTokens_last]
    exact one ha g
  | a :: as, comma :: commas, h =>
    obtain ⟨-, -, ha, -⟩ := listFits_cons.1 h
    rw [listTokens_cons, kinds_append, List.append_assoc]
    exact one ha _

end DeferFetch
