/-
# DeferFetch.Proofs.Laziness.Render — the tokens of a directive.

A directive is a text. Here are the tokens that it is the text of: those of the name, of a lazy fetch
and of the arguments that are kept, these with a blank instead of the white space before them. They
are legible, whatever comes after them, so they are what the text is read as.
-/
import DeferFetch.Proofs.Lexing.Spelled
import DeferFetch.Proofs.Grammar.Context
import DeferFetch.Laziness.Directive

namespace DeferFetch

/-! ## Arguments on their own -/

/-- **`a.Detached n`** — the argument fits the budget `n` before everything that ends an argument,
and its tokens are legible there. -/
structure Argument.Detached (n : Nat) (a : Argument) : Prop where
  fits : ∀ k f, k.closesValue = true → a.Fits n (k :: f)
  legible : ∀ d zs, IsBarrier d → Legible a.tokens (d :: zs)

theorem Argument.Fits.plain {n : Nat} {a : Argument} {f : List TokenKind} (h : a.Fits n f) :
    Plain a.tokens := plain_append.2 ⟨h.1.plain, h.2.plain⟩

namespace Argument

variable {n : Nat} {a : Argument}

theorem Detached.plain (h : a.Detached n) : Plain a.tokens := (h.fits .comma [] rfl).plain

theorem Detached.tokens_ne_nil (h : a.Detached n) : a.tokens ≠ [] := by
  simp [tokens, (h.fits .comma [] rfl).2.tokens_ne_nil]

theorem Detached.of_fits {k : TokenKind} {f : List TokenKind} {tail : List Char}
    (hk : k.closesValue = true) (fits : a.Fits n (k :: f)) (legible : Legible a.tokens tail)
    (here : EndsHere tail) : a.Detached n where
  fits _ g hl := fits.after (.of_closesValue hk hl f g)
  legible _ zs hd := legible.before fits.plain.valid here hd zs

/-- Arguments in parentheses are detached. -/
theorem listFits.detached {arguments : List Argument} {commas : List Token} {k : TokenKind}
    {f : List TokenKind} {tail : List Char} (hk : k.closesValue = true)
    (fits : listFits n arguments commas (k :: f)) (legible : Legible (listTokens arguments commas) tail)
    (here : EndsHere tail) : ∀ a ∈ arguments, a.Detached n := by
  induction arguments generalizing commas with
  | nil => exact nofun
  | cons a arguments ih =>
    cases commas with
    | nil =>
      obtain ⟨rfl, ha⟩ := listFits_last.1 fits
      rw [listTokens_last] at legible
      simpa using Detached.of_fits hk ha legible here
    | cons comma commas =>
      obtain ⟨hcomma, -, ha, fits⟩ := listFits_cons.1 fits
      rw [listTokens_cons, legible_append] at legible
      obtain ⟨la, gap, -, legible⟩ := legible
      refine List.forall_mem_cons.2 ⟨?_, ih fits legible⟩
      have ends : comma.kind.closesValue = true := by rw [hcomma]; rfl
      refine Detached.of_fits ends ha la ?_
      exact .of_spelling gap (by rw [hcomma]; rfl) (by decide)

end Argument

/-- The arguments of an annotation are detached where the annotation fits and is legible. -/
theorem Annotation.Fits.detached {n : Nat} {a : Annotation} {f : List TokenKind} {tail : List Char}
    (fits : a.Fits n f) (legible : Legible a.tokens tail) :
    ∀ b ∈ a.arguments, b.Detached (n - 1) := by
  obtain ⟨sigil, name, _ | ⟨opening, arguments, commas, closing⟩⟩ := a
  · exact nofun
  · obtain ⟨-, -, -, -, hclosing, -, fits⟩ := fits
    have legible : Legible (Argument.listTokens arguments commas ++ [closing]) tail :=
      (legible_append.1 legible.2.2).2.2.2
    obtain ⟨legible, gap, -⟩ := legible_append.1 legible
    have ends : closing.kind.closesValue = true := by rw [hclosing]; rfl
    refine fits.detached ends legible ?_
    exact .of_spelling gap (by rw [hclosing]; rfl) (by decide)

/-! ## The tokens of a directive -/

/-- **`spaced ts`** — the tokens after one blank instead of the white space that begins what stands
before the first of them. -/
def spaced : List Token → List Token
  | [] => []
  | t :: ts => .synthetic t.kind (" " ++ t.trimmed.leadingText) :: ts

/-- The tokens of a lazy fetch, with the fetch modes called `fetchType`. -/
def lazyTokens (fetchType : String) : List Token :=
  [.synthetic (.identifier "fetch"), .synthetic .equals " "]
    ++ spelled " " (nameKinds (parts fetchType ++ ["LAZY"]))

/-- **`directiveTokens leading name fetchType arguments`** — the tokens of an annotation of that name
after the text `leading`, with a lazy fetch and then the arguments. -/
def directiveTokens (leading name fetchType : String) (arguments : List Argument) : List Token :=
  .synthetic .at leading :: (spelled "" (nameKinds (parts name)) ++
    .synthetic (.opening .paren) :: (lazyTokens fetchType ++
      ((arguments.flatMap fun a => .synthetic .comma :: spaced a.tokens) ++
        [.synthetic (.closing .paren)])))

/-- A text that reads as identifiers with dots between them. -/
def IsName (name : String) : Prop := ∀ x ∈ parts name, IsIdentifier x

instance (name : String) : Decidable (IsName name) :=
  inferInstanceAs (Decidable (∀ x ∈ parts name, IsIdentifier x))

/-! ## What they spell -/

theorem spelling_name (leading name : String) :
    spelling (spelled leading (nameKinds (parts name))) = leading.toList ++ name.toList := by
  have ne : nameKinds (parts name) ≠ [] := by
    obtain ⟨x, names, h⟩ := List.exists_cons_of_ne_nil (parts_ne_nil name)
    obtain ⟨ks, hks⟩ := nameKinds_cons x names
    simp [h, hks]
  rw [spelling_spelled ne, text_nameKinds (parts_ne_nil name), dotted_parts]

/-- The name of the lazy fetch mode, in parts. -/
theorem parts_lazy (fetchType : String) : parts (fetchType ++ ".LAZY") = parts fetchType ++ ["LAZY"] := by
  have : fetchType ++ ".LAZY" = fetchType ++ "." ++ "LAZY" := by rw [String.append_assoc]; rfl
  rw [this, parts_append_dot]
  rfl

theorem spelling_lazyTokens (fetchType : String) :
    spelling (lazyTokens fetchType) = (lazyFetchText fetchType).toList := by
  rw [lazyTokens, ← parts_lazy, spelling_append, spelling_name]
  simp [lazyFetchText, TokenKind.text]

theorem Argument.Detached.spelling_spaced {n : Nat} {a : Argument} (h : a.Detached n) :
    spelling (spaced a.tokens) = ' ' :: (Text.trim a.source).toList := by
  obtain ⟨t, ts, ht⟩ := List.exists_cons_of_ne_nil h.tokens_ne_nil
  have legible := h.legible ',' [] (by decide)
  have plain := h.plain
  rw [ht] at legible plain
  rw [Argument.source, ht, trim_print legible plain.valid, toList_print]
  simp [spaced, Token.trimmed]

/-- The text of a directive that keeps the arguments. -/
def renderKept (name fetchType : String) (arguments : List Argument) : String :=
  Directive.render ⟨name, lazyFetchText fetchType :: arguments.map fun a => Text.trim a.source⟩

/-- **Rendering** — the tokens of a directive print as its text. -/
theorem print_directiveTokens {n : Nat} (leading name fetchType : String) {arguments : List Argument}
    (h : ∀ a ∈ arguments, a.Detached n) :
    print (directiveTokens leading name fetchType arguments) =
      leading ++ renderKept name fetchType arguments := by
  have others : spelling (arguments.flatMap fun a => .synthetic .comma :: spaced a.tokens) =
      (arguments.flatMap fun a => (", " ++ Text.trim a.source).toList) := by
    induction arguments with
    | nil => rfl
    | cons a arguments ih =>
      obtain ⟨ha, h⟩ := List.forall_mem_cons.1 h
      rw [List.flatMap_cons, List.flatMap_cons, spelling_append, ih h, spelling_cons,
        ha.spelling_spaced]
      simp [TokenKind.text]
  have joined (first : String) (texts : List String) :
      (String.intercalate ", " (first :: texts)).toList =
        first.toList ++ texts.flatMap fun text => (", " ++ text).toList := by
    induction texts generalizing first with
    | nil => simp
    | cons text texts ih =>
      rw [String.intercalate_cons_cons, String.toList_append, String.toList_append, ih]
      simp
  apply String.toList_injective
  rw [toList_print, directiveTokens, spelling_cons, spelling_append, spelling_name, spelling_cons,
    spelling_append, spelling_lazyTokens, spelling_append, others]
  simp only [renderKept, Directive.render, String.toList_append, joined, List.flatMap_map]
  simp [TokenKind.text, Delimiter.openingText, Delimiter.closingText]

/-! ## Reading them -/

theorem legible_name {leading name : String} (gap : Gap leading.toList) (h : IsName name)
    {tail : List Char} (ends : EndsWord tail) :
    Legible (spelled leading (nameKinds (parts name))) tail :=
  legible_spelled gap (legible_nameKinds h ends)

theorem IsBarrier.endsWord {d : Char} (hd : IsBarrier d) (zs : List Char) : EndsWord (d :: zs) :=
  .of_cons hd.endsToken.inert.1

theorem legible_lazyTokens {fetchType : String} (h : IsName fetchType) {d : Char} (hd : IsBarrier d)
    (zs : List Char) : Legible (lazyTokens fetchType) (d :: zs) := by
  have hlazy : IsName (fetchType ++ ".LAZY") := by
    intro x hx
    rw [parts_lazy, List.mem_append, List.mem_singleton] at hx
    rcases hx with hx | rfl
    · exact h x hx
    · exact ⟨by decide, 'L', _, rfl, by decide +kernel, forall_of_all (by decide +kernel)⟩
  have hfetch : IsIdentifier "fetch" :=
    ⟨by decide, 'f', _, rfl, by decide +kernel, forall_of_all (by decide +kernel)⟩
  have hname := legible_name gap_blank hlazy (hd.endsWord zs)
  have spelt := spelling_name " " (fetchType ++ ".LAZY")
  rw [parts_lazy] at hname spelt
  refine ⟨by simpa using gap_nil, hfetch.readsBefore ?_, by simpa using gap_blank,
    equals_readsBefore ?_, hname⟩
  · exact EndsWord.of_cons (by decide)
  · show (spelling (spelled " " _) ++ d :: zs).head? ≠ some '='
    rw [spelt]
    exact fun h => by cases h

/-- The further arguments of a directive begin with a comma. -/
theorem exists_barrier (arguments : List Argument) {d : Char} (hd : IsBarrier d) (zs : List Char) :
    ∃ e es, IsBarrier e ∧
      spelling (arguments.flatMap fun a => .synthetic .comma :: spaced a.tokens) ++ d :: zs =
        e :: es := by
  cases arguments with
  | nil => exact ⟨d, zs, hd, rfl⟩
  | cons a arguments =>
    have comma : (Token.synthetic .comma).kind.text.toList = [','] := rfl
    rw [List.flatMap_cons, List.cons_append, spelling_cons, Token.leadingText_synthetic, comma]
    exact ⟨',', _, by decide, rfl⟩

/-- The arguments of a directive are legible. -/
theorem legible_spaced {n : Nat} {arguments : List Argument} (h : ∀ a ∈ arguments, a.Detached n)
    {d : Char} (hd : IsBarrier d) (zs : List Char) :
    Legible (arguments.flatMap fun a => .synthetic .comma :: spaced a.tokens) (d :: zs) := by
  induction arguments with
  | nil => exact legible_nil _
  | cons a arguments ih =>
    obtain ⟨ha, h⟩ := List.forall_mem_cons.1 h
    obtain ⟨e, es, he, after⟩ := exists_barrier arguments hd zs
    rw [List.flatMap_cons, legible_append, after]
    refine ⟨⟨by simpa using gap_nil, separator_readsBefore (c := ',') rfl _, ?_⟩, ih h⟩
    obtain ⟨t, ts, ht⟩ := List.exists_cons_of_ne_nil ha.tokens_ne_nil
    obtain ⟨gap, read, others⟩ := (ht ▸ ha.legible e es he : Legible (t :: ts) (e :: es)).trimmed
    rw [ht]
    refine ⟨?_, read, others⟩
    simpa using gap.blanks_append (show ∀ b ∈ [' '], isJavaBlank b = true by simp [isJavaBlank])

/-- **Directives are legible** — whatever comes after them. -/
theorem legible_directiveTokens {n : Nat} {leading name fetchType : String}
    (hleading : Gap leading.toList) (hname : IsName name) (hfetch : IsName fetchType)
    {arguments : List Argument} (h : ∀ a ∈ arguments, a.Detached n) (tail : List Char) :
    Legible (directiveTokens leading name fetchType arguments) tail := by
  have gap {k : TokenKind} : Gap (Token.synthetic k).leadingText.toList := by simpa using gap_nil
  have closing : spelling [Token.synthetic (.closing .paren)] ++ tail = ')' :: tail := by
    simp [TokenKind.text, Delimiter.closingText]
  refine ⟨by simpa using hleading, separator_readsBefore (c := '@') rfl _, legible_append.2
    ⟨legible_name (by simpa using gap_nil) hname ?_,
    gap, separator_readsBefore (c := '(') rfl _, legible_append.2 ⟨?_, legible_append.2 ⟨?_, gap,
      separator_readsBefore (c := ')') rfl _, legible_nil tail⟩⟩⟩⟩
  · rw [spelling_cons]
    exact EndsWord.of_cons (by decide)
  · obtain ⟨e, es, he, after⟩ := exists_barrier arguments (d := ')') (by decide) tail
    rw [spelling_append, List.append_assoc, closing, after]
    exact legible_lazyTokens hfetch he es
  · rw [closing]
    exact legible_spaced h (by decide) tail

/-- **Reading a directive** — up to where they stand, the tokens of its text are the tokens of the
directive. -/
theorem tokenize_render {n : Nat} {name fetchType : String} (hname : IsName name)
    (hfetch : IsName fetchType) {arguments : List Argument} (h : ∀ a ∈ arguments, a.Detached n) :
    (tokenize (renderKept name fetchType arguments)).map Token.bare =
      (directiveTokens "" name fetchType arguments).map Token.bare ++ [.synthetic .eof] := by
  have ends : EndGap "".toList := fun l hl => by simp [lexemes] at hl
  have start : Gap "".toList := by simpa using gap_nil
  have legible := legible_directiveTokens start hname hfetch h "".toList
  have := tokenize_print legible ends none
  rwa [String.append_empty, print_directiveTokens "" name fetchType h, String.empty_append] at this

end DeferFetch
