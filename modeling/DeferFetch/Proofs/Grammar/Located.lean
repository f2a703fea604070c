/-
# DeferFetch.Proofs.Grammar.Located — what reports point at.

A report points at a token: the one it was met before, or one that was read earlier and that it looks
back at, such as the bracket that is never closed. So if all tokens of a text begin at good places, then
every report and every note begins at one, whatever is good (`parseUnit_located`). A parser is followed
by what it keeps (`Parser.Locates`); where it holds tokens to look back at, their places are known from
the order in which tokens are placed (`Parser.Places`).
-/
import DeferFetch.Proofs.Grammar.Order

namespace DeferFetch

/-! ## Reports -/

/-- **`d.spans`** — what the report points at: its own span and those of its notes. -/
def Diagnostic.spans (d : Diagnostic) : List Span := d.span :: d.notes.filterMap Note.span?

/-- **`d.Located good`** — all that the report points at begins at a good place. -/
def Diagnostic.Located (good : Position → Prop) (d : Diagnostic) : Prop :=
  ∀ span ∈ d.spans, good span.start

variable {good : Position → Prop}

/-- The report on a bad token points at that token. -/
theorem Token.located_diagnostic? {t : Token} (h : good t.span.start) :
    ∀ d ∈ t.diagnostic?, d.Located good := by
  intro d hd
  unfold Token.diagnostic? at hd
  split at hd
  · rename_i cause _
    obtain rfl := Option.some.inj hd
    have notes : ∀ span ∈ (cause.notes t.span.start).filterMap Note.span?, good span.start := by
      cases cause with
      | unterminatedComment => exact List.forall_mem_singleton.2 h
      | unterminatedString => exact nofun
      | unterminatedTextBlock => exact nofun
      | unterminatedCharacter => exact nofun
      | unexpectedCharacter c => exact nofun
    exact List.forall_mem_cons.2 ⟨h, notes⟩
  · cases hd

/-- **`e.LooksBack good`** — the tokens that the error looks back at begin at good places. -/
def SyntaxError.LooksBack (good : Position → Prop) : SyntaxError → Prop
  | .unclosed _ opening => good opening.span.start
  | .mismatched _ opening => good opening.span.start
  | .modifierOnPackage modifier => good modifier.first.span.start
  | .unnamedAmongOthers argument => ∀ t ∈ argument, good t.span.start
  | .unexpected _ => True
  | .nestingTooDeep => True

/-- The place of a token ahead is good, and so must be the beginning of the text, which stands for the
place of none. -/
theorem SyntaxError.good_spanOf (origin : good {}) {next : Option Token}
    (h : ∀ t ∈ next, good t.span.start) : good (spanOf next).start := by
  cases next with
  | none => exact origin
  | some t => exact h t rfl

theorem SyntaxError.located_diagnostic (origin : good {}) {next : Option Token} {e : SyntaxError}
    (ahead : ∀ t ∈ next, good t.span.start) (back : e.LooksBack good) :
    (e.diagnostic next).Located good := by
  have here : good (spanOf next).start := good_spanOf origin ahead
  cases e with
  | unexpected expected => exact List.forall_mem_singleton.2 here
  | unclosed delimiter opening =>
    exact List.forall_mem_cons.2 ⟨here, List.forall_mem_singleton.2 back⟩
  | mismatched delimiter opening =>
    exact List.forall_mem_cons.2 ⟨here, List.forall_mem_singleton.2 back⟩
  | nestingTooDeep => exact List.forall_mem_singleton.2 here
  | modifierOnPackage modifier => exact List.forall_mem_singleton.2 back
  | unnamedAmongOthers argument => exact List.forall_mem_singleton.2 (good_spanOf origin back)

/-- **`s.Located good`** — the tokens ahead begin at good places, and so does all that has been pointed
at. -/
structure ParserState.Located (good : Position → Prop) (s : ParserState) : Prop where
  ahead : ∀ t ∈ s.rest, good t.span.start
  reported : ∀ d ∈ s.diagnostics, d.Located good

namespace ParserState.Located

variable {s : ParserState}

theorem consume (h : s.Located good) (n : Nat) : (s.consume n).Located good where
  ahead t ht := h.ahead t (List.mem_of_mem_drop ht)
  reported := by
    refine List.forall_mem_append.2 ⟨h.reported, fun d hd => ?_⟩
    obtain ⟨t, ht, report⟩ := List.mem_filterMap.1 hd
    exact Token.located_diagnostic? (h.ahead t (List.mem_of_mem_take ht)) d report

theorem report (origin : good {}) {e : SyntaxError} (h : s.Located good) (back : e.LooksBack good) :
    (s.report e).Located good where
  ahead := h.ahead
  reported := by
    refine List.forall_mem_append.2 ⟨h.reported, List.forall_mem_singleton.2 ?_⟩
    exact SyntaxError.located_diagnostic origin (fun t ht => h.ahead t (List.mem_of_mem_head? ht)) back

end ParserState.Located

/-! ## Parsers -/

namespace Parser

variable {α β σ : Type}

/-- **`p.Locates good`** — if the tokens ahead begin at good places, the parser points at no others. -/
def Locates (good : Position → Prop) (p : Parser α) : Prop :=
  ∀ ⦃s⦄, s.Located good → (p.run s).2.Located good

namespace Locates

variable {p : Parser α} {next : α → Parser β}

protected theorem pure {a : α} : (pure a : Parser α).Locates good := fun _ h => h

protected theorem bind (hp : p.Locates good) (hn : ∀ a, (next a).Locates good) :
    (p >>= next).Locates good := by
  intro s h
  have first := hp h
  rw [run_bind]
  rcases run : p.run s with ⟨_ | a, t⟩
  · rwa [run] at first
  · rw [run] at first
    exact hn a first

/-- Of a result that the parser places, the tokens begin at good places. -/
theorem bind_placed {tokens : α → List Token} (hp : p.Locates good) (places : p.Places [] tokens)
    (hn : ∀ a, (∀ t ∈ tokens a, good t.span.start) → (next a).Locates good) :
    (p >>= next).Locates good := by
  intro s h
  have first := hp h
  rw [run_bind]
  rcases run : p.run s with ⟨_ | a, t⟩
  · rwa [run] at first
  · rw [run] at first
    have placed : ∀ t ∈ tokens a, good t.span.start := fun t ht =>
      h.ahead t ((places run).subset (List.mem_append_left _ ht))
    exact hn a placed first

protected theorem ahead {next : List TokenKind → Parser β} (h : ∀ ks, (next ks).Locates good) :
    (ahead >>= next).Locates good :=
  .bind (fun _ h => h) h

protected theorem peek {next : Option Token → Parser β}
    (h : ∀ t?, (∀ t ∈ t?, good t.span.start) → (next t?).Locates good) :
    (peek >>= next).Locates good :=
  fun _ located => h _ (fun t ht => located.ahead t (List.mem_of_mem_head? ht)) located

protected theorem ite {c : Prop} [Decidable c] {p q : Parser α} (hp : p.Locates good)
    (hq : q.Locates good) : (if c then p else q).Locates good := by
  split
  · exact hp
  · exact hq

protected theorem orSkip {count : List Token → Nat} (h : p.Locates good) :
    (p.orSkip count).Locates good := by
  intro s located
  have first := h located
  unfold Parser.orSkip
  rcases run : p.run s with ⟨_ | a, t⟩
  · simp only [run] at first ⊢
    exact first.consume (count t.rest)
  · simpa only [run] using first

/-- **Repetitions** point at no other places than their rounds. -/
protected theorem rounds {round : σ → Parser (Step α β σ)} (h : ∀ x, (round x).Locates good) (x : σ) :
    (rounds round x).Locates good := by
  intro s located
  change (runRounds round x s).2.Located good
  fun_induction runRounds round x s with
  | case1 x s t run =>
    have first := h x located
    rwa [run] at first
  | case2 x s b t run =>
    have first := h x located
    rwa [run] at first
  | case3 x s item next t run _ _ _ result u rest ih =>
    have first := h x located
    rw [run] at first
    rw [rest] at ih
    exact ih first
  | case4 x s item next t run =>
    have first := h x located
    rwa [run] at first

end Locates

section Errors

variable (origin : good {})

include origin

theorem locates_report {e : SyntaxError} (back : e.LooksBack good) : (report e).Locates good :=
  fun _ h => h.report origin back

theorem locates_fail {e : SyntaxError} (back : e.LooksBack good) :
    (fail e : Parser α).Locates good :=
  fun _ h => h.report origin back

/-- Nothing comes after a failure. -/
theorem locates_fail_bind {e : SyntaxError} {next : α → Parser β} (back : e.LooksBack good) :
    (fail e >>= next).Locates good :=
  fun _ h => h.report origin back

theorem locates_unexpected {e : Expectation} : (unexpected e : Parser α).Locates good :=
  locates_fail origin trivial

theorem locates_token : token.Locates good := by
  intro s h
  rcases s with ⟨_ | ⟨t, ts⟩, position, diagnostics⟩
  · exact h.report origin trivial
  · exact h.consume 1

theorem locates_expect {fits : TokenKind → Bool} {e : Expectation} : (expect fits e).Locates good :=
  .ahead fun _ => .ite (locates_token origin) (locates_unexpected origin)

/-- A single token, of which something is made. -/
theorem locates_map_token {f : Token → β} : (token >>= fun t => pure (f t)).Locates good :=
  .bind (locates_token origin) fun _ => .pure

/-- The token that is read next begins at a good place. -/
theorem Locates.token {next : Token → Parser β} (h : ∀ t, good t.span.start → (next t).Locates good) :
    (token >>= next).Locates good :=
  .bind_placed (locates_token origin) Places.token fun t ht => h t (ht t (List.mem_singleton.2 rfl))

/-! ## Names -/

theorem locates_qualifiedName (e : Expectation) : (qualifiedName e).Locates good := by
  have round : ∀ x, (segmentRound x).Locates good := by
    intro x
    apply Locates.ahead
    intro ks
    apply Locates.ite
    · exact .token origin fun dot _ => .token origin fun identifier _ => .pure
    · exact .pure
  apply Locates.bind (locates_expect origin)
  intro first
  exact .bind (.rounds round ()) fun _ => .pure

end Errors

end Parser

/-! ## Trees and annotations -/

/-- **`g.Locates good`** — the parsers of a level point at good places only. -/
structure Grammar.Locates (good : Position → Prop) (g : Grammar) : Prop where
  tree : g.tree.Locates good
  group : g.group.Locates good
  annot : g.annot.Locates good
  value : g.value.Locates good

namespace Parser

section Trees

variable {α : Type} {g : Grammar} {inner : Option Grammar} (origin : good {})

include origin

theorem locates_nested {parse : Grammar → Parser α} (hi : ∀ g ∈ inner, g.Locates good)
    (h : ∀ g : Grammar, g.Locates good → (parse g).Locates good) :
    (nested inner parse).Locates good := by
  cases inner with
  | none => exact locates_fail origin trivial
  | some g => exact h g (hi g rfl)

theorem locates_groupContents (hg : g.Locates good) (delimiter : Delimiter) {opening : Token}
    (opened : good opening.span.start) : (groupContents delimiter opening g).Locates good := by
  -- both errors look back at the opening bracket
  have unclosed : (SyntaxError.unclosed delimiter opening).LooksBack good := opened
  have mismatched : (SyntaxError.mismatched delimiter opening).LooksBack good := opened
  have round : ∀ x, (groupRound delimiter opening g x).Locates good := by
    intro x
    apply Locates.ahead
    intro ks
    apply Locates.ite (locates_fail origin unclosed)
    apply Locates.ite
    · exact locates_map_token origin
    apply Locates.ite (locates_fail origin mismatched)
    exact .bind hg.tree fun _ => .pure
  exact .bind (.rounds round ()) fun _ => .pure

theorem locates_groupWithin (hi : ∀ g ∈ inner, g.Locates good) :
    (groupWithin inner).Locates good := by
  apply Locates.ahead
  intro ks
  split
  · apply Locates.token origin
    intro opening opened
    exact locates_nested origin hi fun g hg => locates_groupContents origin hg _ opened
  · exact locates_unexpected origin

theorem locates_label? : label?.Locates good := by
  apply Locates.ahead
  intro ks
  apply Locates.ite
  · exact .token origin fun name _ => .token origin fun equals _ => .pure
  · exact .pure

theorem locates_argumentRounds (hg : g.Locates good) : (argumentRounds g).Locates good := by
  refine .rounds (fun first => ?_) none
  apply Locates.peek
  intro start begins
  apply Locates.bind (locates_label? origin)
  intro label
  apply Locates.bind hg.value
  intro value
  -- the token ahead before the argument is kept for the error that points at its beginning
  have unnamed : (SyntaxError.unnamedAmongOthers start).LooksBack good := begins
  apply Locates.ite (locates_fail_bind origin unnamed)
  apply Locates.ahead
  intro ks
  split
  · exact locates_map_token origin
  · exact locates_map_token origin
  · exact locates_unexpected origin

theorem locates_argumentList (hg : g.Locates good) : (argumentList g).Locates good := by
  apply Locates.bind (locates_token origin)
  intro opening
  apply Locates.ahead
  intro ks
  apply Locates.ite
  · exact locates_map_token origin
  · exact .bind (locates_argumentRounds origin hg) fun _ => .pure

theorem locates_annotationRest (hg : g.Locates good) (sigil : Token) :
    (annotationRest sigil g).Locates good := by
  apply Locates.bind (locates_qualifiedName origin _)
  intro name
  apply Locates.ahead
  intro ks
  apply Locates.ite
  · exact .bind (locates_argumentList origin hg) fun _ => .pure
  · exact .pure

theorem locates_annotationWithin (hi : ∀ g ∈ inner, g.Locates good) :
    (annotationWithin inner).Locates good := by
  apply Locates.bind (locates_expect origin)
  intro sigil
  exact locates_nested origin hi fun g hg => locates_annotationRest origin hg sigil

theorem locates_treeWithin (hi : ∀ g ∈ inner, g.Locates good) :
    (treeWithin inner).Locates good := by
  apply Locates.ahead
  intro ks
  apply Locates.ite
  · exact .bind (locates_groupWithin origin hi) fun _ => .pure
  apply Locates.ite
  · exact .bind (locates_annotationWithin origin hi) fun _ => .pure
  apply Locates.ite (locates_unexpected origin)
  exact locates_map_token origin

/-! ## Element values -/

theorem locates_arrayContents (hg : g.Locates good) (opening : Token) :
    (arrayContents opening g).Locates good := by
  have round : ∀ x, (arrayRound g x).Locates good := by
    intro x
    apply Locates.ahead
    intro ks
    apply Locates.ite
    · exact locates_map_token origin
    apply Locates.bind hg.value
    intro value
    apply Locates.ahead
    intro ks
    split
    · exact locates_map_token origin
    · exact .pure
    · exact locates_unexpected origin
  exact .bind (.rounds round ()) fun _ => .pure

theorem locates_expressionTrees (hi : ∀ g ∈ inner, g.Locates good) :
    (expressionTrees inner).Locates good := by
  have round : ∀ x, (expressionRound inner x).Locates good := by
    intro x
    apply Locates.ahead
    intro ks
    apply Locates.ite
    · exact .pure
    · exact .bind (locates_treeWithin origin hi) fun _ => .pure
  exact .bind (.rounds round ()) fun _ => .pure

theorem locates_valueWithin (hi : ∀ g ∈ inner, g.Locates good) :
    (valueWithin inner).Locates good := by
  apply Locates.ahead
  intro ks
  split
  · exact .bind (locates_annotationWithin origin hi) fun _ => .pure
  · apply Locates.bind (locates_token origin)
    intro opening
    exact locates_nested origin hi fun g hg => locates_arrayContents origin hg opening
  · apply Locates.bind (locates_expressionTrees origin hi)
    intro trees
    exact .ite (locates_unexpected origin) .pure

end Trees

end Parser

/-- The parsers of every level point at good places only: by induction on the budget. -/
theorem Grammar.ofBudget_locates (origin : good {}) (n : Nat) : (Grammar.ofBudget n).Locates good := by
  have within {inner : Option Grammar} (hi : ∀ g ∈ inner, g.Locates good) :
      (Grammar.within inner).Locates good :=
    ⟨Parser.locates_treeWithin origin hi, Parser.locates_groupWithin origin hi,
      Parser.locates_annotationWithin origin hi, Parser.locates_valueWithin origin hi⟩
  induction n with
  | zero => exact within nofun
  | succ n ih =>
    apply within
    rintro g ⟨⟩
    exact ih

/-- The first token of a modifier is one of its tokens. -/
theorem Modifier.first_mem_tokens (m : Modifier) : m.first ∈ m.tokens := by
  cases m with
  | keyword t => simp only [first, tokens, List.mem_singleton]
  | contextual words => simp only [first, tokens, Words.tokens, List.mem_cons, true_or]
  | annot a =>
    obtain ⟨ts, tokens⟩ := a.tokens_eq_cons
    rw [first, Modifier.tokens, tokens]
    exact List.mem_cons_self

namespace Parser

section Declarations

variable {g : Grammar} (origin : good {})

include origin

/-! ## Modifiers and members -/

theorem locates_modifiers (hg : g.Locates good) : (modifiers g).Locates good := by
  have round : ∀ x, (modifierRound g x).Locates good := by
    intro x
    apply Locates.ahead
    intro ks
    apply Locates.ite
    · exact .bind hg.annot fun _ => .pure
    apply Locates.ite
    · exact locates_map_token origin
    apply Locates.ite
    · exact locates_map_token origin
    apply Locates.ite
    · exact .token origin fun non _ => .token origin fun hyphen _ => .token origin fun word _ => .pure
    · exact .pure
  exact .bind (.rounds round ()) fun _ => .pure

theorem locates_fieldOrMethod (hg : g.Locates good) (modifiers : List Modifier) :
    (fieldOrMethod modifiers g).Locates good := by
  have round : ∀ head, (memberRound g head).Locates good := by
    intro head
    apply Locates.ahead
    intro ks
    apply Locates.ite
    · exact locates_map_token origin
    apply Locates.ite
    · exact .bind hg.group fun _ => .pure
    apply Locates.ite (locates_unexpected origin)
    exact .bind hg.tree fun _ => .pure
  apply Locates.bind (.rounds round {})
  rintro ⟨trees, body, isField⟩
  cases body with
  | semicolon t => exact .ite .pure .pure
  | block b => exact .pure

theorem locates_member (hg : g.Locates good) {type : List Modifier → Parser TypeDeclaration}
    (ht : ∀ modifiers, (type modifiers).Locates good) : (member g type).Locates good := by
  apply Locates.ahead
  intro ks
  apply Locates.ite
  · exact locates_map_token origin
  apply Locates.bind (locates_modifiers origin hg)
  intro modifiers
  apply Locates.ahead
  intro ks
  apply Locates.ite
  · exact .bind hg.group fun _ => .pure
  apply Locates.ite
  · exact .bind (ht modifiers) fun _ => .pure
  · exact locates_fieldOrMethod origin hg modifiers

theorem locates_constants? (hg : g.Locates good) : (constants? g).Locates good := by
  have round : ∀ x, (constantsRound g x).Locates good := by
    intro x
    apply Locates.ahead
    intro ks
    apply Locates.ite
    · exact locates_map_token origin
    apply Locates.ite .pure
    apply Locates.ite (locates_unexpected origin)
    exact .bind hg.tree fun _ => .pure
  exact .bind (.rounds round ()) fun _ => .ite .pure .pure

theorem locates_bodyContents (hg : g.Locates good) {type : List Modifier → Parser TypeDeclaration}
    (ht : ∀ modifiers, (type modifiers).Locates good) (kind : TypeKind) {opening : Token}
    (opened : good opening.span.start) : (bodyContents kind opening g type).Locates good := by
  have unclosed : (SyntaxError.unclosed .brace opening).LooksBack good := opened
  have round : ∀ x, (bodyRound opening g type x).Locates good := by
    intro x
    apply Locates.ahead
    intro ks
    apply Locates.ite
    · exact locates_map_token origin
    apply Locates.ite (locates_fail origin unclosed)
    exact .bind (locates_member origin hg ht).orSkip fun _ => .pure
  apply Locates.ite
  · exact .bind (locates_constants? origin hg).orSkip fun _ => .bind (.rounds round ()) fun _ => .pure
  · exact .bind .pure fun _ => .bind (.rounds round ()) fun _ => .pure

/-! ## Types -/

theorem locates_introducer : introducer.Locates good := by
  apply Locates.ahead
  intro ks
  split
  · exact .ite (locates_map_token origin)
      (.ite (locates_map_token origin) (.ite (locates_map_token origin) (locates_unexpected origin)))
  · exact .ite (.bind (locates_token origin) fun _ => locates_map_token origin) (locates_unexpected origin)
  · exact .ite (locates_map_token origin) (locates_unexpected origin)
  · exact locates_unexpected origin

theorem locates_typeHeader (hg : g.Locates good) : (typeHeader g).Locates good := by
  have round : ∀ x, (headerRound g x).Locates good := by
    intro x
    apply Locates.ahead
    intro ks
    apply Locates.ite .pure
    apply Locates.ite (locates_unexpected origin)
    exact .bind hg.tree fun _ => .pure
  exact .bind (.rounds round ()) fun _ => .pure

theorem locates_typeWith (hg : g.Locates good)
    {body? : Option (TypeKind → Token → Parser (List Member × Token))}
    (hb : ∀ body ∈ body?, ∀ kind opening, good opening.span.start → (body kind opening).Locates good)
    (modifiers : List Modifier) : (typeWith g body? modifiers).Locates good := by
  apply Locates.bind (locates_introducer origin)
  rintro ⟨kind, introducer⟩
  apply Locates.bind (locates_expect origin)
  intro name
  apply Locates.bind (locates_typeHeader origin hg)
  intro header
  -- the error for a body that is never closed looks back at its opening brace
  apply Locates.bind_placed (locates_expect origin) Places.expect
  intro opening opened
  have opened := opened opening (List.mem_singleton.2 rfl)
  cases body? with
  | none => exact locates_fail_bind origin trivial
  | some body => exact .bind (hb body rfl kind opening opened) fun _ => .pure

/-- By induction on the budget: the body of a type draws on a smaller one. -/
theorem locates_typeOfBudget (n : Nat) (modifiers : List Modifier) :
    (typeOfBudget n modifiers).Locates good := by
  induction n generalizing modifiers with
  | zero =>
    refine locates_typeWith origin (Grammar.ofBudget_locates origin 0) ?_ modifiers
    rintro body ⟨⟩
  | succ n ih =>
    refine locates_typeWith origin (Grammar.ofBudget_locates origin (n + 1)) ?_ modifiers
    rintro body ⟨⟩ kind opening opened
    exact locates_bodyContents origin (Grammar.ofBudget_locates origin n) ih kind opened

/-! ## Packages and imports -/

theorem locates_packageAnnotations {modifiers : List Modifier}
    (h : ∀ m ∈ modifiers, good m.first.span.start) :
    (packageAnnotations modifiers).Locates good := by
  induction modifiers with
  | nil => exact .pure
  | cons m modifiers ih =>
    obtain ⟨hm, hms⟩ := List.forall_mem_cons.1 h
    have misplaced : (SyntaxError.modifierOnPackage m).LooksBack good := hm
    cases m with
    | annot a => exact .bind (ih hms) fun _ => .pure
    | keyword t => exact .bind (locates_report origin misplaced) fun _ => ih hms
    | contextual words => exact .bind (locates_report origin misplaced) fun _ => ih hms

theorem locates_packageDeclaration {modifiers : List Modifier}
    (h : ∀ m ∈ modifiers, good m.first.span.start) :
    (packageDeclaration modifiers).Locates good := by
  apply Locates.bind (locates_packageAnnotations origin h)
  intro annotations
  apply Locates.bind (locates_token origin)
  intro word
  apply Locates.bind (locates_qualifiedName origin _)
  intro name
  exact .bind (locates_expect origin) fun _ => .pure

theorem locates_importDeclaration : importDeclaration.Locates good := by
  have static : staticWord?.Locates good :=
    .ahead fun _ => .ite (locates_map_token origin) .pure
  have wildcard : wildcard?.Locates good :=
    .ahead fun _ => .ite (.token origin fun dot _ => .token origin fun star _ => .pure) .pure
  apply Locates.bind (locates_token origin)
  intro word
  apply Locates.bind static
  intro static?
  apply Locates.bind (locates_qualifiedName origin _)
  intro name
  apply Locates.bind wildcard
  intro wildcard?
  exact .bind (locates_expect origin) fun _ => .pure

theorem locates_importPart (pending : List Modifier) : (importPart pending).Locates good := by
  have round : ∀ x, (importRound x).Locates good := fun _ => .ahead fun _ =>
    .ite (.bind (locates_importDeclaration origin).orSkip fun _ => .pure) .pure
  exact .ite (.bind (.rounds round ()) fun _ => .pure) .pure

/-! ## Files -/

theorem locates_topLevelType (modifiers : List Modifier) : (topLevelType modifiers).Locates good :=
  .bind (locates_typeOfBudget origin maxNesting modifiers).orSkip fun _ => .pure

theorem locates_topLevels (pending : List Modifier) : (topLevels pending).Locates good := by
  have declaration : topLevelDeclaration.Locates good := by
    apply Locates.bind (locates_modifiers origin (Grammar.ofBudget_locates origin maxNesting)).orSkip
    intro leading?
    cases leading? with
    | none => exact .pure
    | some modifiers => exact locates_topLevelType origin modifiers
  have round : ∀ pending, (topLevelRound pending).Locates good := by
    intro pending
    apply Locates.ahead
    intro ks
    apply Locates.ite .pure
    apply Locates.ite
    · exact .bind (locates_topLevelType origin pending) fun _ => .pure
    apply Locates.ite
    · exact locates_map_token origin
    · exact .bind declaration fun _ => .pure
  exact .bind (.rounds round pending) fun _ => .pure

/-- **Files** — whatever the tokens are, reports point at good places. -/
theorem locates_compilationUnit : compilationUnit.Locates good := by
  have hg := Grammar.ofBudget_locates origin maxNesting
  -- the error for a modifier before `package` looks back at it
  apply Locates.bind_placed (locates_modifiers origin hg).orSkip
    (places_modifiers (Grammar.ofBudget_places maxNesting)).orSkip
  intro leading? placed
  have leading : ∀ m ∈ leading?.getD [], good m.first.span.start := by
    intro m hm
    cases leading? with
    | none => cases hm
    | some modifiers =>
      exact placed m.first (List.mem_flatMap.2 ⟨m, hm, m.first_mem_tokens⟩)
  have package : (packagePart (leading?.getD [])).Locates good := .ahead fun _ =>
    .ite (.bind (locates_packageDeclaration origin leading).orSkip fun _ => .pure) .pure
  apply Locates.bind package
  rintro ⟨package?, pending⟩
  apply Locates.bind (locates_importPart origin pending)
  intro imports
  apply Locates.bind (locates_topLevels origin pending)
  intro types
  exact .bind (.peek fun _ _ => .ite (locates_token origin) .pure) fun _ => .pure

end Declarations

end Parser

/-- **Reports point at tokens** — if all tokens of a text begin at good places, and the text itself does,
then all that is reported of it points at good places. -/
theorem parseUnit_located (origin : good {}) (source : String) (file : Option String)
    (begins : ∀ t ∈ tokenize source file, good t.span.start) :
    ∀ d ∈ (parseUnit source file).diagnostics, d.Located good :=
  (Parser.locates_compilationUnit origin (s := { rest := tokenize source file }) ⟨begins, nofun⟩).reported

end DeferFetch
