/-
# DeferFetch.Proofs.Grammar.Order — the tree of a broken file keeps the order of its tokens.

Whatever the tokens are, the tree that is made of them lists some of them, none twice, and in the order
in which they stand. A parser is followed together with the tokens that are held: those that were read
before it and still wait for their place in the tree, such as the modifiers before a declaration
(`Parser.Places`). What is given up after an error leaves the held tokens for good, and nothing else moves.
-/
import DeferFetch.Proofs.Grammar.Ending
import DeferFetch.Proofs.Grammar.Text

namespace DeferFetch

namespace Parser

variable {α β σ : Type} {held : List Token}

/-! ## Tokens in order -/

/-- **`p.Places held tokens`** — while the tokens `held` wait for their place, the tokens of a result
and what is left to read stand in this order among the tokens held and those that were to be read. -/
def Places (p : Parser α) (held : List Token) (tokens : α → List Token) : Prop :=
  ∀ ⦃s a t⦄, p.run s = (some a, t) → (tokens a ++ t.rest).Sublist (held ++ s.rest)

namespace Places

variable {p : Parser α} {next : α → Parser β} {tokens : α → List Token} {others : β → List Token}

protected theorem pure {a : α} (h : (tokens a).Sublist held) : (pure a : Parser α).Places held tokens := by
  intro s b t run
  cases run
  exact h.append_right s.rest

theorem pure_of_eq {a : α} (h : tokens a = held) : (pure a : Parser α).Places held tokens :=
  .pure (h ▸ .refl _)

protected theorem fail {e : SyntaxError} : (fail e : Parser α).Places held tokens :=
  fun _ _ _ run => nomatch run

/-- Nothing comes after a failure. -/
theorem fail_bind {e : SyntaxError} {next : α → Parser β} {others : β → List Token} :
    (Parser.fail e >>= next).Places held others :=
  fun _ _ _ run => nomatch run

protected theorem unexpected {e : Expectation} : (unexpected e : Parser α).Places held tokens := .fail

protected theorem report {e : SyntaxError} : (report e).Places held fun _ => held := by
  intro s u t run
  cases run
  exact .refl _

protected theorem ahead {next : List TokenKind → Parser β} (h : ∀ ks, (next ks).Places held others) :
    (ahead >>= next).Places held others :=
  fun s _ _ run => h (kindsAhead s.rest) run

protected theorem peek {next : Option Token → Parser β} (h : ∀ t?, (next t?).Places held others) :
    (peek >>= next).Places held others :=
  fun s _ _ run => h s.rest.head? run

/-- The token that is read comes after those that are held. -/
protected theorem token : token.Places held fun t => held ++ [t] := by
  intro s a t run
  rcases s with ⟨_ | ⟨u, us⟩, position, diagnostics⟩
  · cases run
  · cases run
    simp [ParserState.consume]

protected theorem bind {mid : α → List Token} (hp : p.Places held mid)
    (hn : ∀ a, (next a).Places (mid a) others) : (p >>= next).Places held others := by
  intro s b u run
  obtain ⟨a, t, first, second⟩ := run_bind_eq_some.1 run
  exact (hn a second).trans (hp first)

protected theorem ite {c : Prop} [Decidable c] {p q : Parser α} (hp : p.Places held tokens)
    (hq : q.Places held tokens) : (if c then p else q).Places held tokens := by
  split
  · exact hp
  · exact hq

protected theorem expect {fits : TokenKind → Bool} {e : Expectation} :
    (expect fits e).Places held fun t => held ++ [t] :=
  .ahead fun _ => .ite .token .unexpected

/-- What a parser reads comes after all that is held. -/
protected theorem after (h : p.Places [] tokens) : p.Places held fun a => held ++ tokens a := by
  intro s a t run
  rw [List.append_assoc]
  exact (h run).append_left held

/-- What is skipped in place of a result is lost, and so is what was held for it. -/
protected theorem orSkip {count : List Token → Nat} (h : p.Places held tokens) :
    (p.orSkip count).Places held fun a? => a?.elim [] tokens := by
  intro s r u run
  unfold orSkip at run
  rcases first : p.run s with ⟨_ | a, t⟩
  · simp only [first, Prod.mk.injEq, Option.some.injEq] at run
    obtain ⟨rfl, rfl⟩ := run
    have read : Follows s t := by simpa only [first] using p.follows s
    obtain ⟨⟨consumed, split, -⟩, -⟩ := read.trans (.consume t (count t.rest))
    show (t.consume (count t.rest)).rest.Sublist (held ++ s.rest)
    rw [split, ← List.append_assoc]
    exact List.sublist_append_right _ _
  · simp only [first, Prod.mk.injEq, Option.some.injEq] at run
    obtain ⟨rfl, rfl⟩ := run
    exact h first

end Places

/-! ## Repetitions -/

/-- **`step.tokens item last hold`** — the tokens of what a round has come to: those of its item and
those that wait for the next round, or those of the end. -/
def Step.tokens (item : α → List Token) (last : β → List Token) (hold : σ → List Token) :
    Step α β σ → List Token
  | .again a? y => a?.elim [] item ++ hold y
  | .stop b => last b

/-- Where nothing waits for the next round, only the tokens of the item matter. -/
protected theorem Places.again {item : α → List Token} {last : β → List Token} {a? : Option α} {y : σ}
    (h : (a?.elim [] item).Sublist held) :
    (pure (.again a? y) : Parser (Step α β σ)).Places held (Step.tokens item last fun _ => []) := by
  apply Places.pure
  rw [Step.tokens, List.append_nil]
  exact h

/-- **Repetitions** — the items in order, and what the last round has read. -/
theorem places_rounds_holding {round : σ → Parser (Step α β σ)} {item : α → List Token}
    {last : β → List Token} {hold : σ → List Token}
    (h : ∀ x, (round x).Places (hold x) (Step.tokens item last hold)) (x : σ) :
    (rounds round x).Places (hold x) fun r => r.1.flatMap item ++ last r.2 := by
  intro s r u run
  change runRounds round x s = (some r, u) at run
  -- along the rounds: each places its item before what is left, and there the next ones place theirs
  fun_induction runRounds round x s generalizing r u with
  | case1 => cases run
  | case2 x s b t first =>
    cases run
    exact h x first
  | case3 x s a? next t first _ _ _ result v others ih =>
    rcases result with _ | ⟨items, b⟩
    · cases run
    cases run
    have rest : (items.flatMap item ++ last b ++ v.rest).Sublist (hold next ++ t.rest) := ih others
    have front : (a?.elim [] item ++ hold next ++ t.rest).Sublist (hold x ++ s.rest) := h x first
    have items_eq : (a?.toList ++ items).flatMap item = a?.elim [] item ++ items.flatMap item := by
      cases a? <;> simp
    show ((a?.toList ++ items).flatMap item ++ last b ++ v.rest).Sublist (hold x ++ s.rest)
    rw [items_eq, List.append_assoc, List.append_assoc, ← List.append_assoc (items.flatMap item)]
    rw [List.append_assoc] at front
    exact (rest.append_left (a?.elim [] item)).trans front
  | case4 => cases run

/-- Repetitions in which nothing is held from one round to the next. -/
theorem places_rounds {round : σ → Parser (Step α β σ)} {item : α → List Token} {last : β → List Token}
    (h : ∀ x, (round x).Places [] (Step.tokens item last fun _ => [])) (x : σ) :
    (rounds round x).Places [] fun r => r.1.flatMap item ++ last r.2 :=
  places_rounds_holding h x

/-! ## Names -/

theorem places_qualifiedName (e : Expectation) : (qualifiedName e).Places [] QualifiedName.tokens := by
  have round : ∀ x, (segmentRound x).Places [] (Step.tokens segmentTokens (fun _ => []) fun _ => []) := by
    intro x
    apply Places.ahead
    intro ks
    apply Places.ite
    · exact .bind .token fun dot => .bind .token fun identifier => .again (.refl _)
    · exact .pure (.refl _)
  apply Places.bind .expect
  intro first
  apply Places.bind (places_rounds round ()).after
  rintro ⟨segments, ⟨⟩⟩
  apply Places.pure
  rw [List.append_nil]
  exact .refl _

end Parser

/-! ## Trees and annotations -/

/-- **`g.Places`** — the parsers of a level place what they read. -/
structure Grammar.Places (g : Grammar) : Prop where
  tree : g.tree.Places [] TokenTree.tokens
  group : g.group.Places [] Group.tokens
  annot : g.annot.Places [] Annotation.tokens
  value : g.value.Places [] ElementValue.tokens

namespace Parser

variable {g : Grammar} {inner : Option Grammar}

theorem places_nested {parse : Grammar → Parser α} {tokens : α → List Token}
    (hi : ∀ g ∈ inner, g.Places) (h : ∀ g : Grammar, g.Places → (parse g).Places held tokens) :
    (nested inner parse).Places held tokens := by
  cases inner with
  | none => exact .fail
  | some g => exact h g (hi g rfl)

theorem places_groupContents (hg : g.Places) (delimiter : Delimiter) (opening : Token) :
    (groupContents delimiter opening g).Places [opening] Group.tokens := by
  have round : ∀ x, (groupRound delimiter opening g x).Places []
      (Step.tokens TokenTree.tokens (fun closing => [closing]) fun _ => []) := by
    intro x
    apply Places.ahead
    intro ks
    apply Places.ite .fail
    apply Places.ite
    · exact .bind .token fun closing => .pure (.refl _)
    apply Places.ite .fail
    exact .bind hg.tree fun tree => .again (.refl _)
  apply Places.bind (places_rounds round ()).after
  rintro ⟨trees, closing⟩
  apply Places.pure
  rw [Group.tokens, TokenTree.listTokens_eq_flatMap]
  exact .refl _

theorem places_groupWithin (hi : ∀ g ∈ inner, g.Places) :
    (groupWithin inner).Places [] Group.tokens := by
  apply Places.ahead
  intro ks
  split
  · apply Places.bind .token
    intro opening
    exact places_nested hi fun g hg => places_groupContents hg _ opening
  · exact .unexpected

theorem places_label? : label?.Places [] labelTokens := by
  apply Places.ahead
  intro ks
  apply Places.ite
  · exact .bind .token fun name => .bind .token fun equals => .pure (.refl _)
  · exact .pure (.refl _)

theorem places_argumentRounds (hg : g.Places) :
    (argumentRounds g).Places [] fun r => r.1.flatMap argumentTokens ++ argumentTokens r.2 := by
  apply places_rounds
  intro first
  apply Places.peek
  intro start
  apply Places.bind places_label?
  intro label
  apply Places.bind hg.value.after
  intro value
  apply Places.ite
  · exact .fail_bind
  apply Places.ahead
  intro ks
  split
  · exact .bind .token fun comma => .again (.refl _)
  · exact .bind .token fun closing => .pure (.refl _)
  · exact .unexpected

theorem places_argumentList (hg : g.Places) : (argumentList g).Places [] listTokens := by
  apply Places.bind .token
  intro opening
  apply Places.ahead
  intro ks
  apply Places.ite
  · exact .bind .token fun closing => .pure (.refl _)
  apply Places.bind (places_argumentRounds hg).after
  rintro ⟨front, last, closing⟩
  apply Places.pure
  rw [listTokens, listTokens_front front (last, closing)]
  exact .refl _

theorem places_annotationRest (hg : g.Places) (sigil : Token) :
    (annotationRest sigil g).Places [sigil] Annotation.tokens := by
  apply Places.bind (places_qualifiedName _).after
  intro name
  apply Places.ahead
  intro ks
  apply Places.ite
  · apply Places.bind (places_argumentList hg).after
    rintro ⟨opening, arguments, commas, closing⟩
    apply Places.pure
    simp [listTokens, Annotation.tokens]
  · apply Places.pure
    unfold Annotation.tokens
    exact .refl _

theorem places_annotationWithin (hi : ∀ g ∈ inner, g.Places) :
    (annotationWithin inner).Places [] Annotation.tokens := by
  apply Places.bind .expect
  intro sigil
  exact places_nested hi fun g hg => places_annotationRest hg sigil

theorem places_treeWithin (hi : ∀ g ∈ inner, g.Places) :
    (treeWithin inner).Places [] TokenTree.tokens := by
  apply Places.ahead
  intro ks
  apply Places.ite
  · exact .bind (places_groupWithin hi) fun g => .pure (by simp)
  apply Places.ite
  · exact .bind (places_annotationWithin hi) fun a => .pure (.refl _)
  apply Places.ite .unexpected
  exact .bind .token fun t => .pure (.refl _)

/-! ## Element values -/

/-- After a value without a comma comes the closing brace. -/
theorem arrayRound_again {s t : ParserState} {x y : Unit} {item : Option (ElementValue × Option Token)}
    (run : (arrayRound g x).run s = (some (.again item y), t)) :
    ∃ value comma?, item = some (value, comma?) ∧
      (comma? = none → atKind (.closing .brace) (kindsAhead t.rest) = true) := by
  change (ite (atKind (.closing .brace) (kindsAhead s.rest) = true) _ _ : Parser _).run s = _ at run
  split at run
  · obtain ⟨closing, _, -, run⟩ := run_bind_eq_some.1 run
    cases run
  · obtain ⟨value, u, -, run⟩ := run_bind_eq_some.1 run
    obtain ⟨ks, _, ⟨⟩, run⟩ := run_bind_eq_some.1 run
    split at run
    · obtain ⟨comma, _, -, run⟩ := run_bind_eq_some.1 run
      cases run
      exact ⟨value, some comma, rfl, nofun⟩
    · rename_i brace
      cases run
      exact ⟨value, none, rfl, fun _ => by simp [atKind, kindsAhead, brace]⟩
    · cases run

/-- Before the closing brace, there is no further value. -/
theorem arrayRound_at_brace {s t : ParserState} {x y : Unit} {item : Option (ElementValue × Option Token)}
    (here : atKind (.closing .brace) (kindsAhead s.rest) = true) :
    (arrayRound g x).run s ≠ (some (.again item y), t) := by
  intro run
  change (ite (atKind (.closing .brace) (kindsAhead s.rest) = true) _ _ : Parser _).run s = _ at run
  rw [if_pos here] at run
  obtain ⟨closing, _, -, run⟩ := run_bind_eq_some.1 run
  cases run

/-- Values that were read with the commas after them are listed so: only the last may lack its comma. -/
theorem listTokens_of_arrayRounds {s u : ParserState} {items : List (ElementValue × Option Token)}
    {closing : Token} (run : (rounds (arrayRound g) ()).run s = (some (items, closing), u)) :
    ElementValue.listTokens (items.map Prod.fst) (items.filterMap Prod.snd) = items.flatMap itemTokens := by
  change runRounds (arrayRound g) () s = _ at run
  generalize hx : () = x at run
  fun_induction runRounds (arrayRound g) x s generalizing items closing u with
  | case1 => cases run
  | case2 x s b t first =>
    cases run
    rfl
  | case3 x s item y t first _ _ _ result v others ih =>
    obtain ⟨value, comma?, rfl, brace⟩ := arrayRound_again first
    rcases result with _ | ⟨items', closing'⟩
    · cases run
    cases run
    have rest := ih rfl others
    cases comma? with
    | some comma => simpa [ElementValue.listTokens, itemTokens] using rest
    | none =>
      -- the closing brace ends the repetition, so this value is the last one
      obtain ⟨_, stopped, -⟩ | ⟨_, _, _, _, _, -, again, -, -⟩ := run_rounds_eq_some.1 others
      · cases stopped
        simp [ElementValue.listTokens, itemTokens]
      · exact absurd again (arrayRound_at_brace (brace rfl))
  | case4 => cases run

theorem places_arrayContents (hg : g.Places) (opening : Token) :
    (arrayContents opening g).Places [opening] ElementValue.tokens := by
  have round : ∀ x, (arrayRound g x).Places []
      (Step.tokens itemTokens (fun closing => [closing]) fun _ => []) := by
    intro x
    apply Places.ahead
    intro ks
    apply Places.ite
    · exact .bind .token fun closing => .pure (.refl _)
    apply Places.bind hg.value
    intro value
    apply Places.ahead
    intro ks
    split
    · exact .bind .token fun comma => .again (.refl _)
    · exact .again (by simp [itemTokens])
    · exact .unexpected
  intro s value u run
  obtain ⟨⟨items, closing⟩, t, first, last⟩ := run_bind_eq_some.1 run
  cases last
  rw [ElementValue.tokens, listTokens_of_arrayRounds first]
  exact (places_rounds round () first).append_left [opening]

theorem places_expressionTrees (hi : ∀ g ∈ inner, g.Places) :
    (expressionTrees inner).Places [] TokenTree.listTokens := by
  have round : ∀ x, (expressionRound inner x).Places []
      (Step.tokens TokenTree.tokens (fun _ => []) fun _ => []) := by
    intro x
    apply Places.ahead
    intro ks
    apply Places.ite
    · exact .pure (.refl _)
    · exact .bind (places_treeWithin hi) fun tree => .again (.refl _)
  apply Places.bind (places_rounds round ())
  rintro ⟨trees, ⟨⟩⟩
  apply Places.pure_of_eq
  rw [TokenTree.listTokens_eq_flatMap, List.append_nil]

theorem places_valueWithin (hi : ∀ g ∈ inner, g.Places) :
    (valueWithin inner).Places [] ElementValue.tokens := by
  apply Places.ahead
  intro ks
  split
  · exact .bind (places_annotationWithin hi) fun a => .pure (.refl _)
  · apply Places.bind .token
    intro opening
    exact places_nested hi fun g hg => places_arrayContents hg opening
  · apply Places.bind (places_expressionTrees hi)
    intro trees
    apply Places.ite .unexpected
    exact .pure (.refl _)

end Parser

theorem Grammar.within_places {inner : Option Grammar} (hi : ∀ g ∈ inner, g.Places) :
    (Grammar.within inner).Places where
  tree := Parser.places_treeWithin hi
  group := Parser.places_groupWithin hi
  annot := Parser.places_annotationWithin hi
  value := Parser.places_valueWithin hi

theorem Grammar.ofBudget_places (n : Nat) : (Grammar.ofBudget n).Places := by
  induction n with
  | zero => exact within_places nofun
  | succ n ih =>
    apply within_places
    rintro g ⟨⟩
    exact ih

/-! ## Modifiers and members -/

namespace Parser

variable {g : Grammar}

theorem places_modifiers (hg : g.Places) : (modifiers g).Places [] Modifier.listTokens := by
  have round : ∀ x, (modifierRound g x).Places []
      (Step.tokens Modifier.tokens (fun _ => []) fun _ => []) := by
    intro x
    apply Places.ahead
    intro ks
    apply Places.ite
    · exact .bind hg.annot fun a => .again (.refl _)
    apply Places.ite
    · exact .bind .token fun t => .again (.refl _)
    apply Places.ite
    · exact .bind .token fun t => .again (.refl _)
    apply Places.ite
    · exact .bind .token fun non => .bind .token fun hyphen => .bind .token fun word => .again (.refl _)
    · exact .pure (.refl _)
  apply Places.bind (places_rounds round ())
  rintro ⟨modifiers, ⟨⟩⟩
  apply Places.pure
  rw [List.append_nil]
  exact .refl _

/-- The modifiers of a field or a method were read before it. -/
theorem places_fieldOrMethod (hg : g.Places) (modifiers : List Modifier) :
    (fieldOrMethod modifiers g).Places (Modifier.listTokens modifiers) Member.tokens := by
  have round : ∀ head, (memberRound g head).Places []
      (Step.tokens TokenTree.tokens (fun stop => stop.1.tokens) fun _ => []) := by
    intro head
    apply Places.ahead
    intro ks
    apply Places.ite
    · exact .bind .token fun t => .pure (.refl _)
    apply Places.ite
    · exact .bind hg.group fun g => .pure (.refl _)
    apply Places.ite .unexpected
    exact .bind hg.tree fun tree => .again (.refl _)
  apply Places.bind (places_rounds round {}).after
  rintro ⟨trees, body, isField⟩
  cases body with
  | semicolon t =>
    cases isField with
    | true => exact .pure (by simp [Member.tokens, MethodBody.tokens, TokenTree.listTokens_eq_flatMap])
    | false => exact .pure (by simp [Member.tokens, MethodBody.tokens, TokenTree.listTokens_eq_flatMap])
  | block g => exact .pure (by simp [Member.tokens, MethodBody.tokens, TokenTree.listTokens_eq_flatMap])

/-- **`PlacesTypes type`** — the parser of types places the modifiers that were read before a type. -/
def PlacesTypes (type : List Modifier → Parser TypeDeclaration) : Prop :=
  ∀ modifiers, (type modifiers).Places (Modifier.listTokens modifiers) TypeDeclaration.tokens

theorem places_member (hg : g.Places) {type : List Modifier → Parser TypeDeclaration}
    (ht : PlacesTypes type) : (member g type).Places [] Member.tokens := by
  apply Places.ahead
  intro ks
  apply Places.ite
  · exact .bind .token fun t => .pure (.refl _)
  apply Places.bind (places_modifiers hg)
  intro modifiers
  apply Places.ahead
  intro ks
  apply Places.ite
  · exact .bind hg.group.after fun block => .pure (.refl _)
  apply Places.ite
  · exact .bind (ht modifiers) fun d => .pure (.refl _)
  · exact places_fieldOrMethod hg modifiers

theorem places_constants? (hg : g.Places) :
    (constants? g).Places [] fun member? => member?.elim [] Member.tokens := by
  have round : ∀ x, (constantsRound g x).Places []
      (Step.tokens TokenTree.tokens Option.toList fun _ => []) := by
    intro x
    apply Places.ahead
    intro ks
    apply Places.ite
    · exact .bind .token fun t => .pure (.refl _)
    apply Places.ite
    · exact .pure (.refl _)
    apply Places.ite .unexpected
    exact .bind hg.tree fun tree => .again (.refl _)
  apply Places.bind (places_rounds round ())
  rintro ⟨trees, semicolon⟩
  apply Places.ite
  · exact .pure (List.nil_sublist _)
  · apply Places.pure_of_eq
    rw [Option.elim_some, Member.tokens, TokenTree.listTokens_eq_flatMap]

theorem places_bodyContents (hg : g.Places) {type : List Modifier → Parser TypeDeclaration}
    (ht : PlacesTypes type) (kind : TypeKind) (opening : Token) :
    (bodyContents kind opening g type).Places [] bodyTokens := by
  have round : ∀ x, (bodyRound opening g type x).Places []
      (Step.tokens Member.tokens (fun closing => [closing]) fun _ => []) := by
    intro x
    apply Places.ahead
    intro ks
    apply Places.ite
    · exact .bind .token fun closing => .pure (.refl _)
    apply Places.ite .fail
    exact .bind (places_member hg ht).orSkip fun member? => .again (.refl _)
  have members (member?? : Option (Option Member)) : (do
      let body ← rounds (bodyRound opening g type) ()
      return (member??.join.toList ++ body.1, body.2)).Places
      (member??.elim [] fun member? => member?.elim [] Member.tokens) bodyTokens := by
    apply Places.bind (places_rounds round ()).after
    intro body
    apply Places.pure
    rcases member?? with _ | _ | member <;> simp [bodyTokens, Member.listTokens_eq_flatMap]
  apply Places.ite
  · exact .bind (places_constants? hg).orSkip members
  · exact .bind (.pure (.refl _)) members

/-! ## Types -/

theorem places_introducer : introducer.Places [] fun r => r.2.tokens := by
  apply Places.ahead
  intro ks
  split
  · apply Places.ite
    · exact .bind .token fun t => .pure (.refl _)
    apply Places.ite
    · exact .bind .token fun t => .pure (.refl _)
    apply Places.ite
    · exact .bind .token fun t => .pure (.refl _)
    · exact .unexpected
  · apply Places.ite
    · exact .bind .token fun sigil => .bind .token fun word => .pure (.refl _)
    · exact .unexpected
  · apply Places.ite
    · exact .bind .token fun t => .pure (.refl _)
    · exact .unexpected
  · exact .unexpected

theorem places_typeHeader (hg : g.Places) : (typeHeader g).Places [] TokenTree.listTokens := by
  have round : ∀ x, (headerRound g x).Places []
      (Step.tokens TokenTree.tokens (fun _ => []) fun _ => []) := by
    intro x
    apply Places.ahead
    intro ks
    apply Places.ite
    · exact .pure (.refl _)
    apply Places.ite .unexpected
    exact .bind hg.tree fun tree => .again (.refl _)
  apply Places.bind (places_rounds round ())
  rintro ⟨trees, ⟨⟩⟩
  apply Places.pure_of_eq
  rw [TokenTree.listTokens_eq_flatMap, List.append_nil]

theorem places_typeWith (hg : g.Places)
    {body? : Option (TypeKind → Token → Parser (List Member × Token))}
    (hb : ∀ body ∈ body?, ∀ kind opening, (body kind opening).Places [] bodyTokens) :
    PlacesTypes (typeWith g body?) := by
  intro modifiers
  apply Places.bind places_introducer.after
  rintro ⟨kind, introducer⟩
  apply Places.bind .expect
  intro name
  apply Places.bind (places_typeHeader hg).after
  intro header
  apply Places.bind .expect
  intro opening
  cases body? with
  | none =>
    intro s d u run
    obtain ⟨_, _, failed, -⟩ := run_bind_eq_some.1 run
    cases failed
  | some body =>
    apply Places.bind (hb body rfl kind opening).after
    rintro ⟨members, closing⟩
    apply Places.pure
    simp [TypeDeclaration.tokens, bodyTokens]

/-- By induction on the budget: the body of a type draws on a smaller one. -/
theorem places_typeOfBudget (n : Nat) : PlacesTypes (typeOfBudget n) := by
  induction n with
  | zero => exact places_typeWith (Grammar.ofBudget_places 0) nofun
  | succ n ih =>
    apply places_typeWith (Grammar.ofBudget_places (n + 1))
    rintro body ⟨⟩ kind opening
    exact places_bodyContents (Grammar.ofBudget_places n) ih kind opening

/-! ## Packages and imports -/

theorem places_packageAnnotations (modifiers : List Modifier) :
    (packageAnnotations modifiers).Places (Modifier.listTokens modifiers)
      fun annotations => annotations.flatMap Annotation.tokens := by
  induction modifiers with
  | nil => exact .pure (.refl _)
  | cons modifier modifiers ih =>
    have dropped : (Modifier.listTokens modifiers).Sublist (Modifier.listTokens (modifier :: modifiers)) :=
      List.sublist_append_right _ _
    cases modifier with
    | annot a =>
      intro s annotations u run
      obtain ⟨others, t, first, last⟩ := run_bind_eq_some.1 run
      cases last
      have placed := (ih first).append_left a.tokens
      simpa [Modifier.listTokens, Modifier.tokens] using placed
    | keyword t =>
      exact .bind .report fun _ s annotations u run => (ih run).trans (dropped.append_right s.rest)
    | contextual words =>
      exact .bind .report fun _ s annotations u run => (ih run).trans (dropped.append_right s.rest)

theorem places_packageDeclaration (modifiers : List Modifier) :
    (packageDeclaration modifiers).Places (Modifier.listTokens modifiers) PackageDeclaration.tokens := by
  apply Places.bind (places_packageAnnotations modifiers)
  intro annotations
  apply Places.bind .token
  intro word
  apply Places.bind (places_qualifiedName _).after
  intro name
  apply Places.bind .expect
  intro semicolon
  apply Places.pure
  simp [PackageDeclaration.tokens]

theorem places_importDeclaration : importDeclaration.Places [] ImportDeclaration.tokens := by
  have staticWord : staticWord?.Places [] Option.toList := by
    apply Places.ahead
    intro ks
    apply Places.ite
    · exact .bind .token fun t => .pure (.refl _)
    · exact .pure (.refl _)
  have wildcard : wildcard?.Places [] wildcardTokens := by
    apply Places.ahead
    intro ks
    apply Places.ite
    · exact .bind .token fun dot => .bind .token fun star => .pure (.refl _)
    · exact .pure (.refl _)
  apply Places.bind .token
  intro word
  apply Places.bind staticWord.after
  intro static?
  apply Places.bind (places_qualifiedName _).after
  intro name
  apply Places.bind wildcard.after
  intro wildcard?
  apply Places.bind .expect
  intro semicolon
  apply Places.pure
  simp [ImportDeclaration.tokens, wildcardTokens]

theorem places_importPart (pending : List Modifier) :
    (importPart pending).Places [] fun imports => imports.flatMap ImportDeclaration.tokens := by
  have round : ∀ x, (importRound x).Places []
      (Step.tokens ImportDeclaration.tokens (fun _ => []) fun _ => []) := by
    intro x
    apply Places.ahead
    intro ks
    apply Places.ite
    · exact .bind places_importDeclaration.orSkip fun import? => .again (.refl _)
    · exact .pure (.refl _)
  apply Places.ite
  · apply Places.bind (places_rounds round ())
    rintro ⟨imports, ⟨⟩⟩
    apply Places.pure_of_eq
    rw [List.append_nil]
  · exact .pure (.refl _)

/-! ## Files -/

theorem places_topLevelType (modifiers : List Modifier) :
    (topLevelType modifiers).Places (Modifier.listTokens modifiers)
      fun d? => d?.elim [] TopLevel.tokens := by
  apply Places.bind (places_typeOfBudget maxNesting modifiers).orSkip
  rintro (_ | d)
  · exact .pure (.refl _)
  · exact .pure (.refl _)

theorem places_topLevelDeclaration :
    topLevelDeclaration.Places [] fun d? => d?.elim [] TopLevel.tokens := by
  apply Places.bind (places_modifiers (Grammar.ofBudget_places maxNesting)).orSkip
  rintro (_ | modifiers)
  · exact .pure (.refl _)
  · exact places_topLevelType modifiers

/-- The modifiers that wait for the first type are held until its round. -/
theorem places_topLevels (pending : List Modifier) :
    (topLevels pending).Places (Modifier.listTokens pending)
      fun types => types.flatMap TopLevel.tokens := by
  have round : ∀ pending, (topLevelRound pending).Places (Modifier.listTokens pending)
      (Step.tokens TopLevel.tokens (fun _ => []) Modifier.listTokens) := by
    intro pending
    apply Places.ahead
    intro ks
    apply Places.ite
    · exact .pure (List.nil_sublist _)
    split
    · exact .bind (places_topLevelType pending) fun d? => .pure (by simp [Step.tokens, Modifier.listTokens])
    · rename_i none_pending
      obtain rfl : pending = [] := by simpa using none_pending
      apply Places.ite
      · exact .bind .token fun t => .pure (.refl _)
      · exact .bind places_topLevelDeclaration fun d? => .pure (by simp [Step.tokens, Modifier.listTokens])
  apply Places.bind (places_rounds_holding round pending)
  rintro ⟨types, ⟨⟩⟩
  apply Places.pure_of_eq
  rw [List.append_nil]

/-- The modifiers at the top of a file go to the package or wait for the first type. -/
theorem places_packagePart (leading : List Modifier) :
    (packagePart leading).Places (Modifier.listTokens leading)
      fun r => (r.1.map PackageDeclaration.tokens).getD [] ++ Modifier.listTokens r.2 := by
  apply Places.ahead
  intro ks
  apply Places.ite
  · apply Places.bind (places_packageDeclaration leading).orSkip
    rintro (_ | p)
    · exact .pure (.refl _)
    · exact .pure (by simp [Modifier.listTokens])
  · exact .pure (.refl _)

/-- With modifiers pending, there are no imports that they would have to stand after. -/
theorem importPart_eq_nil {pending : List Modifier} {imports : List ImportDeclaration} {s t : ParserState}
    (run : (importPart pending).run s = (some imports, t)) : pending = [] ∨ imports = [] := by
  unfold importPart at run
  split at run
  · rename_i none_pending
    exact .inl (by simpa using none_pending)
  · cases run
    exact .inr rfl

/-- What the parts of a file place, one after the other. -/
theorem FileRun.body_placed {s : ParserState} (r : FileRun s) :
    (r.unit.body ++ r.afterTypes.rest).Sublist s.rest := by
  have first : (Modifier.listTokens (r.leading?.getD []) ++ r.afterLeading.rest).Sublist s.rest := by
    have placed := (places_modifiers (Grammar.ofBudget_places maxNesting)).orSkip r.readsLeading
    cases leading : r.leading? <;> rwa [leading] at placed
  have second := places_packagePart _ r.readsPackage
  have third : (r.imports.flatMap ImportDeclaration.tokens ++ r.afterImports.rest).Sublist
      r.afterPackage.rest := places_importPart r.pending r.readsImports
  have fourth := places_topLevels r.pending r.readsTypes
  -- modifiers that wait for the first type stand before its other tokens: there are no imports between
  have apart : r.imports.flatMap ImportDeclaration.tokens ++ Modifier.listTokens r.pending =
      Modifier.listTokens r.pending ++ r.imports.flatMap ImportDeclaration.tokens := by
    rcases importPart_eq_nil r.readsImports with none | none <;> simp [none, Modifier.listTokens]
  simp only [unit, CompilationUnit.body, List.append_assoc] at second ⊢
  refine List.Sublist.trans ?_ (second.trans first)
  apply List.Sublist.append_left
  calc
    List.Sublist _ (r.imports.flatMap ImportDeclaration.tokens ++
        (Modifier.listTokens r.pending ++ r.afterImports.rest)) := fourth.append_left _
    List.Sublist _ (Modifier.listTokens r.pending ++ r.afterPackage.rest) := by
      rw [← List.append_assoc, apart, List.append_assoc]
      exact third.append_left _

/-- **A recovered tree keeps the order of the tokens** — of any tokens, broken off or not, a file's
parser makes a tree. All that the tree lists before its end stands, in its order, among the tokens before
the first one that ends a text; and that one is the end of the tree. Only if there is none, the end is
made up, when all tokens have been read. -/
theorem compilationUnit_in_order (tokens : List Token) :
    ∃ unit t, compilationUnit.run { rest := tokens } = (some unit, t) ∧
      unit.tokens = unit.body ++ [unit.eof] ∧
      unit.body.Sublist (tokens.takeWhile (·.kind ≠ .eof)) ∧
      (tokens = tokens.takeWhile (·.kind ≠ .eof) ++ unit.eof :: t.rest ∧ unit.tokens.Sublist tokens ∨
        (∀ u ∈ tokens, u.kind ≠ .eof) ∧ t.rest = [] ∧ t.position = tokens.length ∧
          unit.eof = .synthetic .eof) := by
  obtain ⟨r⟩ := exists_fileRun { rest := tokens }
  have split : tokens = tokens.takeWhile (·.kind ≠ .eof) ++ r.afterTypes.rest := r.rest_eq
  have placed : r.unit.body.Sublist (tokens.takeWhile (·.kind ≠ .eof)) := by
    rw [← List.append_sublist_append_right r.afterTypes.rest, ← split]
    exact r.body_placed
  refine ⟨r.unit, r.final, r.run_eq, rfl, placed, ?_⟩
  obtain next | ⟨none_left, same, made_up⟩ := r.ends
  · rw [next] at split
    have whole : (r.unit.body ++ [r.eof]).Sublist
        (tokens.takeWhile (·.kind ≠ .eof) ++ r.eof :: r.final.rest) :=
      placed.append (List.singleton_sublist.2 List.mem_cons_self)
    rw [← split] at whole
    exact .inl ⟨split, whole⟩
  · have read : r.afterTypes.position + r.afterTypes.rest.length = 0 + tokens.length :=
      r.follows.position_add_length
    rw [none_left, List.append_nil] at split
    refine .inr ⟨fun u hu => ?_, same ▸ none_left, ?_, made_up⟩
    · rw [split] at hu
      exact of_decide_eq_true (List.all_eq_true.1 List.all_takeWhile u hu)
    · rw [same]
      simpa [none_left] using read

end Parser

end DeferFetch
