/-
# DeferFetch.Proofs.Grammar.Ending — the token that ends a text is read last.

Skipping stops before the token that ends the text, and so does everything that reads a tree, a
declaration or an import: whatever the tokens are and whether or not a parser fails, what stands from
that token on is still there when it is done (`Parser.Spares`). So the parts of a file before its end
stop where the first such token stands, or where the text breaks off without one
(`Parser.FileRun.rest_afterTypes`).
-/
import DeferFetch.Proofs.Grammar.Progress

namespace DeferFetch

/-- **`fromEnd ts`** — what stands from the token on that ends the text; nothing, if the text breaks off
before it. -/
def fromEnd (ts : List Token) : List Token := ts.dropWhile (·.kind ≠ .eof)

/-- **`s.Clear n`** — the token that ends the text is none of the next `n`. -/
def ParserState.Clear (s : ParserState) (n : Nat) : Prop := ∀ t ∈ s.rest.take n, t.kind ≠ .eof

/-- Reading as many tokens leaves what stands from the end on. -/
theorem ParserState.Clear.fromEnd_consume {s : ParserState} {n : Nat} (h : s.Clear n) :
    fromEnd (s.consume n).rest = fromEnd s.rest := by
  have whole : s.rest = s.rest.take n ++ (s.consume n).rest := (List.take_append_drop n s.rest).symm
  rw [whole, fromEnd, fromEnd, List.dropWhile_append_of_pos fun t ht => decide_eq_true (h t ht)]

/-- The kinds ahead tell whether the end is near. -/
theorem ParserState.clear_of_kindsAhead {s : ParserState} {n : Nat} (few : n ≤ 3)
    (h : ∀ k ∈ (kindsAhead s.rest).take n, k ≠ .eof) : s.Clear n := by
  intro t ht
  refine h t.kind ?_
  rw [kindsAhead, ← List.map_take, List.take_take, Nat.min_eq_left few]
  exact List.mem_map_of_mem ht

/-! ## What a test of the kinds ahead excludes -/

section Ahead

variable {ks : List TokenKind}

theorem clear_of_left (h : ¬ atEnd ks = true) : ∀ k ∈ ks.take 1, k ≠ .eof := by
  fun_cases atEnd ks <;> simp_all [atEnd]

theorem clear_of_head? {k : TokenKind} (h : ks.head? = some k) (other : k ≠ .eof) :
    ∀ k ∈ ks.take 1, k ≠ .eof := by
  obtain ⟨others, rfl⟩ := List.head?_eq_some_iff.1 h
  simpa using other

theorem clear_of_atKind {k : TokenKind} (h : atKind k ks = true) (other : k ≠ .eof) :
    ∀ k ∈ ks.take 1, k ≠ .eof :=
  clear_of_head? (of_decide_eq_true h) other

theorem clear_of_any {fits : TokenKind → Bool} (h : ks.head?.any fits = true) (other : fits .eof = false) :
    ∀ k ∈ ks.take 1, k ≠ .eof := by
  obtain ⟨k, hk, fitting⟩ := (Option.any_eq_true _ _).1 h
  refine clear_of_head? hk ?_
  rintro rfl
  exact Bool.false_ne_true (other.symm.trans fitting)

theorem clear_of_atSegment (h : atSegment ks = true) : ∀ k ∈ ks.take 2, k ≠ .eof := by
  fun_cases atSegment ks <;> simp_all [atSegment]

theorem clear_of_atLabel (h : atLabel ks = true) : ∀ k ∈ ks.take 2, k ≠ .eof := by
  fun_cases atLabel ks <;> simp_all [atLabel]

theorem clear_of_atWildcard (h : atWildcard ks = true) : ∀ k ∈ ks.take 2, k ≠ .eof := by
  fun_cases atWildcard ks <;> simp_all [atWildcard]

theorem clear_of_atSealed (h : atSealed ks = true) : ∀ k ∈ ks.take 1, k ≠ .eof := by
  fun_cases atSealed ks <;> simp_all [atSealed]

theorem clear_of_atNonSealed (h : atNonSealed ks = true) : ∀ k ∈ ks.take 3, k ≠ .eof := by
  fun_cases atNonSealed ks <;> simp_all [atNonSealed]

end Ahead

/-! ## Skipping -/

/-- **`Halts count`** — skipping as many tokens as `count` says stops before the end of the text. -/
def Halts (count : List Token → Nat) : Prop :=
  ∀ ts : List Token, ∀ t ∈ ts.take (count ts), t.kind ≠ .eof

/-- A token that does not end the text is skipped besides. -/
theorem forall_take_one_add {t : Token} {ts : List Token} {n : Nat} (first : t.kind ≠ .eof)
    (others : ∀ u ∈ ts.take n, u.kind ≠ .eof) : ∀ u ∈ (t :: ts).take (1 + n), u.kind ≠ .eof := by
  rw [Nat.add_comm, List.take_succ_cons]
  exact List.forall_mem_cons.2 ⟨first, others⟩

theorem halts_skipLength (before : List TokenKind → Bool) (after : TokenKind → Bool) (depth : Nat) :
    Halts (skipLength before after depth) := by
  intro ts
  fun_induction skipLength before after depth ts with
  | case1 | case2 | case5 => exact List.forall_mem_nil _
  | case3 t ts left =>
    have inside : t.kind ≠ .eof := fun ends => left (by simp [ends])
    exact forall_take_one_add (n := 0) inside (List.forall_mem_nil _)
  | case4 t ts left _ ih =>
    have inside : t.kind ≠ .eof := fun ends => left (by simp [ends])
    exact forall_take_one_add inside ih
  | case6 _ _ _ inside _ ih => exact forall_take_one_add inside ih
  | case7 _ _ _ inside _ _ ih => exact forall_take_one_add inside ih
  | case8 _ _ _ inside _ _ ih => exact forall_take_one_add inside ih

theorem halts_toNextType : Halts toNextType := by
  intro ts
  unfold toNextType
  split
  · exact List.forall_mem_nil _
  · rename_i t ts
    split
    · exact List.forall_mem_nil _
    · rename_i inside
      exact forall_take_one_add inside (halts_skipLength _ _ _ ts)

theorem halts_pastSemicolon : Halts pastSemicolon := halts_skipLength _ _ 0

theorem halts_toNextMember : Halts toNextMember := halts_skipLength _ _ 0

namespace Parser

variable {α β σ : Type} {s : ParserState}

/-! ## Parsers -/

/-- **`p.Spares s`** — from the state `s`, the parser does not read the token that ends the text. -/
def Spares (p : Parser α) (s : ParserState) : Prop := fromEnd (p.run s).2.rest = fromEnd s.rest

namespace Spares

variable {p : Parser α} {next : α → Parser β}

protected theorem pure {a : α} : (pure a : Parser α).Spares s := rfl

protected theorem fail {e : SyntaxError} : (fail e : Parser α).Spares s := rfl

/-- Nothing comes after a failure. -/
theorem fail_bind {e : SyntaxError} : (Parser.fail e >>= next).Spares s := rfl

protected theorem unexpected {e : Expectation} : (unexpected e : Parser α).Spares s := rfl

/-- The second parser starts where the first one has come to. -/
theorem bind_of_run (hp : p.Spares s) (hn : ∀ a t, p.run s = (some a, t) → (next a).Spares t) :
    (p >>= next).Spares s := by
  unfold Spares at hp ⊢
  rw [run_bind]
  rcases run : p.run s with ⟨_ | a, t⟩
  · rwa [run] at hp
  · rw [run] at hp
    exact (hn a t run).trans hp

protected theorem bind (hp : p.Spares s) (hn : ∀ a t, (next a).Spares t) : (p >>= next).Spares s :=
  .bind_of_run hp fun a t _ => hn a t

protected theorem ahead {next : List TokenKind → Parser β} (h : (next (kindsAhead s.rest)).Spares s) :
    (ahead >>= next).Spares s := h

protected theorem peek {next : Option Token → Parser β} (h : (next s.rest.head?).Spares s) :
    (peek >>= next).Spares s := h

protected theorem token (h : s.Clear 1) : token.Spares s := by
  rcases s with ⟨_ | ⟨t, ts⟩, position, diagnostics⟩
  · rfl
  · exact h.fromEnd_consume

/-- After a token, one fewer is known not to be the last. -/
theorem token_bind {next : Token → Parser β} {n : Nat} (h : s.Clear (n + 1))
    (hn : ∀ t u, u.Clear n → (next t).Spares u) : (Parser.token >>= next).Spares s := by
  rcases s with ⟨_ | ⟨t, ts⟩, position, diagnostics⟩
  · rfl
  · have first : t.kind ≠ .eof := h t List.mem_cons_self
    have others : (ParserState.consume ⟨t :: ts, position, diagnostics⟩ 1).Clear n :=
      fun u hu => h u (List.mem_cons_of_mem t hu)
    have rest : fromEnd ts = fromEnd (t :: ts) := (List.dropWhile_cons_of_pos (by simpa using first)).symm
    exact (hn t _ others).trans rest

protected theorem expect {fits : TokenKind → Bool} {e : Expectation} (other : fits .eof = false) :
    (expect fits e).Spares s := by
  apply Spares.ahead
  split
  · rename_i here
    exact .token (s.clear_of_kindsAhead (by decide) (clear_of_any here other))
  · exact .unexpected

protected theorem orSkip {count : List Token → Nat} (h : p.Spares s) (halts : Halts count) :
    (p.orSkip count).Spares s := by
  unfold Spares at h ⊢
  unfold Parser.orSkip
  rcases run : p.run s with ⟨_ | a, t⟩
  · rw [run] at h
    have skipped : t.Clear (count t.rest) := halts t.rest
    simpa only [run] using skipped.fromEnd_consume.trans h
  · simpa only [run] using h

/-- **Repetitions** spare what their rounds spare. -/
protected theorem rounds {round : σ → Parser (Step α β σ)} (h : ∀ x s, (round x).Spares s) (x : σ) :
    (rounds round x).Spares s := by
  show fromEnd (runRounds round x s).2.rest = fromEnd s.rest
  fun_induction runRounds round x s with
  | case1 x s t run =>
    have first := h x s
    rwa [Spares, run] at first
  | case2 x s b t run =>
    have first := h x s
    rwa [Spares, run] at first
  | case3 x s item next t run _ _ _ result u rest ih =>
    have first := h x s
    rw [Spares, run] at first
    rw [rest] at ih
    exact ih.trans first
  | case4 x s item next t run =>
    have first := h x s
    rwa [Spares, run] at first

end Spares

/-- A token of a kind that the test has seen ahead. -/
theorem spares_token_of_atKind {k : TokenKind} (h : atKind k (kindsAhead s.rest) = true) (other : k ≠ .eof) :
    token.Spares s :=
  .token (s.clear_of_kindsAhead (by decide) (clear_of_atKind h other))

theorem spares_token_of_left (h : ¬ atEnd (kindsAhead s.rest) = true) : token.Spares s :=
  .token (s.clear_of_kindsAhead (by decide) (clear_of_left h))

/-! ## Names -/

theorem spares_qualifiedName (e : Expectation) : (qualifiedName e).Spares s := by
  have round : ∀ x s, (segmentRound x).Spares s := by
    intro x s
    apply Spares.ahead
    split
    · rename_i here
      apply Spares.token_bind (s.clear_of_kindsAhead (by decide) (clear_of_atSegment here))
      intro dot t clear
      exact .bind (.token clear) fun _ _ => .pure
    · exact .pure
  apply Spares.bind (.expect rfl)
  intro first t
  exact .bind (.rounds round ()) fun _ _ => .pure

end Parser

/-! ## Trees and annotations -/

/-- **`g.Spares`** — the parsers of a level do not read the token that ends the text. -/
structure Grammar.Spares (g : Grammar) : Prop where
  tree : ∀ s, g.tree.Spares s
  group : ∀ s, g.group.Spares s
  annot : ∀ s, g.annot.Spares s
  value : ∀ s, g.value.Spares s

namespace Parser

variable {α : Type} {s : ParserState} {g : Grammar} {inner : Option Grammar}

theorem spares_nested {parse : Grammar → Parser α} (hi : ∀ g ∈ inner, g.Spares)
    (h : ∀ g : Grammar, g.Spares → (parse g).Spares s) : (nested inner parse).Spares s := by
  cases inner with
  | none => exact .fail
  | some g => exact h g (hi g rfl)

theorem spares_groupContents (hg : g.Spares) (delimiter : Delimiter) (opening : Token) :
    (groupContents delimiter opening g).Spares s := by
  have round : ∀ x s, (groupRound delimiter opening g x).Spares s := by
    intro x s
    apply Spares.ahead
    split
    · exact .fail
    rename_i left
    split
    · exact .bind (spares_token_of_left left) fun _ _ => .pure
    split
    · exact .fail
    · exact .bind (hg.tree s) fun _ _ => .pure
  exact .bind (.rounds round ()) fun _ _ => .pure

theorem spares_groupWithin (hi : ∀ g ∈ inner, g.Spares) : (groupWithin inner).Spares s := by
  apply Spares.ahead
  split
  · rename_i delimiter others here
    have left : ¬ atEnd (kindsAhead s.rest) = true := by simp [here, atEnd]
    apply Spares.bind (spares_token_of_left left)
    intro opening t
    exact spares_nested hi fun g hg => spares_groupContents hg delimiter opening
  · exact .unexpected

theorem spares_label? : label?.Spares s := by
  apply Spares.ahead
  split
  · rename_i here
    apply Spares.token_bind (s.clear_of_kindsAhead (by decide) (clear_of_atLabel here))
    intro name t clear
    exact .bind (.token clear) fun _ _ => .pure
  · exact .pure

theorem spares_argumentRounds (hg : g.Spares) : (argumentRounds g).Spares s := by
  refine .rounds (fun first s => ?_) none
  apply Spares.peek
  apply Spares.bind spares_label?
  intro label t
  apply Spares.bind (hg.value t)
  intro value u
  split
  · exact .fail_bind
  apply Spares.ahead
  split
  · rename_i others here
    exact .bind (spares_token_of_left (by simp [here, atEnd])) fun _ _ => .pure
  · rename_i others here
    exact .bind (spares_token_of_left (by simp [here, atEnd])) fun _ _ => .pure
  · exact .unexpected

/-- The opening parenthesis has been seen. -/
theorem spares_argumentList (hg : g.Spares) (opens : atKind (.opening .paren) (kindsAhead s.rest) = true) :
    (argumentList g).Spares s := by
  apply Spares.bind (spares_token_of_atKind opens nofun)
  intro opening t
  apply Spares.ahead
  split
  · rename_i closes
    exact .bind (spares_token_of_atKind closes nofun) fun _ _ => .pure
  · exact .bind (spares_argumentRounds hg) fun _ _ => .pure

theorem spares_annotationRest (hg : g.Spares) (sigil : Token) : (annotationRest sigil g).Spares s := by
  apply Spares.bind (spares_qualifiedName _)
  intro name t
  apply Spares.ahead
  split
  · rename_i opens
    exact .bind (spares_argumentList hg opens) fun _ _ => .pure
  · exact .pure

theorem spares_annotationWithin (hi : ∀ g ∈ inner, g.Spares) : (annotationWithin inner).Spares s := by
  apply Spares.bind (.expect rfl)
  intro sigil t
  exact spares_nested hi fun g hg => spares_annotationRest hg sigil

theorem spares_treeWithin (hi : ∀ g ∈ inner, g.Spares) : (treeWithin inner).Spares s := by
  apply Spares.ahead
  split
  · exact .bind (spares_groupWithin hi) fun _ _ => .pure
  split
  · exact .bind (spares_annotationWithin hi) fun _ _ => .pure
  split
  · exact .unexpected
  · rename_i inside
    have left : ¬ atEnd (kindsAhead s.rest) = true := fun h => inside (by rw [h, Bool.true_or])
    exact .bind (spares_token_of_left left) fun _ _ => .pure

/-! ## Element values -/

theorem spares_arrayContents (hg : g.Spares) (opening : Token) : (arrayContents opening g).Spares s := by
  have round : ∀ x s, (arrayRound g x).Spares s := by
    intro x s
    apply Spares.ahead
    split
    · rename_i closes
      exact .bind (spares_token_of_atKind closes nofun) fun _ _ => .pure
    apply Spares.bind (hg.value s)
    intro value t
    apply Spares.ahead
    split
    · rename_i others here
      exact .bind (spares_token_of_left (by simp [here, atEnd])) fun _ _ => .pure
    · exact .pure
    · exact .unexpected
  exact .bind (.rounds round ()) fun _ _ => .pure

theorem spares_expressionTrees (hi : ∀ g ∈ inner, g.Spares) : (expressionTrees inner).Spares s := by
  have round : ∀ x s, (expressionRound inner x).Spares s := by
    intro x s
    apply Spares.ahead
    split
    · exact .pure
    · exact .bind (spares_treeWithin hi) fun _ _ => .pure
  exact .bind (.rounds round ()) fun _ _ => .pure

theorem spares_valueWithin (hi : ∀ g ∈ inner, g.Spares) : (valueWithin inner).Spares s := by
  apply Spares.ahead
  split
  · exact .bind (spares_annotationWithin hi) fun _ _ => .pure
  · rename_i others here
    apply Spares.bind (spares_token_of_left (by simp [here, atEnd]))
    intro opening t
    exact spares_nested hi fun g hg => spares_arrayContents hg opening
  · apply Spares.bind (spares_expressionTrees hi)
    intro trees t
    split
    · exact .unexpected
    · exact .pure

end Parser

/-- The parsers of every level spare the end: by induction on the budget. -/
theorem Grammar.ofBudget_spares (n : Nat) : (Grammar.ofBudget n).Spares := by
  have within {inner : Option Grammar} (hi : ∀ g ∈ inner, g.Spares) : (Grammar.within inner).Spares :=
    ⟨fun _ => Parser.spares_treeWithin hi, fun _ => Parser.spares_groupWithin hi,
      fun _ => Parser.spares_annotationWithin hi, fun _ => Parser.spares_valueWithin hi⟩
  induction n with
  | zero => exact within nofun
  | succ n ih =>
    apply within
    rintro g ⟨⟩
    exact ih

namespace Parser

variable {s : ParserState} {g : Grammar}

/-! ## Modifiers and members -/

theorem spares_modifiers (hg : g.Spares) : (modifiers g).Spares s := by
  have round : ∀ x s, (modifierRound g x).Spares s := by
    intro x s
    apply Spares.ahead
    split
    · exact .bind (hg.annot s) fun _ _ => .pure
    split
    · rename_i word
      exact .bind (.token (s.clear_of_kindsAhead (by decide) (clear_of_any word rfl))) fun _ _ => .pure
    split
    · rename_i word
      exact .bind (.token (s.clear_of_kindsAhead (by decide) (clear_of_atSealed word))) fun _ _ => .pure
    split
    · rename_i words
      apply Spares.token_bind (s.clear_of_kindsAhead (by decide) (clear_of_atNonSealed words))
      intro non t clear
      apply Spares.token_bind clear
      intro hyphen u clear
      exact .bind (.token clear) fun _ _ => .pure
    · exact .pure
  exact .bind (.rounds round ()) fun _ _ => .pure

theorem spares_fieldOrMethod (hg : g.Spares) (modifiers : List Modifier) :
    (fieldOrMethod modifiers g).Spares s := by
  have round : ∀ head s, (memberRound g head).Spares s := by
    intro head s
    apply Spares.ahead
    split
    · rename_i here
      exact .bind (spares_token_of_atKind here nofun) fun _ _ => .pure
    split
    · exact .bind (hg.group s) fun _ _ => .pure
    split
    · exact .unexpected
    · exact .bind (hg.tree s) fun _ _ => .pure
  apply Spares.bind (.rounds round {})
  rintro ⟨trees, body, isField⟩ t
  cases body with
  | semicolon t => cases isField <;> exact .pure
  | block b => exact .pure

theorem spares_member (hg : g.Spares) {type : List Modifier → Parser TypeDeclaration}
    (ht : ∀ modifiers s, (type modifiers).Spares s) : (member g type).Spares s := by
  apply Spares.ahead
  split
  · rename_i here
    exact .bind (spares_token_of_atKind here nofun) fun _ _ => .pure
  apply Spares.bind (spares_modifiers hg)
  intro modifiers t
  apply Spares.ahead
  split
  · exact .bind (hg.group t) fun _ _ => .pure
  split
  · exact .bind (ht modifiers t) fun _ _ => .pure
  · exact spares_fieldOrMethod hg modifiers

theorem spares_constants? (hg : g.Spares) : (constants? g).Spares s := by
  have round : ∀ x s, (constantsRound g x).Spares s := by
    intro x s
    apply Spares.ahead
    split
    · rename_i here
      exact .bind (spares_token_of_atKind here nofun) fun _ _ => .pure
    split
    · exact .pure
    split
    · exact .unexpected
    · exact .bind (hg.tree s) fun _ _ => .pure
  apply Spares.bind (.rounds round ())
  rintro ⟨trees, semicolon⟩ t
  show (ite _ _ _ : Parser _).Spares t
  split
  · exact .pure
  · exact .pure

theorem spares_bodyContents (hg : g.Spares) {type : List Modifier → Parser TypeDeclaration}
    (ht : ∀ modifiers s, (type modifiers).Spares s) (kind : TypeKind) (opening : Token) :
    (bodyContents kind opening g type).Spares s := by
  have round : ∀ x s, (bodyRound opening g type x).Spares s := by
    intro x s
    apply Spares.ahead
    split
    · rename_i here
      exact .bind (spares_token_of_atKind here nofun) fun _ _ => .pure
    split
    · exact .fail
    · exact .bind (.orSkip (spares_member hg ht) halts_toNextMember) fun _ _ => .pure
  unfold bodyContents
  split
  · exact .bind (.orSkip (spares_constants? hg) halts_toNextMember) fun _ _ =>
      .bind (.rounds round ()) fun _ _ => .pure
  · exact .bind .pure fun _ _ => .bind (.rounds round ()) fun _ _ => .pure

/-! ## Types -/

theorem spares_introducer : introducer.Spares s := by
  apply Spares.ahead
  split
  · rename_i w others here
    have word : token.Spares s := spares_token_of_left (by simp [here, atEnd])
    split
    · exact .bind word fun _ _ => .pure
    split
    · exact .bind word fun _ _ => .pure
    split
    · exact .bind word fun _ _ => .pure
    · exact .unexpected
  · rename_i w others here
    split
    · have clear : s.Clear 2 := s.clear_of_kindsAhead (by decide) (by simp [here])
      apply Spares.token_bind clear
      intro sigil t clear
      exact .bind (.token clear) fun _ _ => .pure
    · exact .unexpected
  · rename_i name others here
    split
    · exact .bind (spares_token_of_left (by simp [here, atEnd])) fun _ _ => .pure
    · exact .unexpected
  · exact .unexpected

theorem spares_typeHeader (hg : g.Spares) : (typeHeader g).Spares s := by
  have round : ∀ x s, (headerRound g x).Spares s := by
    intro x s
    apply Spares.ahead
    split
    · exact .pure
    split
    · exact .unexpected
    · exact .bind (hg.tree s) fun _ _ => .pure
  exact .bind (.rounds round ()) fun _ _ => .pure

theorem spares_typeWith (hg : g.Spares)
    {body? : Option (TypeKind → Token → Parser (List Member × Token))}
    (hb : ∀ body ∈ body?, ∀ kind opening s, (body kind opening).Spares s) (modifiers : List Modifier) :
    (typeWith g body? modifiers).Spares s := by
  apply Spares.bind spares_introducer
  rintro ⟨kind, introducer⟩ t
  apply Spares.bind (.expect rfl)
  intro name u
  apply Spares.bind (spares_typeHeader hg)
  intro header v
  apply Spares.bind (.expect rfl)
  intro opening w
  cases body? with
  | none => exact .fail_bind
  | some body => exact .bind (hb body rfl kind opening w) fun _ _ => .pure

/-- By induction on the budget: the body of a type draws on a smaller one. -/
theorem spares_typeOfBudget (n : Nat) (modifiers : List Modifier) : (typeOfBudget n modifiers).Spares s := by
  induction n generalizing modifiers s with
  | zero =>
    refine spares_typeWith (Grammar.ofBudget_spares 0) ?_ modifiers
    rintro body ⟨⟩
  | succ n ih =>
    refine spares_typeWith (Grammar.ofBudget_spares (n + 1)) ?_ modifiers
    rintro body ⟨⟩ kind opening t
    exact spares_bodyContents (Grammar.ofBudget_spares n) (fun modifiers _ => ih modifiers) kind opening

/-! ## Packages and imports -/

/-- The modifiers of a package have been read already. -/
theorem rest_packageAnnotations (modifiers : List Modifier) (s : ParserState) :
    ((packageAnnotations modifiers).run s).2.rest = s.rest := by
  induction modifiers generalizing s with
  | nil => rfl
  | cons m modifiers ih =>
    cases m with
    | annot a =>
      have others := ih s
      rw [packageAnnotations, run_bind]
      rcases run : (packageAnnotations modifiers).run s with ⟨_ | annotations, t⟩ <;> rwa [run] at others
    | keyword t => exact ih _
    | contextual words => exact ih _

/-- The word `package` has been seen. -/
theorem spares_packageDeclaration (modifiers : List Modifier)
    (here : atKind (.keyword .packageWord) (kindsAhead s.rest) = true) :
    (packageDeclaration modifiers).Spares s := by
  have still := rest_packageAnnotations modifiers s
  apply Spares.bind_of_run (congrArg fromEnd still)
  intro annotations t run
  rw [run] at still
  rw [← show t.rest = s.rest from still] at here
  apply Spares.bind (spares_token_of_atKind here nofun)
  intro word u
  apply Spares.bind (spares_qualifiedName _)
  intro name v
  exact .bind (.expect rfl) fun _ _ => .pure

/-- The word `import` has been seen. -/
theorem spares_importDeclaration (here : atKind (.keyword .importWord) (kindsAhead s.rest) = true) :
    importDeclaration.Spares s := by
  have static {s : ParserState} : staticWord?.Spares s := by
    apply Spares.ahead
    split
    · rename_i word
      exact .bind (spares_token_of_atKind word nofun) fun _ _ => .pure
    · exact .pure
  have wildcard {s : ParserState} : wildcard?.Spares s := by
    apply Spares.ahead
    split
    · rename_i star
      apply Spares.token_bind (s.clear_of_kindsAhead (by decide) (clear_of_atWildcard star))
      intro dot t clear
      exact .bind (.token clear) fun _ _ => .pure
    · exact .pure
  apply Spares.bind (spares_token_of_atKind here nofun)
  intro word t
  apply Spares.bind static
  intro static? u
  apply Spares.bind (spares_qualifiedName _)
  intro name v
  apply Spares.bind wildcard
  intro wildcard? w
  exact .bind (.expect rfl) fun _ _ => .pure

theorem spares_importPart (pending : List Modifier) : (importPart pending).Spares s := by
  have round : ∀ x s, (importRound x).Spares s := by
    intro x s
    apply Spares.ahead
    split
    · rename_i here
      exact .bind (.orSkip (spares_importDeclaration here) halts_pastSemicolon) fun _ _ => .pure
    · exact .pure
  unfold importPart
  split
  · exact .bind (.rounds round ()) fun _ _ => .pure
  · exact .pure

/-! ## Files -/

theorem spares_leading : ((modifiers (.ofBudget maxNesting)).orSkip toNextType).Spares s :=
  .orSkip (spares_modifiers (Grammar.ofBudget_spares maxNesting)) halts_toNextType

theorem spares_topLevelType (modifiers : List Modifier) : (topLevelType modifiers).Spares s :=
  .bind (.orSkip (spares_typeOfBudget maxNesting modifiers) halts_toNextType) fun _ _ => .pure

theorem spares_topLevels (pending : List Modifier) : (topLevels pending).Spares s := by
  have declaration {s : ParserState} : topLevelDeclaration.Spares s := by
    apply Spares.bind spares_leading
    intro leading? t
    cases leading? with
    | none => exact .pure
    | some modifiers => exact spares_topLevelType modifiers
  have round : ∀ pending s, (topLevelRound pending).Spares s := by
    intro pending s
    apply Spares.ahead
    split
    · exact .pure
    rename_i left
    split
    · exact .bind (spares_topLevelType pending) fun _ _ => .pure
    split
    · exact .bind (spares_token_of_left left) fun _ _ => .pure
    · exact .bind declaration fun _ _ => .pure
  exact .bind (.rounds round pending) fun _ _ => .pure

theorem spares_packagePart (leading : List Modifier) : (packagePart leading).Spares s := by
  apply Spares.ahead
  split
  · rename_i here
    exact .bind (.orSkip (spares_packageDeclaration leading here) halts_pastSemicolon) fun _ _ => .pure
  · exact .pure

namespace FileRun

/-- What is left when the types have come to an end begins with the first end token of all. -/
theorem rest_afterTypes (r : FileRun s) : r.afterTypes.rest = fromEnd s.rest := by
  have leading : fromEnd r.afterLeading.rest = fromEnd s.rest := by
    simpa only [Spares, r.readsLeading] using spares_leading (s := s)
  have package : fromEnd r.afterPackage.rest = fromEnd r.afterLeading.rest := by
    simpa only [Spares, r.readsPackage] using spares_packagePart (r.leading?.getD []) (s := r.afterLeading)
  have imports : fromEnd r.afterImports.rest = fromEnd r.afterPackage.rest := by
    simpa only [Spares, r.readsImports] using spares_importPart r.pending (s := r.afterPackage)
  have types : fromEnd r.afterTypes.rest = fromEnd r.afterImports.rest := by
    simpa only [Spares, r.readsTypes] using spares_topLevels r.pending (s := r.afterImports)
  have stopped : fromEnd r.afterTypes.rest = r.afterTypes.rest := by
    cases left : r.afterTypes.rest with
    | nil => rfl
    | cons t ts =>
      have ends : t.kind = .eof := by simpa [left, atEnd, kindsAhead] using r.stops
      exact List.dropWhile_cons_of_neg (by simp [ends])
  calc
    r.afterTypes.rest = fromEnd r.afterTypes.rest := stopped.symm
    _ = fromEnd s.rest := types.trans (imports.trans (package.trans leading))

/-- Everything before the first end token has been read then. -/
theorem rest_eq (r : FileRun s) :
    s.rest = s.rest.takeWhile (·.kind ≠ .eof) ++ r.afterTypes.rest := by
  rw [r.rest_afterTypes]
  exact List.takeWhile_append_dropWhile.symm

end FileRun

end Parser

end DeferFetch
