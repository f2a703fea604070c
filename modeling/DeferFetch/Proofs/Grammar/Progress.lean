/-
# DeferFetch.Proofs.Grammar.Progress — every token is read, whatever the tokens are.

A repetition ends as a failure when a round would go on without having read a token. Here it is shown
that no round of the grammar ever does (`LoopsProgress`): what a round goes on from has been read past
a token, be it by a parser that cannot succeed on nothing or by the skipping after one that failed.
So the repetitions are those without that guard (`Progressing.repeats`), the loops over imports and
over top-level declarations end at the end of the text only, and a file is read to its last token.
-/
import DeferFetch.Proofs.Grammar.Takes

namespace DeferFetch

/-- Reading only ever moves forward. -/
theorem Follows.position_le {s t : ParserState} (h : Follows s t) : s.position ≤ t.position := by
  obtain ⟨⟨consumed, -, position, -⟩, -⟩ := h
  omega

/-- Where the position has not moved, nothing has been read. -/
theorem Follows.rest_eq {s t : ParserState} (h : Follows s t) (still : ¬ s.position < t.position) :
    t.rest = s.rest := by
  obtain ⟨⟨consumed, rest, position, -⟩, -⟩ := h
  have none_read : consumed = [] := List.length_eq_zero_iff.1 (by omega)
  rw [rest, none_read, List.nil_append]

namespace Parser

variable {α β σ : Type} {s : ParserState}

/-! ## Results that cost a token -/

/-- **`p.Advances good s`** — from the state `s`, a good result comes only with a token read. -/
def Advances (p : Parser α) (good : α → Prop) (s : ParserState) : Prop :=
  ∀ ⦃a t⦄, p.run s = (some a, t) → good a → s.position < t.position

/-- From the state `s`, any result at all comes only with a token read. -/
abbrev AlwaysAdvances (p : Parser α) (s : ParserState) : Prop := p.Advances (fun _ => True) s

section Advances

variable {p : Parser α} {next : α → Parser β} {good : α → Prop} {fine : β → Prop}

theorem AlwaysAdvances.advances (h : p.AlwaysAdvances s) : p.Advances good s :=
  fun _ _ run _ => h run trivial

theorem advances_pure {a : α} (bad : ¬ good a) : (pure a : Parser α).Advances good s := by
  intro b t run hb
  rw [run_pure] at run
  cases run
  exact absurd hb bad

theorem advances_fail {e : SyntaxError} : (fail e : Parser α).Advances good s :=
  fun _ _ run => nomatch run

theorem advances_unexpected {e : Expectation} : (unexpected e : Parser α).Advances good s :=
  advances_fail

theorem advances_ahead {next : List TokenKind → Parser β}
    (h : (next (kindsAhead s.rest)).Advances fine s) : (ahead >>= next).Advances fine s := h

theorem advances_peek {next : Option Token → Parser β}
    (h : (next s.rest.head?).Advances fine s) : (peek >>= next).Advances fine s := h

theorem advances_token : token.AlwaysAdvances s := by
  intro a t run _
  rcases s with ⟨_ | ⟨u, us⟩, position, diagnostics⟩
  · cases run
  · cases run
    simp [ParserState.consume]

/-- Enough that the second parser reads a token where the first one has read nothing. -/
theorem advances_bind (h : ∀ a t, p.run s = (some a, t) → t.rest = s.rest →
    (next a).Advances fine t) : (p >>= next).Advances fine s := by
  intro b u run hb
  obtain ⟨a, t, first, second⟩ := run_bind_eq_some.1 run
  have before : Follows s t := by simpa only [first] using p.follows s
  have after : Follows t u := by simpa only [second] using (next a).follows t
  -- if the first parser has read nothing, the second one starts from the same tokens
  by_cases moved : s.position < t.position
  · exact Nat.lt_of_lt_of_le moved after.position_le
  · exact Nat.lt_of_le_of_lt before.position_le (h a t first (before.rest_eq moved) second hb)

/-- Enough that the first parser reads a token. -/
theorem AlwaysAdvances.bind (h : p.AlwaysAdvances s) : (p >>= next).Advances fine s := by
  intro b u run _
  obtain ⟨a, t, first, second⟩ := run_bind_eq_some.1 run
  have after : Follows t u := by simpa only [second] using (next a).follows t
  exact Nat.lt_of_lt_of_le (h first trivial) after.position_le

theorem advances_expect {fits : TokenKind → Bool} {e : Expectation} :
    (expect fits e).AlwaysAdvances s := by
  refine advances_ahead ?_
  split
  · exact advances_token
  · exact advances_unexpected

/-- What is skipped in place of nothing counts as well. -/
theorem advances_orSkip {count : List Token → Nat} {good : Option α → Prop}
    (h : p.Advances (fun a => good (some a)) s) (left : s.rest ≠ []) (some_skipped : 0 < count s.rest) :
    (p.orSkip count).Advances good s := by
  intro r u run hr
  unfold orSkip at run
  rcases first : p.run s with ⟨_ | a, t⟩
  · have before : Follows s t := by simpa only [first] using p.follows s
    simp only [first, Prod.mk.injEq, Option.some.injEq] at run
    obtain ⟨-, rfl⟩ := run
    by_cases moved : s.position < t.position
    · exact Nat.lt_of_lt_of_le moved (Follows.consume t _).position_le
    · have skipped : 0 < (t.rest.take (count t.rest)).length := by
        rw [before.rest_eq moved, List.length_take]
        exact Nat.lt_min.2 ⟨some_skipped, List.length_pos_iff.2 left⟩
      exact Nat.lt_of_le_of_lt before.position_le (Nat.lt_add_of_pos_right skipped)
  · simp only [first, Prod.mk.injEq, Option.some.injEq] at run
    obtain ⟨rfl, rfl⟩ := run
    exact h first hr

end Advances

/-! ## Parsers that do not fail -/

/-- **`p.Succeeds s`** — from the state `s` there is a result. -/
def Succeeds (p : Parser α) (s : ParserState) : Prop := ∃ a t, p.run s = (some a, t)

theorem succeeds_pure {a : α} : (pure a : Parser α).Succeeds s := ⟨a, s, rfl⟩

theorem succeeds_ahead {next : List TokenKind → Parser β}
    (h : (next (kindsAhead s.rest)).Succeeds s) : (ahead >>= next).Succeeds s := h

theorem succeeds_token (left : s.rest ≠ []) : token.Succeeds s := by
  rcases s with ⟨_ | ⟨t, ts⟩, position, diagnostics⟩
  · exact absurd rfl left
  · exact ⟨t, _, rfl⟩

theorem succeeds_orSkip {p : Parser α} {count : List Token → Nat} :
    (p.orSkip count).Succeeds s := by
  unfold orSkip
  rcases first : p.run s with ⟨_ | a, t⟩
  · exact ⟨none, t.consume (count t.rest), by simp only [first]⟩
  · exact ⟨some a, t, by simp only [first]⟩

theorem Succeeds.bind {p : Parser α} {next : α → Parser β} (h : p.Succeeds s)
    (h' : ∀ a t, (next a).Succeeds t) : (p >>= next).Succeeds s := by
  obtain ⟨a, t, first⟩ := h
  obtain ⟨b, u, second⟩ := h' a t
  exact ⟨b, u, run_bind_eq_some.2 ⟨a, t, first, second⟩⟩

/-! ## Repetitions -/

/-- A step that does not stop. -/
def Step.goesOn : Step α β σ → Prop
  | .again _ _ => True
  | .stop _ => False

variable {round : σ → Parser (Step α β σ)} {a : σ}

/-- **`Progressing round`** — a round that goes on has read a token. -/
def Progressing (round : σ → Parser (Step α β σ)) : Prop :=
  ∀ a s, (round a).Advances Step.goesOn s

/-- **`Repeats round a s outcome`** — what repeating `round` comes to, without regard to how much the
rounds read. A repetition that would go on for ever comes to nothing. -/
inductive Repeats (round : σ → Parser (Step α β σ)) :
    σ → ParserState → Option (List α × β) × ParserState → Prop
  | fail {a s t} (run : (round a).run s = (none, t)) : Repeats round a s (none, t)
  | stop {a s b t} (run : (round a).run s = (some (.stop b), t)) :
    Repeats round a s (some ([], b), t)
  | again {a s item next t result u} (run : (round a).run s = (some (.again item next), t))
    (others : Repeats round next t (result, u)) :
    Repeats round a s (result.map fun (items, b) => (item.toList ++ items, b), u)

/-- A repetition whose rounds make progress is the plain one: it comes to an end, and no round is cut
off. -/
theorem Progressing.repeats (h : Progressing round) (a : σ) (s : ParserState) :
    Repeats round a s ((rounds round a).run s) := by
  show Repeats round a s (runRounds round a s)
  fun_induction runRounds round a s with
  | case1 a s t run => exact .fail run
  | case2 a s b t run => exact .stop run
  | case3 a s item next t run progress follows shorter result u others ih =>
    rw [others] at ih
    exact .again run ih
  | case4 a s item next t run stuck => exact absurd (h a s run trivial) stuck

/-- A round that goes on has read a token anyway, so only a first round that stops matters. -/
theorem advances_rounds {good : List α × β → Prop}
    (h : ∀ b t, (round a).run s = (some (.stop b), t) → good ([], b) → s.position < t.position) :
    (rounds round a).Advances good s := by
  intro r u run hr
  obtain ⟨b, rfl, stopped⟩ | ⟨item, next, t, items, b, rfl, -, progress, others⟩ :=
    run_rounds_eq_some.1 run
  · exact h b _ stopped hr
  · have after : Follows t u := by simpa only [others] using (rounds round next).follows t
    exact Nat.lt_of_lt_of_le progress after.position_le

/-- Rounds that make progress and never fail repeat until one of them stops. -/
theorem rounds_stop (h : Progressing round) (total : ∀ a s, (round a).Succeeds s) (a : σ)
    (s : ParserState) : ∃ items b t, (rounds round a).run s = (some (items, b), t) ∧
      ∃ a' s', (round a').run s' = (some (.stop b), t) := by
  have repeats := h.repeats a s
  generalize (rounds round a).run s = outcome at repeats
  induction repeats with
  | @fail a s t run =>
    obtain ⟨b, u, run'⟩ := total a s
    rw [run] at run'
    cases run'
  | @stop a s b t run => exact ⟨[], b, t, rfl, a, s, run⟩
  | @again a s item next t result u run others ih =>
    obtain ⟨items, b, t', rfl_outcome, stopped⟩ := ih
    cases rfl_outcome
    exact ⟨item.toList ++ items, b, u, rfl, stopped⟩

/-! ## The parsers of the grammar -/

section Grammar

variable (inner : Option Grammar)

theorem advances_groupWithin : (groupWithin inner).AlwaysAdvances s := by
  refine advances_ahead ?_
  split
  · exact AlwaysAdvances.bind advances_token
  · exact advances_unexpected

theorem advances_annotationWithin : (annotationWithin inner).AlwaysAdvances s :=
  AlwaysAdvances.bind advances_expect

theorem advances_treeWithin : (treeWithin inner).AlwaysAdvances s := by
  refine advances_ahead ?_
  split
  · exact AlwaysAdvances.bind (advances_groupWithin inner)
  split
  · exact AlwaysAdvances.bind (advances_annotationWithin inner)
  split
  · exact advances_unexpected
  · exact AlwaysAdvances.bind advances_token

theorem advances_expressionTrees : (expressionTrees inner).Advances (· ≠ []) s := by
  have items : (rounds (expressionRound inner) ()).Advances (fun r => r.1 ≠ []) s :=
    advances_rounds fun _ _ _ nonempty => absurd rfl nonempty
  intro trees t run nonempty
  obtain ⟨r, t', first, last⟩ := run_bind_eq_some.1 run
  cases last
  exact items first nonempty

theorem advances_valueWithin : (valueWithin inner).AlwaysAdvances s := by
  refine advances_ahead ?_
  split
  · exact AlwaysAdvances.bind (advances_annotationWithin inner)
  · exact AlwaysAdvances.bind advances_token
  · intro value u run _
    obtain ⟨trees, t, first, last⟩ := run_bind_eq_some.1 run
    split at last
    · cases last
    · rename_i nonempty
      cases last
      exact advances_expressionTrees inner first fun h => nonempty (by rw [h]; rfl)

end Grammar

theorem advances_tree (n : Nat) : (Grammar.ofBudget n).tree.AlwaysAdvances s := by
  cases n <;> exact advances_treeWithin _

theorem advances_group (n : Nat) : (Grammar.ofBudget n).group.AlwaysAdvances s := by
  cases n <;> exact advances_groupWithin _

theorem advances_annot (n : Nat) : (Grammar.ofBudget n).annot.AlwaysAdvances s := by
  cases n <;> exact advances_annotationWithin _

theorem advances_value (n : Nat) : (Grammar.ofBudget n).value.AlwaysAdvances s := by
  cases n <;> exact advances_valueWithin _

theorem advances_introducer : introducer.AlwaysAdvances s := by
  refine advances_ahead ?_
  split
  · split
    · exact AlwaysAdvances.bind advances_token
    split
    · exact AlwaysAdvances.bind advances_token
    split
    · exact AlwaysAdvances.bind advances_token
    · exact advances_unexpected
  · split
    · exact AlwaysAdvances.bind advances_token
    · exact advances_unexpected
  · split
    · exact AlwaysAdvances.bind advances_token
    · exact advances_unexpected
  · exact advances_unexpected

theorem advances_typeOfBudget (n : Nat) (modifiers : List Modifier) :
    (typeOfBudget n modifiers).AlwaysAdvances s := by
  cases n <;> exact AlwaysAdvances.bind advances_introducer

/-- A member does not end without the semicolon or the body that ends it. -/
theorem advances_memberRound (n : Nat) (head : MemberHead) :
    (memberRound (.ofBudget n) head).AlwaysAdvances s := by
  refine advances_ahead ?_
  split
  · exact AlwaysAdvances.bind advances_token
  split
  · exact AlwaysAdvances.bind (advances_group n)
  split
  · exact advances_unexpected
  · exact AlwaysAdvances.bind (advances_tree n)

theorem advances_member (n : Nat) : (member (.ofBudget n) (typeOfBudget n)).AlwaysAdvances s := by
  refine advances_ahead ?_
  split
  · exact AlwaysAdvances.bind advances_token
  refine advances_bind fun modifiers t _ _ => advances_ahead ?_
  split
  · exact AlwaysAdvances.bind (advances_group n)
  split
  · exact AlwaysAdvances.bind (advances_typeOfBudget n modifiers)
  · exact AlwaysAdvances.bind (advances_rounds fun _ _ run _ => advances_memberRound n _ run trivial)

theorem advances_importDeclaration : importDeclaration.AlwaysAdvances s :=
  AlwaysAdvances.bind advances_token

/-! ## Skipping -/

theorem exists_cons_of_atEnd {ts : List Token} (h : ¬ atEnd (kindsAhead ts) = true) :
    ∃ t us, ts = t :: us ∧ t.kind ≠ .eof := by
  cases ts with
  | nil => exact absurd rfl h
  | cons t us => exact ⟨t, us, rfl, by simpa [atEnd, kindsAhead] using h⟩

/-- Short of what it stops before, skipping takes a token. -/
theorem skipLength_pos {before : List TokenKind → Bool} {after : TokenKind → Bool} {ts : List Token}
    (left : ¬ atEnd (kindsAhead ts) = true) (here : ¬ before (kindsAhead ts) = true) :
    0 < skipLength before after 0 ts := by
  obtain ⟨t, us, rfl, ht⟩ := exists_cons_of_atEnd left
  rw [skipLength, if_neg (by simp [ht, here])]
  split <;> omega

theorem toNextType_pos {ts : List Token} (left : ¬ atEnd (kindsAhead ts) = true) :
    0 < toNextType ts := by
  obtain ⟨t, us, rfl, ht⟩ := exists_cons_of_atEnd left
  rw [toNextType, if_neg ht]
  omega

theorem ne_nil_of_atEnd {ts : List Token} (left : ¬ atEnd (kindsAhead ts) = true) : ts ≠ [] := by
  rintro rfl
  exact left rfl

theorem advances_topLevelType {modifiers : List Modifier} {good : Option TopLevel → Prop}
    (left : ¬ atEnd (kindsAhead s.rest) = true) : (topLevelType modifiers).Advances good s :=
  AlwaysAdvances.bind (advances_orSkip (advances_typeOfBudget maxNesting modifiers)
    (ne_nil_of_atEnd left) (toNextType_pos left))

/-- If the modifiers can be read and there are none, the type or the skipping takes a token; if they
cannot be read, the skipping does. -/
theorem advances_topLevelDeclaration (left : ¬ atEnd (kindsAhead s.rest) = true) :
    topLevelDeclaration.AlwaysAdvances s := by
  have skipping : ((modifiers (.ofBudget maxNesting)).orSkip toNextType).Advances (· = none) s :=
    advances_orSkip (fun _ _ _ h => nomatch h) (ne_nil_of_atEnd left) (toNextType_pos left)
  intro r u run _
  obtain ⟨found, t, first, second⟩ := run_bind_eq_some.1 run
  have before : Follows s t := by
    simpa only [first] using ((modifiers (.ofBudget maxNesting)).orSkip toNextType).follows s
  cases found with
  | none =>
    cases second
    exact skipping first rfl
  | some ms =>
    have after : Follows t u := by simpa only [second] using (topLevelType ms).follows t
    by_cases moved : s.position < t.position
    · exact Nat.lt_of_lt_of_le moved after.position_le
    · have still : ¬ atEnd (kindsAhead t.rest) = true := by rwa [before.rest_eq moved]
      have type : (topLevelType ms).AlwaysAdvances t := advances_topLevelType still
      exact Nat.lt_of_le_of_lt before.position_le (type second trivial)

/-! ## The rounds of the grammar -/

theorem progressing_importRound : Progressing importRound := by
  rintro ⟨⟩ s
  refine advances_ahead ?_
  split
  · rename_i here
    have head : (kindsAhead s.rest).head? = some (.keyword .importWord) := by simpa [atKind] using here
    obtain ⟨ks, hk⟩ := List.head?_eq_some_iff.1 head
    have left : ¬ atEnd (kindsAhead s.rest) = true := by simp [hk, atEnd]
    have no_type : ¬ atTypeWord (kindsAhead s.rest) = true := by
      rw [hk, atTypeWord]
      decide
    exact AlwaysAdvances.bind (advances_orSkip advances_importDeclaration (ne_nil_of_atEnd left)
      (skipLength_pos left no_type))
  · exact advances_pure id

theorem progressing_topLevelRound : Progressing topLevelRound := by
  intro pending s
  refine advances_ahead ?_
  split
  · exact advances_pure id
  rename_i left
  split
  · exact AlwaysAdvances.bind (advances_topLevelType left)
  split
  · exact AlwaysAdvances.bind advances_token
  · exact AlwaysAdvances.bind (advances_topLevelDeclaration left)

theorem progressing_bodyRound (opening : Token) (n : Nat) :
    Progressing (bodyRound opening (.ofBudget n) (typeOfBudget n)) := by
  rintro ⟨⟩ s
  refine advances_ahead ?_
  split
  · exact AlwaysAdvances.bind advances_token
  rename_i no_brace
  split
  · exact advances_fail
  rename_i left
  exact AlwaysAdvances.bind (advances_orSkip (advances_member n) (ne_nil_of_atEnd left)
    (skipLength_pos left no_brace))

/-- **`LoopsProgress`** — of every repetition in the grammar, at every depth of nesting, each round
that goes on has read a token. -/
structure LoopsProgress : Prop where
  segments : Progressing segmentRound
  groups : ∀ delimiter opening n, Progressing (groupRound delimiter opening (.ofBudget n))
  arguments : ∀ n, Progressing (argumentRound (.ofBudget n))
  arrays : ∀ n, Progressing (arrayRound (.ofBudget n))
  expressions : ∀ inner, Progressing (expressionRound inner)
  modifiers : ∀ n, Progressing (modifierRound (.ofBudget n))
  memberTrees : ∀ n, Progressing (memberRound (.ofBudget n))
  constants : ∀ n, Progressing (constantsRound (.ofBudget n))
  headers : ∀ n, Progressing (headerRound (.ofBudget n))
  members : ∀ opening n, Progressing (bodyRound opening (.ofBudget n) (typeOfBudget n))
  imports : Progressing importRound
  topLevels : Progressing topLevelRound

theorem loopsProgress : LoopsProgress where
  segments := by
    rintro ⟨⟩ s
    refine advances_ahead ?_
    split
    · exact AlwaysAdvances.bind advances_token
    · exact advances_pure id
  groups delimiter opening n := by
    rintro ⟨⟩ s
    refine advances_ahead ?_
    split
    · exact advances_fail
    split
    · exact AlwaysAdvances.bind advances_token
    split
    · exact advances_fail
    · exact AlwaysAdvances.bind (advances_tree n)
  arguments n := by
    intro first s
    refine advances_peek (advances_bind fun label t _ _ => ?_)
    exact AlwaysAdvances.bind (advances_value n)
  arrays n := by
    rintro ⟨⟩ s
    refine advances_ahead ?_
    split
    · exact AlwaysAdvances.bind advances_token
    · exact AlwaysAdvances.bind (advances_value n)
  expressions inner := by
    rintro ⟨⟩ s
    refine advances_ahead ?_
    split
    · exact advances_pure id
    · exact AlwaysAdvances.bind (advances_treeWithin inner)
  modifiers n := by
    rintro ⟨⟩ s
    refine advances_ahead ?_
    split
    · exact AlwaysAdvances.bind (advances_annot n)
    split
    · exact AlwaysAdvances.bind advances_token
    split
    · exact AlwaysAdvances.bind advances_token
    split
    · exact AlwaysAdvances.bind advances_token
    · exact advances_pure id
  memberTrees n := fun head _ => (advances_memberRound n head).advances
  constants n := by
    rintro ⟨⟩ s
    refine advances_ahead ?_
    split
    · exact AlwaysAdvances.bind advances_token
    split
    · exact advances_pure id
    split
    · exact advances_unexpected
    · exact AlwaysAdvances.bind (advances_tree n)
  headers n := by
    rintro ⟨⟩ s
    refine advances_ahead ?_
    split
    · exact advances_pure id
    split
    · exact advances_unexpected
    · exact AlwaysAdvances.bind (advances_tree n)
  members := progressing_bodyRound
  imports := progressing_importRound
  topLevels := progressing_topLevelRound

/-! ## Whole files -/

theorem succeeds_packagePart (leading : List Modifier) : (packagePart leading).Succeeds s := by
  refine succeeds_ahead ?_
  split
  · exact succeeds_orSkip.bind fun _ _ => succeeds_pure
  · exact succeeds_pure

theorem succeeds_importRound : (importRound ()).Succeeds s := by
  refine succeeds_ahead ?_
  split
  · exact succeeds_orSkip.bind fun _ _ => succeeds_pure
  · exact succeeds_pure

theorem succeeds_importPart (pending : List Modifier) : (importPart pending).Succeeds s := by
  unfold importPart
  split
  · obtain ⟨items, _, t, run, -⟩ :=
      rounds_stop progressing_importRound (fun _ _ => succeeds_importRound) () s
    exact Succeeds.bind ⟨(items, ()), t, run⟩ fun _ _ => succeeds_pure
  · exact succeeds_pure

theorem succeeds_topLevelRound (pending : List Modifier) : (topLevelRound pending).Succeeds s := by
  have type (modifiers : List Modifier) (t : ParserState) : (topLevelType modifiers).Succeeds t :=
    succeeds_orSkip.bind fun _ _ => succeeds_pure
  refine succeeds_ahead ?_
  split
  · exact succeeds_pure
  rename_i left
  split
  · exact (type pending s).bind fun _ _ => succeeds_pure
  split
  · exact (succeeds_token (ne_nil_of_atEnd left)).bind fun _ _ => succeeds_pure
  · refine Succeeds.bind (succeeds_orSkip.bind fun found t => ?_) fun _ _ => succeeds_pure
    cases found with
    | none => exact succeeds_pure
    | some ms => exact type ms t

/-- What ends in going on does not stop. -/
theorem run_ne_stop {γ : Type} {p : Parser γ} {item : γ → Option α} {next : γ → σ} {b : β}
    {t : ParserState} :
    (p >>= fun c => pure (.again (item c) (next c)) : Parser (Step α β σ)).run s ≠
      (some (.stop b), t) := by
  intro run
  obtain ⟨_, _, -, last⟩ := run_bind_eq_some.1 run
  cases last

/-- A round over the top-level declarations stops at the end of the text only. -/
theorem atEnd_of_topLevelRound {pending : List Modifier} {t : ParserState} {b : Unit}
    (run : (topLevelRound pending).run s = (some (.stop b), t)) :
    atEnd (kindsAhead t.rest) = true := by
  change (ite _ _ _ : Parser _).run s = _ at run
  split at run
  · rename_i here
    cases run
    exact here
  split at run
  · exact absurd run run_ne_stop
  split at run
  · exact absurd run run_ne_stop
  · exact absurd run run_ne_stop

theorem topLevels_atEnd (pending : List Modifier) (s : ParserState) :
    ∃ types t, (topLevels pending).run s = (some types, t) ∧ atEnd (kindsAhead t.rest) = true := by
  obtain ⟨types, _, t, run, pending', s', stopped⟩ :=
    rounds_stop progressing_topLevelRound (fun _ _ => succeeds_topLevelRound _) pending s
  exact ⟨types, t, run_bind_eq_some.2 ⟨_, t, run, rfl⟩, atEnd_of_topLevelRound stopped⟩

/-- The token that ends a file is the next one, or it is made up where none is left. -/
theorem endToken_cases (s : ParserState) : ∃ e t, endToken.run s = (some e, t) ∧
    (s.rest = e :: t.rest ∨ s.rest = [] ∧ t = s ∧ e = .synthetic .eof) := by
  rcases s with ⟨_ | ⟨e, others⟩, position, diagnostics⟩
  · exact ⟨_, _, rfl, .inr ⟨rfl, rfl, rfl⟩⟩
  · exact ⟨e, _, rfl, .inl rfl⟩

/-- **`FileRun s`** — what the parser of files does from the state `s`, part by part. -/
structure FileRun (s : ParserState) where
  leading? : Option (List Modifier)
  package? : Option PackageDeclaration
  /-- The modifiers that are left for the first type. -/
  pending : List Modifier
  imports : List ImportDeclaration
  types : List TopLevel
  eof : Token
  afterLeading : ParserState
  afterPackage : ParserState
  afterImports : ParserState
  afterTypes : ParserState
  final : ParserState
  readsLeading :
    ((modifiers (.ofBudget maxNesting)).orSkip toNextType).run s = (some leading?, afterLeading)
  readsPackage :
    (packagePart (leading?.getD [])).run afterLeading = (some (package?, pending), afterPackage)
  readsImports : (importPart pending).run afterPackage = (some imports, afterImports)
  readsTypes : (topLevels pending).run afterImports = (some types, afterTypes)
  /-- The types come to an end where the text does. -/
  stops : atEnd (kindsAhead afterTypes.rest) = true
  readsEnd : endToken.run afterTypes = (some eof, final)
  /-- The end is what is read after the types, or it is made up where no token is left. -/
  ends : afterTypes.rest = eof :: final.rest ∨
    afterTypes.rest = [] ∧ final = afterTypes ∧ eof = .synthetic .eof

/-- No part of a file can fail. -/
theorem exists_fileRun (s : ParserState) : Nonempty (FileRun s) := by
  obtain ⟨leading?, s₁, h₁⟩ :
    ((modifiers (.ofBudget maxNesting)).orSkip toNextType).Succeeds s := succeeds_orSkip
  obtain ⟨⟨package?, pending⟩, s₂, h₂⟩ := succeeds_packagePart (leading?.getD []) (s := s₁)
  obtain ⟨imports, s₃, h₃⟩ := succeeds_importPart pending (s := s₂)
  obtain ⟨types, s₄, h₄, stops⟩ := topLevels_atEnd pending s₃
  obtain ⟨eof, s₅, h₅, ends⟩ := endToken_cases s₄
  exact ⟨⟨leading?, package?, pending, imports, types, eof, s₁, s₂, s₃, s₄, s₅, h₁, h₂, h₃, h₄, stops,
    h₅, ends⟩⟩

namespace FileRun

/-- The tree that is made of the parts. -/
def unit (r : FileRun s) : CompilationUnit := ⟨r.package?, r.imports, r.types, r.eof⟩

theorem run_eq (r : FileRun s) : compilationUnit.run s = (some r.unit, r.final) := by
  simp only [compilationUnit, run_bind, r.readsLeading, r.readsPackage, r.readsImports, r.readsTypes,
    r.readsEnd]
  rfl

/-- What has been read before the end. -/
theorem follows (r : FileRun s) : Follows s r.afterTypes := by
  have following {γ : Type} {p : Parser γ} {t u : ParserState} {result : Option γ}
      (run : p.run t = (result, u)) : Follows t u := by simpa only [run] using p.follows t
  exact (((following r.readsLeading).trans (following r.readsPackage)).trans
    (following r.readsImports)).trans (following r.readsTypes)

/-- If there is an end token in the last place only, nothing is left after it. -/
theorem rest_final (r : FileRun s) (last : ∀ e ∈ s.rest.dropLast, e.kind ≠ .eof) : r.final.rest = [] := by
  obtain next | ⟨none_left, same, -⟩ := r.ends
  · obtain ⟨⟨read, split, -⟩, -⟩ := r.follows
    have ends : r.eof.kind = .eof := by simpa [next, atEnd, kindsAhead] using r.stops
    cases others : r.final.rest with
    | nil => rfl
    | cons t ts =>
      refine absurd ends (last r.eof ?_)
      rw [split, next, others, List.dropLast_append_of_ne_nil (by simp)]
      simp
  · rw [same, none_left]

end FileRun

/-- **No token is left, and none is lost or read twice** — of tokens with at most one end token, in
the last place, a file's parser makes a tree, and each of its repetitions goes on only past a token.
It ends with as many tokens read as there are and none left, and what it has reported as lexical
errors is, in order, just what the tokens stand for. -/
theorem compilationUnit_reads_all (tokens : List Token)
    (last : ∀ e ∈ tokens.dropLast, e.kind ≠ .eof) :
    LoopsProgress ∧
      ∃ unit t, compilationUnit.run { rest := tokens } = (some unit, t) ∧
        t.rest = [] ∧ t.position = tokens.length ∧
        lexicalErrors t.diagnostics = tokens.filterMap Token.diagnostic? := by
  obtain ⟨r⟩ := exists_fileRun { rest := tokens }
  have rest : r.final.rest = [] := r.rest_final last
  have follows := compilationUnit.follows { rest := tokens }
  rw [r.run_eq] at follows
  obtain ⟨⟨consumed, split, position, errors⟩, -⟩ := follows
  rw [rest, List.append_nil] at split
  refine ⟨loopsProgress, r.unit, r.final, r.run_eq, rest, ?_, ?_⟩
  · rw [position, ← split]
    exact Nat.zero_add _
  · rw [errors, ← split]
    rfl

/-- The tokens of a text that breaks off within an annotation, and holds a stray sign, without the
token that ends it. -/
theorem reads_all_of_broken_text :
    let tokens := (tokenize "import a.#; class A \x7b @B(c = \x7b").dropLast
    (∀ e ∈ tokens.dropLast, e.kind ≠ .eof) ∧
      ∃ unit t, compilationUnit.run { rest := tokens } = (some unit, t) ∧
        t.rest = [] ∧ t.position = tokens.length ∧
        lexicalErrors t.diagnostics = tokens.filterMap Token.diagnostic? := by
  intro tokens
  have last : ∀ e ∈ tokens.dropLast, e.kind ≠ .eof := by decide +kernel
  exact ⟨last, (compilationUnit_reads_all tokens last).2⟩

end Parser

end DeferFetch
