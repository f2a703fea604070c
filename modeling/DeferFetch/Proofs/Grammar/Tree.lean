/-
# DeferFetch.Proofs.Grammar.Tree — what the parsers of trees and annotations read.

Without a report, each of the parsers reads just the tokens of those trees that fit its budget. The
proof goes along the levels of the grammar: the parsers of one level are exact if those of the level
within are.
-/
import DeferFetch.Proofs.Grammar.Fits

namespace DeferFetch

namespace Parser

variable {s : ParserState} {rest : List Token}

/-! ## Names -/

/-- The tokens of a further part of a name. -/
def segmentTokens (segment : NameSegment) : List Token := [segment.dot, segment.identifier]

/-- A dot and an identifier come next just if these are the next kinds. -/
theorem atSegment_cons_cons {k l : TokenKind} {ks : List TokenKind} :
    atSegment (k :: l :: ks) = true ↔ k = .dot ∧ l.isIdentifier = true := by
  cases k <;> cases l <;> simp [atSegment, TokenKind.isIdentifier]

theorem TokenKind.isError_of_isIdentifier {k : TokenKind} (h : k.isIdentifier = true) :
    k.isError = false := by
  cases k <;> simp_all [TokenKind.isIdentifier, TokenKind.isError]

theorem segmentRound_reads :
    RoundReads segmentRound segmentTokens
      (fun _ segment _ => segment.dot.kind = .dot ∧ segment.identifier.kind.isIdentifier)
      (fun _ _ => ()) (fun _ => []) (fun _ _ f => atSegment f = false) := by
  intro x s rest
  refine ⟨fun item y => ?_, fun b => ?_⟩
  · simp only [segmentRound, takes_bind, takes_ahead, takes_ite, takes_token, ParserState.on_rest,
      takes_pure, Step.again.injEq, and_true, and_assoc, Bool.not_eq_true, reduceCtorEq, false_and,
      and_false, or_false, exists_and_left, exists_eq_left, atSegment_take, true_and]
    constructor
    · rintro ⟨hseg, dot, mid, hs, -, identifier, mid', rfl, -, rfl, rfl⟩
      rw [hs] at hseg
      exact ⟨_, rfl, hs, atSegment_cons_cons.1 hseg⟩
    · rintro ⟨⟨dot, identifier⟩, rfl, hs, hdot : dot.kind = .dot, hid⟩
      refine ⟨?_, dot, _, hs, by rw [hdot]; rfl, identifier, rest, rfl,
        TokenKind.isError_of_isIdentifier hid, rfl, rfl⟩
      rw [hs]
      exact atSegment_cons_cons.2 ⟨hdot, hid⟩
  · simp only [segmentRound, takes_bind, takes_ahead, takes_ite, takes_token, ParserState.on_rest,
      takes_pure, reduceCtorEq, false_and, and_false, exists_const, exists_false, Bool.not_eq_true,
      true_and, false_or, and_assoc, exists_and_left, exists_eq_left, atSegment_take,
      List.nil_append]
    constructor
    · rintro ⟨h, rfl⟩
      exact ⟨rfl, h⟩
    · rintro ⟨rfl, h⟩
      exact ⟨h, rfl⟩

theorem qualifiedName_reads (expected : Expectation) :
    (qualifiedName expected).Reads QualifiedName.tokens QualifiedName.Fits := by
  intro s n rest
  simp only [qualifiedName, takes_bind, takes_expect,
    segmentRound_reads.takes_rounds fun _ _ _ _ => List.cons_ne_nil _ _, ParserState.on_rest,
    List.nil_append, chain_const, takes_pure, and_assoc, Prod.exists, exists_const]
  constructor
  · rintro ⟨first, mid, hs, hf, -, others, mid', rfl, ho, hend, rfl, rfl⟩
    exact ⟨by rw [hs]; rfl, hf, ho, hend⟩
  · obtain ⟨first, others⟩ := n
    rintro ⟨hs, hf, ho, hend⟩
    exact ⟨first, _, hs, hf, TokenKind.isError_of_isIdentifier hf, others, rest, rfl, ho, hend,
      rfl, rfl⟩

theorem segmentRound_loud (x : Unit) : (segmentRound x).Loud := by
  refine .bind .ahead fun _ => .ite (fun _ => ?_) fun _ => .pure _
  exact .bind .token fun _ => .bind .token fun _ => .pure _

theorem qualifiedName_loud (expected : Expectation) : (qualifiedName expected).Loud :=
  .bind (.expect _ _) fun _ =>
    .bind (.rounds segmentRound_loud (segmentRound_reads.steady fun _ _ _ _ => List.cons_ne_nil _ _))
      fun _ => .pure _

theorem qualifiedName_exact (expected : Expectation) :
    (qualifiedName expected).Exact QualifiedName.tokens QualifiedName.Fits :=
  ⟨qualifiedName_reads expected, qualifiedName_loud expected⟩

end Parser

/-! ## Levels of the grammar -/

/-- **`g.Exact n`** — the parsers of a level read just what fits the budget `n`. -/
structure Grammar.Exact (g : Grammar) (n : Nat) : Prop where
  tree : g.tree.Exact TokenTree.tokens (TokenTree.Fits n)
  group : g.group.Exact Group.tokens (Group.Fits n)
  annot : g.annot.Exact Annotation.tokens (·.Fits n)
  value : g.value.Exact ElementValue.tokens (ElementValue.Fits n)

/-- The level within, if the budget `n` allows for one, is exact. -/
def ExactWithin : Option Grammar → Nat → Prop
  | none, n => n = 0
  | some g, n => 0 < n ∧ g.Exact (n - 1)

namespace Parser

variable {α : Type} {s : ParserState} {rest : List Token} {inner : Option Grammar} {n : Nat}

/-- What is read one level deeper needs a budget. -/
theorem nested_exact (h : ExactWithin inner n) {parse : Grammar → Parser α}
    {tokens : α → List Token} {fits : Nat → α → List TokenKind → Prop}
    (hp : ∀ g m, g.Exact m → (parse g).Exact tokens (fits m)) :
    (nested inner parse).Exact tokens fun a f => 0 < n ∧ fits (n - 1) a f := by
  cases inner with
  | none =>
    cases h
    refine ⟨fun s a rest => ?_, .fail _⟩
    simp [nested]
  | some g =>
    obtain ⟨hn, hg⟩ := h
    refine ⟨fun s a rest => ?_, (hp g _ hg).loud⟩
    rw [nested, (hp g _ hg).reads s a rest]
    simp [hn]

/-- The first kind ahead is that of the next token. -/
theorem ahead_eq_cons {ts : List Token} {k : TokenKind} {ks : List TokenKind}
    (h : (kinds ts).take 3 = k :: ks) : ∃ t mid, ts = t :: mid ∧ t.kind = k := by
  cases ts with
  | nil => cases h
  | cons t mid => exact ⟨t, mid, rfl, (List.cons.inj h).1⟩

/-! ## Groups -/

/-- No closing bracket comes next, in particular not this one. -/
theorem atKind_closing_of_atClosing {ks : List TokenKind} (h : atClosing ks = false)
    (delimiter : Delimiter) : atKind (.closing delimiter) ks = false := by
  cases ks with
  | nil => rfl
  | cons k ks => cases k <;> simp_all [atClosing, atKind, TokenKind.isClosing]

/-- A token of that kind comes next. -/
theorem atKind_eq_true {ts : List Token} {k : TokenKind} (h : atKind k (kinds ts) = true) :
    ∃ t mid, ts = t :: mid ∧ t.kind = k := by
  cases ts with
  | nil => simp [atKind] at h
  | cons t mid => exact ⟨t, mid, rfl, by simpa [atKind] using h⟩

theorem groupRound_reads {g : Grammar} (hg : g.Exact n) (delimiter : Delimiter) (opening : Token) :
    RoundReads (groupRound delimiter opening g) TokenTree.tokens
      (fun _ tree f => tree.Fits n f) (fun _ _ => ()) (fun closing => [closing])
      (fun _ closing _ => closing.kind = .closing delimiter) := by
  intro x s rest
  refine ⟨fun item y => ?_, fun b => ?_⟩
  · simp only [groupRound, takes_bind, takes_ahead, takes_ite, not_takes_fail, and_false,
      Bool.not_eq_true, takes_token, ParserState.on_rest, takes_pure, reduceCtorEq, false_and,
      exists_const, exists_false, hg.tree.reads _ _ _, Step.again.injEq, and_true, and_assoc,
      false_or, exists_and_left, exists_eq_left, atEnd_take, atKind_take, atClosing_take, true_and]
    constructor
    · rintro ⟨-, -, -, tree, mid, hs, hf, rfl, rfl⟩
      exact ⟨tree, rfl, hs, hf⟩
    · rintro ⟨tree, rfl, hs, hf⟩
      obtain ⟨hend, hclosing⟩ := hf.begins (kinds rest)
      rw [hs, kinds_append]
      exact ⟨hend, atKind_closing_of_atClosing hclosing delimiter, hclosing, tree, rest, rfl, hf,
        rfl, rfl⟩
  · simp only [groupRound, takes_bind, takes_ahead, takes_ite, not_takes_fail, and_false,
      Bool.not_eq_true, takes_token, ParserState.on_rest, takes_pure, Step.stop.injEq, and_assoc,
      reduceCtorEq, false_and, exists_const, exists_false, or_self, or_false, false_or,
      exists_and_left, exists_eq_left, atEnd_take, atKind_take, List.cons_append, List.nil_append]
    constructor
    · rintro ⟨-, hk, closing, mid, hs, -, rfl, rfl⟩
      refine ⟨hs, ?_⟩
      rw [hs] at hk
      simpa [atKind] using hk
    · rintro ⟨hs, hk⟩
      rw [hs]
      exact ⟨by simp [atEnd, hk], by simp [atKind, hk], b, rest, rfl, by rw [hk]; rfl, rfl, rfl⟩

theorem groupRound_loud {g : Grammar} (hg : g.Exact n) (delimiter : Delimiter) (opening : Token)
    (x : Unit) : (groupRound delimiter opening g x).Loud := by
  refine .bind .ahead fun _ => .ite (fun _ => .fail _) fun _ => .ite (fun _ => ?_) fun _ =>
    .ite (fun _ => .fail _) fun _ => ?_
  · exact .bind .token fun _ => .pure _
  · exact .bind hg.tree.loud fun _ => .pure _

/-- The tokens of a group after the opening bracket. -/
def contentTokens (g : Group) : List Token := TokenTree.listTokens g.trees ++ [g.closing]

theorem groupContents_exact {g : Grammar} (hg : g.Exact n) (delimiter : Delimiter)
    (opening : Token) :
    (groupContents delimiter opening g).Exact contentTokens fun group f =>
      group.delimiter = delimiter ∧ group.opening = opening ∧
        TokenTree.listFits n group.trees (group.closing.kind :: f) ∧
        group.closing.kind = .closing delimiter := by
  have round := groupRound_reads hg delimiter opening
  refine ⟨fun s group rest => ?_, ?_⟩
  · simp only [groupContents, takes_bind, round.takes_rounds fun _ tree _ _ => tree.tokens_ne_nil, ←
      TokenTree.listTokens_eq_flatMap, List.cons_append, List.nil_append, kinds_cons, chain_tree,
      takes_pure, ParserState.on_rest, and_assoc, Prod.exists]
    constructor
    · rintro ⟨trees, closing, mid, hs, hf, hk, rfl, rfl⟩
      exact ⟨by rw [hs, contentTokens, List.append_assoc]; rfl, rfl, rfl, hf, hk⟩
    · rintro ⟨hs, hd, ho, hf, hk⟩
      obtain ⟨delimiter', opening', trees, closing⟩ := group
      obtain rfl : delimiter' = delimiter := hd
      obtain rfl : opening' = opening := ho
      rw [contentTokens, List.append_assoc] at hs
      exact ⟨trees, closing, rest, hs, hf, hk, rfl, rfl⟩
  · exact .bind (.rounds (groupRound_loud hg delimiter opening)
      (round.steady fun _ tree _ _ => tree.tokens_ne_nil)) fun _ => .pure _

theorem groupWithin_exact (h : ExactWithin inner n) :
    (groupWithin inner).Exact Group.tokens (Group.Fits n) := by
  refine ⟨fun s group rest => ?_, ?_⟩
  · have contents (delimiter : Delimiter) (opening : Token) :=
      nested_exact h fun g m hg => groupContents_exact hg delimiter opening
    rw [groupWithin, takes_ahead_bind]
    split
    · rename_i delimiter tail heq
      obtain ⟨opening, mid, hs, hk⟩ := ahead_eq_cons heq
      simp only [takes_bind, takes_token, (contents delimiter _).reads _ _ _, ParserState.on_rest,
        and_assoc, Group.fits_iff]
      constructor
      · rintro ⟨opening, mid, hs', -, rfl, hn, rfl, rfl, hf, hc⟩
        have hk : group.opening.kind = .opening group.delimiter := by
          obtain ⟨rfl, -⟩ := List.cons.inj (hs.symm.trans hs')
          exact hk
        exact ⟨hs', hn, hk, hf, hc⟩
      · rintro ⟨hs', hn, ho, hf, hc⟩
        obtain ⟨rfl, -⟩ := List.cons.inj (hs.symm.trans hs')
        have hd : group.delimiter = delimiter := TokenKind.opening.inj (ho.symm.trans hk)
        exact ⟨group.opening, _, hs', by rw [hk]; rfl, rfl, hn, hd, rfl, hf, hd ▸ hc⟩
    · -- no group begins here, so none can be the beginning of what is left
      rename_i none_ahead
      simp only [not_takes_unexpected, false_iff, not_and, Group.fits_iff]
      intro hs hn ho
      rw [hs] at none_ahead
      refine absurd ?_ (none_ahead group.delimiter ((kinds (contentTokens group ++ rest)).take 2))
      rw [← ho]
      rfl
  · refine .bind .ahead fun _ => ?_
    split
    · exact .bind .token fun opening =>
        (nested_exact h fun g m hg => groupContents_exact hg _ opening).loud
    · exact .unexpected _

/-! ## Arguments -/

/-- A name and an equals sign come next just if these are the next kinds. -/
theorem atLabel_cons_cons {k l : TokenKind} {ks : List TokenKind} :
    atLabel (k :: l :: ks) = true ↔ k.isIdentifier = true ∧ l = .equals := by
  cases k <;> cases l <;> simp [atLabel, TokenKind.isIdentifier]

theorem label?_reads : label?.Reads labelTokens fitsLabel := by
  intro s label rest
  simp only [label?, takes_bind, takes_ahead, takes_ite, takes_token, ParserState.on_rest,
    takes_pure, and_assoc, Bool.not_eq_true, exists_and_left, exists_eq_left, atLabel_take]
  constructor
  · rintro (⟨hlabel, name, mid, hs, -, equals, mid', rfl, -, rfl, rfl⟩ | ⟨hlabel, rfl, rfl⟩)
    · rw [hs] at hlabel
      exact ⟨hs, atLabel_cons_cons.1 hlabel⟩
    · exact ⟨rfl, hlabel⟩
  · cases label with
    | none =>
      rintro ⟨hs, hlabel⟩
      exact .inr ⟨by rw [hs]; exact hlabel, rfl, hs.symm⟩
    | some label =>
      obtain ⟨name, equals⟩ := label
      rintro ⟨hs, hname, hequals⟩
      refine .inl ⟨?_, name, _, hs, TokenKind.isError_of_isIdentifier hname, equals, rest, rfl, ?_,
        rfl, rfl⟩
      · rw [hs]
        exact atLabel_cons_cons.2 ⟨hname, hequals⟩
      · rw [hequals]
        rfl

theorem label?_loud : label?.Loud :=
  .bind .ahead fun _ => .ite (fun _ => .bind .token fun _ => .bind .token fun _ => .pure _)
    fun _ => .pure _

/-- The tokens of an argument and the one after it. -/
def argumentTokens (item : Argument × Token) : List Token := item.1.tokens ++ [item.2]

/-- **`fitsAfter n first item f`** — the argument and what ends it fit, after a first argument with
the label `first`, if there was one. -/
def fitsAfter (n : Nat) (first : Option (Option (Token × Token))) (item : Argument × Token)
    (f : List TokenKind) : Prop :=
  item.1.Fits n (item.2.kind :: f) ∧
    first.any (fun earlier => earlier.isNone || item.1.label.isNone) = false

theorem argumentRound_reads {g : Grammar} (hg : g.Exact n) :
    RoundReads (argumentRound g) argumentTokens
      (fun first item f => item.2.kind = .comma ∧ fitsAfter n first item f)
      (fun first item => some (first.getD item.1.label)) argumentTokens
      (fun first item f => item.2.kind = .closing .paren ∧ fitsAfter n first item f) := by
  intro first s rest
  refine ⟨fun item y => ?_, fun item => ?_⟩
  · simp only [argumentRound, takes_bind, takes_peek, label?_reads _ _ _, ParserState.on_rest,
      hg.value.reads _ _ _, takes_ite, not_takes_fail, takes_ahead, and_assoc, exists_and_left,
      exists_eq_left, false_and, exists_const, and_false, Bool.not_eq_true, false_or,
      ParserState.on_self]
    constructor
    · rintro ⟨label, mid, hs, hlabel, value, mid', rfl, hvalue, hfirst, h⟩
      -- what comes after the value tells whether the round goes on
      split at h
      · rename_i heq
        obtain ⟨comma, mid, rfl, hk⟩ := ahead_eq_cons heq
        simp only [takes_bind, takes_token, ParserState.on_rest, List.cons.injEq, and_assoc,
          takes_pure, Step.again.injEq, exists_and_left, exists_eq_left'] at h
        obtain ⟨-, rfl, rfl, rfl⟩ := h
        refine ⟨(⟨label, value⟩, comma), rfl, rfl, ?_, hk, ⟨?_, hvalue⟩, hfirst⟩
        · simp [hs, argumentTokens, Argument.tokens]
        · simpa [kinds] using hlabel
      · simp at h
      · simp at h
    · rintro ⟨⟨⟨label, value⟩, comma⟩, rfl, rfl, hs, hk : comma.kind = .comma, ⟨hlabel, hvalue⟩,
        hfirst⟩
      refine ⟨label, value.tokens ++ comma :: rest, ?_, ?_, value, comma :: rest, rfl, hvalue,
        hfirst, ?_⟩
      · simp [hs, argumentTokens, Argument.tokens]
      · simpa [kinds] using hlabel
      · simp [hk, TokenKind.isError]
  · simp only [argumentRound, takes_bind, takes_peek, label?_reads _ _ _, ParserState.on_rest,
      hg.value.reads _ _ _, takes_ite, not_takes_fail, takes_ahead, and_assoc, exists_and_left,
      exists_eq_left, false_and, exists_const, and_false, Bool.not_eq_true, false_or,
      ParserState.on_self]
    constructor
    · rintro ⟨label, mid, hs, hlabel, value, mid', rfl, hvalue, hfirst, h⟩
      split at h
      · simp at h
      · rename_i heq
        obtain ⟨closing, mid, rfl, hk⟩ := ahead_eq_cons heq
        simp only [takes_bind, takes_token, ParserState.on_rest, List.cons.injEq, and_assoc,
          takes_pure, Step.stop.injEq, exists_and_left, exists_eq_left'] at h
        obtain ⟨-, rfl, rfl⟩ := h
        refine ⟨?_, hk, ⟨?_, hvalue⟩, hfirst⟩
        · simp [hs, argumentTokens, Argument.tokens]
        · simpa [kinds] using hlabel
      · simp at h
    · obtain ⟨⟨label, value⟩, closing⟩ := item
      rintro ⟨hs, hk : closing.kind = .closing .paren, ⟨hlabel, hvalue⟩, hfirst⟩
      refine ⟨label, value.tokens ++ closing :: rest, ?_, ?_, value, closing :: rest, rfl, hvalue,
        hfirst, ?_⟩
      · simp [hs, argumentTokens, Argument.tokens]
      · simpa [kinds] using hlabel
      · simp [hk, TokenKind.isError]

theorem argumentRound_loud {g : Grammar} (hg : g.Exact n)
    (first : Option (Option (Token × Token))) : (argumentRound g first).Loud := by
  refine .bind .peek fun _ => .bind label?_loud fun _ => .bind hg.value.loud fun _ =>
    .ite (fun _ => .bind (.fail _) fun _ => ?_) fun _ => ?_
  all_goals
    refine .bind .ahead fun _ => ?_
    split
    · exact .bind .token fun _ => .pure _
    · exact .bind .token fun _ => .pure _
    · exact .unexpected _

/-- The tokens of arguments, each of which was read with the one after it. -/
theorem listTokens_front (front : List (Argument × Token)) (last : Argument × Token) :
    Argument.listTokens (front.map Prod.fst ++ [last.1]) (front.map Prod.snd) ++ [last.2] =
      front.flatMap argumentTokens ++ argumentTokens last := by
  induction front with
  | nil => simp [argumentTokens]
  | cons item front ih =>
    simp only [List.map_cons, List.cons_append, Argument.listTokens_cons, List.append_assoc, ih,
      List.flatMap_cons, argumentTokens, List.nil_append]

/-- What follows an argument that was read is what follows it in the list. -/
theorem kinds_front (front : List (Argument × Token)) (last : Argument × Token)
    (f : List TokenKind) :
    kinds (front.flatMap argumentTokens) ++ (kinds (argumentTokens last) ++ f) =
      kinds (Argument.listTokens (front.map Prod.fst ++ [last.1]) (front.map Prod.snd)) ++
        last.2.kind :: f := by
  have := congrArg kinds (listTokens_front front last)
  simp only [kinds_append, kinds_cons, kinds_nil] at this ⊢
  rw [← List.append_assoc, ← this, List.append_assoc, List.cons_append, List.nil_append]

/-- How the rounds go on from a label. -/
def keepLabel (first : Option (Option (Token × Token))) (item : Argument × Token) :
    Option (Option (Token × Token)) :=
  some (first.getD item.1.label)

@[simp] theorem foldl_keepLabel (label : Option (Token × Token)) (front : List (Argument × Token)) :
    front.foldl keepLabel (some label) = some label := by
  induction front with
  | nil => rfl
  | cons item front ih => exact ih

/-- Arguments that are read after a first one with the label `label`. -/
theorem chain_argument (label : Option (Token × Token)) (front : List (Argument × Token))
    (last : Argument × Token) (f : List TokenKind) :
    chain argumentTokens (fun first item f => item.2.kind = .comma ∧ fitsAfter n first item f)
        keepLabel (some label) front (kinds (argumentTokens last) ++ f) ∧
      fitsAfter n (some label) last f ↔
    Argument.listFits n (front.map Prod.fst ++ [last.1]) (front.map Prod.snd) (last.2.kind :: f) ∧
      label.isSome ∧ ∀ a ∈ front.map Prod.fst ++ [last.1], a.label.isSome := by
  induction front with
  | nil =>
    simp [chain, fitsAfter, Argument.listFits_last]
  | cons item front ih =>
    have hne : front.map Prod.fst ++ [last.1] ≠ [] := by simp
    simp only [chain, kinds_front, fitsAfter, keepLabel, Option.getD_some, Option.any_some,
      Bool.or_eq_false_iff, List.map_cons, List.cons_append, Argument.listFits_cons, ne_eq, hne,
      not_false_eq_true, true_and, List.mem_cons, forall_eq_or_imp] at ih ⊢
    constructor
    · rintro ⟨⟨⟨hk, hf, hl, hi⟩, hc⟩, hlast⟩
      obtain ⟨hfits, hlabel, hall⟩ := ih.1 ⟨hc, hlast⟩
      exact ⟨⟨hk, hf, hfits⟩, hlabel, Option.isNone_eq_false_iff.1 hi, hall⟩
    · rintro ⟨⟨hk, hf, hfits⟩, hlabel, hi, hall⟩
      obtain ⟨hc, hlast⟩ := ih.2 ⟨hfits, hlabel, hall⟩
      exact ⟨⟨⟨hk, hf, Option.isNone_eq_false_iff.2 hlabel, Option.isNone_eq_false_iff.2 hi⟩, hc⟩,
        hlast⟩

/-- All arguments, from the first on. -/
theorem chain_arguments (front : List (Argument × Token)) (last : Argument × Token)
    (f : List TokenKind) :
    chain argumentTokens (fun first item f => item.2.kind = .comma ∧ fitsAfter n first item f)
        keepLabel none front (kinds (argumentTokens last) ++ f) ∧
      fitsAfter n (front.foldl keepLabel none) last f ↔
    Argument.listFits n (front.map Prod.fst ++ [last.1]) (front.map Prod.snd) (last.2.kind :: f) ∧
      labelled (front.map Prod.fst ++ [last.1]) := by
  cases front with
  | nil => simp [chain, fitsAfter, Argument.listFits_last, labelled]
  | cons item front =>
    have hne : front.map Prod.fst ++ [last.1] ≠ [] := by simp
    have rest := @chain_argument n item.1.label front last f
    rw [chain, kinds_front, List.foldl_cons, List.map_cons, List.map_cons, List.cons_append,
      Argument.listFits_cons, labelled_cons hne]
    simp only [keepLabel, Option.getD_none, foldl_keepLabel, List.mem_cons, forall_eq_or_imp]
    constructor
    · rintro ⟨⟨⟨hk, hf, -⟩, hc⟩, hlast⟩
      obtain ⟨hfits, hlabel⟩ := rest.1 ⟨hc, hlast⟩
      exact ⟨⟨hk, hne, hf, hfits⟩, hlabel⟩
    · rintro ⟨⟨hk, -, hf, hfits⟩, hlabel⟩
      obtain ⟨hc, hlast⟩ := rest.2 ⟨hfits, hlabel⟩
      exact ⟨⟨⟨hk, hf, rfl⟩, hc⟩, hlast⟩

theorem argumentRounds_exact {g : Grammar} (hg : g.Exact n) :
    (argumentRounds g).Exact
      (fun result => result.1.flatMap argumentTokens ++ argumentTokens result.2)
      (fun result f =>
        result.2.2.kind = .closing .paren ∧
          Argument.listFits n (result.1.map Prod.fst ++ [result.2.1]) (result.1.map Prod.snd)
            (result.2.2.kind :: f) ∧
          labelled (result.1.map Prod.fst ++ [result.2.1])) := by
  have round := argumentRound_reads hg
  have nonempty : ∀ first item f, item.2.kind = .comma ∧ fitsAfter n first item f →
      argumentTokens item ≠ [] := fun _ _ _ _ => by simp [argumentTokens]
  refine ⟨fun s result rest => ?_, .rounds (argumentRound_loud hg) (round.steady nonempty)⟩
  obtain ⟨front, last⟩ := result
  rw [argumentRounds, round.takes_rounds nonempty, ← chain_arguments, List.append_assoc, kinds,
    List.map_append]
  constructor
  · rintro ⟨hs, hc, hk, hlast⟩
    exact ⟨hs, hk, hc, hlast⟩
  · rintro ⟨hs, hk, hc, hlast⟩
    exact ⟨hs, hc, hk, hlast⟩

/-- The tokens of the arguments in parentheses. -/
def listTokens (l : ArgumentList) : List Token :=
  l.opening :: (Argument.listTokens l.arguments l.commas ++ [l.closing])

theorem argumentList_exact {g : Grammar} (hg : g.Exact n) :
    (argumentList g).Exact listTokens fun l f =>
      l.opening.kind.isError = false ∧ l.closing.kind = .closing .paren ∧ labelled l.arguments ∧
        Argument.listFits n l.arguments l.commas (l.closing.kind :: f) := by
  refine ⟨fun s l rest => ?_, ?_⟩
  · simp only [argumentList, takes_bind, takes_token, takes_ahead, ParserState.on_rest, takes_ite,
      takes_pure, and_assoc, Bool.not_eq_true, (argumentRounds_exact hg).reads _ _ _,
      List.append_assoc, Prod.exists, exists_and_left, exists_eq_left, atKind_take]
    constructor
    · rintro ⟨opening, mid, hs, ho, ⟨hk, closing, mid', rfl, -, rfl, rfl⟩ |
        ⟨-, front, last, closing, mid', rfl, hk, hf, hl, rfl, rfl⟩⟩
      · refine ⟨hs, ho, ?_, List.forall_mem_nil _, rfl⟩
        simpa [atKind] using hk
      · refine ⟨?_, ho, hk, hl, hf⟩
        rw [hs, listTokens, listTokens_front front (last, closing)]
        simp
    · obtain ⟨opening, arguments, commas, closing⟩ := l
      rintro ⟨hs, ho, hk : closing.kind = .closing .paren, hl, hf⟩
      refine ⟨opening, _, hs, ho, ?_⟩
      -- the closing parenthesis comes first just if there are no arguments
      by_cases hne : arguments = []
      · subst hne
        obtain rfl : commas = [] := hf
        refine .inl ⟨?_, closing, rest, rfl, by rw [hk]; rfl, rfl, rfl⟩
        simp [Argument.listTokens, atKind, hk]
      · have begins := hf.begins hne (closing.kind :: kinds rest)
        obtain ⟨front, last, rfl, rfl⟩ := hf.exists_front hne
        refine .inr ⟨?_, front, last, closing, rest, ?_, hk, hf, hl, rfl, rfl⟩
        · simpa using atKind_closing_of_atClosing begins .paren
        · rw [listTokens_front front (last, closing)]
          exact List.append_assoc _ _ _
  · refine .bind .token fun _ => .bind .ahead fun _ => .ite (fun _ => ?_) fun _ => ?_
    · exact .bind .token fun _ => .pure _
    · exact .bind (argumentRounds_exact hg).loud fun _ => .pure _

/-! ## Annotations -/

/-- The tokens of an annotation after the at sign. -/
def restTokens (a : Annotation) : List Token :=
  a.name.tokens ++ (a.arguments?.map listTokens).getD []

theorem tokens_eq (a : Annotation) : a.tokens = a.sigil :: restTokens a := by
  obtain ⟨sigil, name, _ | ⟨opening, arguments, commas, closing⟩⟩ := a
  · simp [restTokens, Annotation.tokens]
  · simp [restTokens, Annotation.tokens, listTokens]

/-- **`restFits n a f`** — what follows the at sign of an annotation fits. -/
def restFits (n : Nat) (a : Annotation) (f : List TokenKind) : Prop :=
  match a.arguments? with
  | none => a.name.Fits f ∧ atKind (.opening .paren) f = false
  | some l =>
    a.name.Fits [l.opening.kind] ∧ l.opening.kind = .opening .paren ∧
      l.closing.kind = .closing .paren ∧ labelled l.arguments ∧
      Argument.listFits n l.arguments l.commas (l.closing.kind :: f)

theorem annotation_fits_iff {a : Annotation} {f : List TokenKind} :
    a.Fits n f ↔ 0 < n ∧ a.sigil.kind = .at ∧ restFits (n - 1) a f := by
  obtain ⟨sigil, name, _ | ⟨opening, arguments, commas, closing⟩⟩ := a
  · exact Iff.rfl
  · exact Iff.rfl

/-- A name does not go on where a parenthesis opens. -/
theorem fits_before_paren {name : QualifiedName} {k : TokenKind} {f : List TokenKind}
    (hk : k = .opening .paren) : name.Fits (k :: f) ↔ name.Fits [k] := by
  subst hk
  exact Iff.rfl

theorem annotationRest_exact {g : Grammar} (hg : g.Exact n) (sigil : Token) :
    (annotationRest sigil g).Exact restTokens fun a f => a.sigil = sigil ∧ restFits n a f := by
  refine ⟨fun s a rest => ?_, ?_⟩
  · simp only [annotationRest, takes_bind, (qualifiedName_exact _).reads _ _ _, takes_ahead,
      ParserState.on_rest, takes_ite, (argumentList_exact hg).reads _ _ _, takes_pure, and_assoc,
      Bool.not_eq_true, exists_and_left, exists_eq_left, atKind_take]
    constructor
    · rintro ⟨name, mid, hs, hname, ⟨hk, l, mid', rfl, ho, hc, hl, hf, rfl, rfl⟩ |
        ⟨hk, rfl, rfl⟩⟩
      · have hk : l.opening.kind = .opening .paren := by simpa [listTokens, atKind] using hk
        refine ⟨by simp [hs, restTokens], rfl, ?_, hk, hc, hl, hf⟩
        exact (fits_before_paren hk).1 hname
      · exact ⟨by simp [hs, restTokens], rfl, hname, hk⟩
    · obtain ⟨sigil', name, _ | ⟨opening, arguments, commas, closing⟩⟩ := a
      · rintro ⟨hs, rfl, hname, hk⟩
        exact ⟨name, rest, by simpa [restTokens] using hs, hname, .inr ⟨hk, rfl, rfl⟩⟩
      · rintro ⟨hs, rfl, hname, hk : opening.kind = .opening .paren, hc, hl, hf⟩
        refine ⟨name, listTokens ⟨opening, arguments, commas, closing⟩ ++ rest,
          by simpa [restTokens] using hs, (fits_before_paren hk).2 hname, .inl
          ⟨?_, ⟨opening, arguments, commas, closing⟩, rest, rfl, ?_, hc, hl, hf, rfl, rfl⟩⟩
        · simp [listTokens, atKind, hk]
        · simp [hk, TokenKind.isError]
  · refine .bind (qualifiedName_exact _).loud fun _ => .bind .ahead fun _ => .ite (fun _ => ?_)
      fun _ => .pure _
    exact .bind (argumentList_exact hg).loud fun _ => .pure _

theorem annotationWithin_exact (h : ExactWithin inner n) :
    (annotationWithin inner).Exact Annotation.tokens (·.Fits n) := by
  have rest (sigil : Token) := nested_exact h fun g m hg => annotationRest_exact hg sigil
  refine ⟨fun s a rest' => ?_, .bind (.expect _ _) fun sigil => (rest sigil).loud⟩
  simp only [annotationWithin, takes_bind, takes_expect, decide_eq_true_eq, (rest _).reads _ _ _,
    ParserState.on_rest, and_assoc, tokens_eq, List.cons_append, annotation_fits_iff]
  constructor
  · rintro ⟨sigil, mid, hs, hk, -, rfl, hn, rfl, hf⟩
    exact ⟨hs, hn, hk, hf⟩
  · rintro ⟨hs, hn, hk, hf⟩
    exact ⟨a.sigil, _, hs, hk, by rw [hk]; rfl, rfl, hn, rfl, hf⟩

/-! ## Trees -/

theorem treeWithin_exact (h : ExactWithin inner n) :
    (treeWithin inner).Exact TokenTree.tokens (TokenTree.Fits n) := by
  refine ⟨fun s tree rest => ?_, ?_⟩
  · simp only [treeWithin, Bool.or_eq_true, takes_bind, takes_ahead, takes_ite, (groupWithin_exact
      h).reads _ _ _, ParserState.on_rest, takes_pure, and_assoc, Bool.not_eq_true,
      (annotationWithin_exact h).reads _ _ _, not_takes_unexpected, and_false, not_or, takes_token,
      false_or, exists_and_left, exists_eq_left, atOpening_take, atAnnotation_take, atEnd_take,
      atClosing_take]
    constructor
    · rintro (⟨ho, group, mid, hs, hf, rfl, rfl⟩ |
        ⟨ho, ⟨ha, a, mid, hs, hf, rfl, rfl⟩ | ⟨ha, hend, hc, t, mid, hs, he, rfl, rfl⟩⟩)
      · exact ⟨by rw [hs, TokenTree.tokens_group], hf⟩
      · rw [hs, kinds_append] at ha
        exact ⟨hs, ha, hf⟩
      · rw [hs] at ho ha hend hc
        refine ⟨hs, by simpa [atOpening] using ho, ha, by simpa [atEnd] using hend,
          by simpa [atClosing] using hc, he⟩
    · cases tree with
      | group group =>
        rintro ⟨hs, hf : group.Fits n (kinds rest)⟩
        rw [TokenTree.tokens_group] at hs
        refine .inl ⟨?_, group, rest, hs, hf, rfl, rfl⟩
        rw [hs]
        simp [Group.tokens, atOpening, (Group.fits_iff.1 hf).2.1, TokenKind.isOpening,
          TokenKind.opens?]
      | annot a =>
        rintro ⟨hs : s.rest = a.tokens ++ rest, ha, hf⟩
        obtain ⟨ks, hks⟩ := hf.kinds
        refine .inr ⟨?_, .inl ⟨?_, a, rest, hs, hf, rfl, rfl⟩⟩
        · rw [hs, kinds_append, hks]
          rfl
        · rw [hs, kinds_append]
          exact ha
      | token t =>
        rintro ⟨hs : s.rest = t :: rest, ho, ha, hend, hc, he⟩
        rw [hs]
        refine .inr ⟨by simpa [atOpening] using ho, .inr ⟨ha, by simpa [atEnd] using hend,
          by simpa [atClosing] using hc, t, rest, rfl, he, rfl, rfl⟩⟩
  · refine .bind .ahead fun _ => .ite (fun _ => ?_) fun _ => .ite (fun _ => ?_) fun _ =>
      .ite (fun _ => .unexpected _) fun _ => ?_
    · exact .bind (groupWithin_exact h).loud fun _ => .pure _
    · exact .bind (annotationWithin_exact h).loud fun _ => .pure _
    · exact .bind .token fun _ => .pure _

/-! ## Element values -/

/-- The tokens of a value between braces and of the comma after it. -/
def itemTokens (item : ElementValue × Option Token) : List Token := item.1.tokens ++ item.2.toList

/-- **`fitsItem n item f`** — the value fits, and a comma or the closing brace comes after it. -/
def fitsItem (n : Nat) (item : ElementValue × Option Token) (f : List TokenKind) : Prop :=
  item.1.Fits n (kinds item.2.toList ++ f) ∧
    match item.2 with
    | some comma => comma.kind = .comma
    | none => atKind (.closing .brace) f = true

theorem arrayRound_reads {g : Grammar} (hg : g.Exact n) :
    RoundReads (arrayRound g) itemTokens (fun _ item f => fitsItem n item f) (fun _ _ => ())
      (fun closing => [closing]) (fun _ closing _ => closing.kind = .closing .brace) := by
  intro x s rest
  refine ⟨fun item y => ?_, fun b => ?_⟩
  · simp only [arrayRound, takes_bind, takes_ahead, takes_ite, takes_token, ParserState.on_rest,
      takes_pure, reduceCtorEq, false_and, and_false, exists_const, exists_false, Bool.not_eq_true,
      hg.value.reads _ _ _, and_assoc, exists_and_left, exists_eq_left, false_or,
      ParserState.on_self, atKind_take, true_and]
    constructor
    · rintro ⟨hbrace, value, mid, hs, hf, h⟩
      -- what comes after the value tells whether it has a comma
      split at h
      · rename_i heq
        obtain ⟨comma, mid, rfl, hk⟩ := ahead_eq_cons heq
        simp only [takes_bind, takes_token, ParserState.on_rest, List.cons.injEq, and_assoc,
          takes_pure, Step.again.injEq, and_true, exists_and_left, exists_eq_left'] at h
        obtain ⟨-, rfl, rfl⟩ := h
        exact ⟨(value, some comma), rfl, by simp [hs, itemTokens], hf, hk⟩
      · rename_i heq
        obtain ⟨closing, mid, rfl, hk⟩ := ahead_eq_cons heq
        simp only [takes_pure, Step.again.injEq, and_true, ParserState.on_rest] at h
        obtain ⟨rfl, rfl⟩ := h
        exact ⟨(value, none), rfl, by simp [hs, itemTokens], hf, by simp [atKind, hk]⟩
      · simp at h
    · rintro ⟨⟨value, _ | comma⟩, rfl, hs, hf, hk⟩
      · have brace := atKind_closing_of_atClosing (hf.begins (kinds rest)) .brace
        refine ⟨by simpa [hs, itemTokens] using brace, value, rest, by simpa [itemTokens] using hs,
          hf, ?_⟩
        obtain ⟨closing, mid, hmid, hc⟩ := atKind_eq_true hk
        simp [hmid, hc]
      · have brace :=
          atKind_closing_of_atClosing (hf.begins (comma.kind :: kinds rest)) .brace
        refine ⟨by simpa [hs, itemTokens] using brace, value, comma :: rest,
          by simpa [itemTokens] using hs, hf, ?_⟩
        simp only at hk
        simp [hk, TokenKind.isError]
  · simp only [arrayRound, takes_bind, takes_ahead, takes_ite, takes_token, ParserState.on_rest,
      takes_pure, Step.stop.injEq, and_assoc, Bool.not_eq_true, hg.value.reads _ _ _,
      exists_and_left, exists_eq_left, ParserState.on_self, atKind_take, List.cons_append,
      List.nil_append]
    constructor
    · rintro (⟨hk, closing, mid, hs, -, rfl, rfl⟩ | ⟨-, value, mid, -, -, h⟩)
      · rw [hs] at hk
        exact ⟨hs, by simpa [atKind] using hk⟩
      · split at h <;> simp at h
    · rintro ⟨hs, hk⟩
      refine .inl ⟨by simp [hs, atKind, hk], b, rest, hs, by rw [hk]; rfl, rfl, rfl⟩

theorem arrayRound_loud {g : Grammar} (hg : g.Exact n) (x : Unit) : (arrayRound g x).Loud := by
  refine .bind .ahead fun _ => .ite (fun _ => .bind .token fun _ => ?_) fun _ => ?_
  · exact .pure _
  · refine .bind hg.value.loud fun _ => .bind .ahead fun _ => ?_
    split
    · exact .bind .token fun _ => .pure _
    · exact .pure _
    · exact .unexpected _

/-- Values between braces, each of which was read with the comma after it. -/
theorem chain_item {items : List (ElementValue × Option Token)} {closing : Token}
    {f : List TokenKind} :
    chain itemTokens (fun _ item f => fitsItem n item f) (fun _ _ => ()) () items
        (closing.kind :: f) →
      ElementValue.listFits n (items.map Prod.fst) (items.filterMap Prod.snd) (closing.kind :: f) ∧
        ElementValue.listTokens (items.map Prod.fst) (items.filterMap Prod.snd) =
          items.flatMap itemTokens := by
  induction items with
  | nil => exact fun _ => ⟨rfl, rfl⟩
  | cons item items ih =>
    rintro ⟨⟨hf, hc⟩, hrest⟩
    obtain ⟨hfits, htokens⟩ := ih hrest
    obtain ⟨value, _ | comma⟩ := item
    · -- the closing brace comes next, so there are no more items
      cases items with
      | nil => exact ⟨⟨rfl, hf⟩, by simp [ElementValue.listTokens, itemTokens]⟩
      | cons next items =>
        have begins := hrest.1.1.begins
          (kinds next.2.toList ++ (kinds (items.flatMap itemTokens) ++ closing.kind :: f))
        have := atKind_closing_of_atClosing begins .brace
        simp only [List.flatMap_cons, itemTokens, kinds_append, List.append_assoc, this] at hc
        cases hc
    · refine ⟨⟨hc, ?_, hfits⟩, ?_⟩
      · rw [htokens]
        exact hf
      · simp [ElementValue.listTokens, htokens, itemTokens]

/-- Values between braces that fit are read, each with the comma after it. -/
theorem exists_items {values : List ElementValue} {commas : List Token} {closing : Token}
    {f : List TokenKind} (hk : closing.kind = .closing .brace)
    (h : ElementValue.listFits n values commas (closing.kind :: f)) :
    ∃ items : List (ElementValue × Option Token),
      values = items.map Prod.fst ∧ commas = items.filterMap Prod.snd ∧
        ElementValue.listTokens values commas = items.flatMap itemTokens ∧
        chain itemTokens (fun _ item f => fitsItem n item f) (fun _ _ => ()) () items
          (closing.kind :: f) := by
  induction values generalizing commas with
  | nil =>
    obtain rfl : commas = [] := h
    exact ⟨[], rfl, rfl, rfl, trivial⟩
  | cons value values ih =>
    cases commas with
    | nil =>
      obtain ⟨rfl, hf⟩ := h
      exact ⟨[(value, none)], rfl, rfl, by simp [ElementValue.listTokens, itemTokens],
        ⟨hf, by simp [atKind, hk]⟩, trivial⟩
    | cons comma commas =>
      obtain ⟨hc, hf, h⟩ := h
      obtain ⟨items, hv, hcs, ht, hchain⟩ := ih h
      refine ⟨(value, some comma) :: items, by simp [hv], by simp [hcs], ?_, ⟨?_, hc⟩, hchain⟩
      · simp [ElementValue.listTokens, ht, itemTokens]
      · rw [ht] at hf
        exact hf

/-- The tokens of an array after the opening brace. -/
def arrayTokens : ElementValue → List Token
  | .array _ values commas closing => ElementValue.listTokens values commas ++ [closing]
  | _ => []

theorem arrayContents_exact {g : Grammar} (hg : g.Exact n) (opening : Token) :
    (arrayContents opening g).Exact arrayTokens fun value f =>
      ∃ values commas closing, value = .array opening values commas closing ∧
        closing.kind = .closing .brace ∧
        ElementValue.listFits n values commas (closing.kind :: f) := by
  have nonempty : ∀ (x : Unit) item f, fitsItem n item f → itemTokens item ≠ [] :=
    fun _ item _ hf => by simp [itemTokens, hf.1.tokens_ne_nil]
  have round := arrayRound_reads hg
  refine ⟨fun s value rest => ?_, ?_⟩
  · simp only [arrayContents, takes_bind, round.takes_rounds nonempty, List.cons_append,
      List.nil_append, kinds_cons, takes_pure, ParserState.on_rest, and_assoc, Prod.exists]
    constructor
    · rintro ⟨items, closing, mid, hs, hc, hk, rfl, rfl⟩
      obtain ⟨hf, ht⟩ := chain_item hc
      exact ⟨by rw [hs, arrayTokens, ht, List.append_assoc]; rfl, _, _, closing, rfl, hk, hf⟩
    · rintro ⟨hs, values, commas, closing, rfl, hk, hf⟩
      obtain ⟨items, rfl, rfl, ht, hc⟩ := exists_items hk hf
      rw [arrayTokens, ht, List.append_assoc] at hs
      exact ⟨items, closing, rest, hs, hc, hk, rfl, rfl⟩
  · exact .bind (.rounds (arrayRound_loud hg) (round.steady nonempty)) fun _ => .pure _

theorem expressionRound_reads (h : ExactWithin inner n) :
    RoundReads (expressionRound inner) TokenTree.tokens
      (fun _ tree f => atKind .comma (kinds tree.tokens ++ f) = false ∧ tree.Fits n f)
      (fun _ _ => ()) (fun _ => []) (fun _ _ f => endsExpression f = true) := by
  intro x s rest
  refine ⟨fun item y => ?_, fun b => ?_⟩
  · simp only [expressionRound, Bool.or_eq_true, takes_bind, takes_ahead, takes_ite, takes_pure,
      reduceCtorEq, ParserState.on_rest, false_and, and_false, not_or, Bool.not_eq_true, and_assoc,
      (treeWithin_exact h).reads _ _ _, Step.again.injEq, and_true, false_or, exists_and_left,
      exists_eq_left, atEnd_take, atClosing_take, atKind_take, true_and]
    constructor
    · rintro ⟨-, -, hcomma, tree, mid, hs, hf, rfl, rfl⟩
      rw [hs, kinds_append] at hcomma
      exact ⟨tree, rfl, hs, hcomma, hf⟩
    · rintro ⟨tree, rfl, hs, hcomma, hf⟩
      obtain ⟨hend, hclosing⟩ := hf.begins (kinds rest)
      rw [hs, kinds_append]
      exact ⟨hend, hclosing, hcomma, tree, rest, rfl, hf, rfl, rfl⟩
  · simp only [expressionRound, Bool.or_eq_true, takes_bind, takes_ahead, takes_ite, takes_pure,
      ParserState.on_rest, true_and, not_or, Bool.not_eq_true, and_assoc, reduceCtorEq, false_and,
      and_false, exists_const, exists_false, or_false, exists_and_left, exists_eq_left, atEnd_take,
      atClosing_take, atKind_take, List.nil_append, endsExpression]
    constructor
    · rintro ⟨hend, rfl⟩
      exact ⟨rfl, hend⟩
    · rintro ⟨rfl, hend⟩
      exact ⟨hend, rfl⟩

theorem expressionRound_loud (h : ExactWithin inner n) (x : Unit) :
    (expressionRound inner x).Loud :=
  .bind .ahead fun _ => .ite (fun _ => .pure _) fun _ =>
    .bind (treeWithin_exact h).loud fun _ => .pure _

theorem expressionTrees_exact (h : ExactWithin inner n) :
    (expressionTrees inner).Exact TokenTree.listTokens fun trees f =>
      TokenTree.listFits n trees f ∧ avoids (atKind .comma) trees f ∧ endsExpression f = true := by
  have round := expressionRound_reads h
  refine ⟨fun s trees rest => ?_, ?_⟩
  · simp only [expressionTrees, takes_bind, round.takes_rounds fun _ tree _ _ => tree.tokens_ne_nil,
      ← TokenTree.listTokens_eq_flatMap, List.nil_append, chain_tree_avoiding, and_assoc,
      takes_pure, ParserState.on_rest, Prod.exists, exists_const]
    constructor
    · rintro ⟨trees, mid, hs, hf, hcomma, hend, rfl, rfl⟩
      exact ⟨hs, hf, hcomma, hend⟩
    · rintro ⟨hs, hf, hcomma, hend⟩
      exact ⟨trees, rest, hs, hf, hcomma, hend, rfl, rfl⟩
  · exact .bind (.rounds (expressionRound_loud h) (round.steady fun _ tree _ _ => tree.tokens_ne_nil))
      fun _ => .pure _

theorem valueWithin_exact (h : ExactWithin inner n) :
    (valueWithin inner).Exact ElementValue.tokens (ElementValue.Fits n) := by
  have array (opening : Token) := nested_exact h fun g m hg => arrayContents_exact hg opening
  refine ⟨fun s value rest => ?_, ?_⟩
  · rw [valueWithin, takes_ahead_bind]
    split
    · rename_i heq
      obtain ⟨sigil, mid, hs, hk⟩ := ahead_eq_cons heq
      simp only [takes_bind, (annotationWithin_exact h).reads _ _ _, takes_pure,
        ParserState.on_rest, and_assoc]
      constructor
      · rintro ⟨a, mid, hs, hf, rfl, rfl⟩
        exact ⟨hs, hf⟩
      · rintro ⟨hs', hf⟩
        obtain ⟨a, rfl⟩ := hf.of_at (by rw [← kinds_append, ← hs', hs, kinds_cons, hk])
        exact ⟨a, rest, hs', hf, rfl, rfl⟩
    · rename_i heq
      obtain ⟨opening, mid, hs, hk⟩ := ahead_eq_cons heq
      simp only [takes_bind, takes_token, (array _).reads _ _ _, ParserState.on_rest, and_assoc]
      constructor
      · rintro ⟨opening', mid', hs', -, rfl, hn, values, commas, closing, rfl, hc, hf⟩
        obtain ⟨rfl, -⟩ := List.cons.inj (hs.symm.trans hs')
        exact ⟨by rw [hs']; rfl, hn, hk, hc, hf⟩
      · rintro ⟨hs', hf⟩
        obtain ⟨opening', values, commas, closing, rfl⟩ :=
          hf.of_brace (by rw [← kinds_append, ← hs', hs, kinds_cons, hk])
        obtain ⟨hn, ho, hc, hf⟩ := hf
        exact ⟨opening', _, hs', by rw [ho]; rfl, rfl, hn, values, commas, closing, rfl, hc, hf⟩
    · rename_i hat hbrace
      -- neither an at sign nor a brace begins what is left
      have other : beginsOther (kinds s.rest) = false := by
        unfold beginsOther
        split
        · rename_i ks hks
          exact absurd (by rw [hks]; rfl) (hat (ks.take 2))
        · rename_i ks hks
          exact absurd (by rw [hks]; rfl) (hbrace (ks.take 2))
        · rfl
      simp only [List.isEmpty_iff, takes_bind, (expressionTrees_exact h).reads _ _ _, takes_ite,
        not_takes_unexpected, and_false, takes_pure, ParserState.on_rest, false_or, and_assoc]
      constructor
      · rintro ⟨trees, mid, hs, hf, hcomma, hend, hne, rfl, rfl⟩
        rw [hs, kinds_append] at other
        exact ⟨hs, hne, other, hf, hcomma, hend⟩
      · rintro ⟨hs, hf⟩
        rw [hs, kinds_append] at other
        obtain ⟨trees, rfl⟩ := hf.of_other other
        obtain ⟨hne, -, hf, hcomma, hend⟩ := hf
        exact ⟨trees, rest, hs, hf, hcomma, hend, hne, rfl, rfl⟩
  · refine .bind .ahead fun _ => ?_
    split
    · exact .bind (annotationWithin_exact h).loud fun _ => .pure _
    · exact .bind .token fun opening => (array opening).loud
    · exact .bind (expressionTrees_exact h).loud fun _ => .ite (fun _ => .unexpected _)
        fun _ => .pure _

end Parser

/-! ## All levels -/

open DeferFetch.Parser in
theorem Grammar.within_exact {inner : Option Grammar} {n : Nat} (h : ExactWithin inner n) :
    (Grammar.within inner).Exact n where
  tree := treeWithin_exact h
  group := groupWithin_exact h
  annot := annotationWithin_exact h
  value := valueWithin_exact h

/-- **The grammar is exact** — the parsers for a budget read just the tokens of what fits it. -/
theorem Grammar.ofBudget_exact (n : Nat) : (Grammar.ofBudget n).Exact n := by
  induction n with
  | zero => exact within_exact rfl
  | succ n ih => exact within_exact ⟨n.succ_pos, ih⟩

end DeferFetch
