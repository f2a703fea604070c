/-
# DeferFetch.Proofs.Grammar.Declaration — what the parsers of declarations read.

As for trees: modifiers, members and type declarations are said to fit a budget and what follows
them, and the parsers are shown to read just the tokens of those that do. A member that was skipped
was reported.
-/
import DeferFetch.Proofs.Grammar.Tree

namespace DeferFetch

/-! ## Modifiers -/

/-- A modifier comes next. -/
def startsModifier (f : List TokenKind) : Bool :=
  atAnnotation f || f.head?.any TokenKind.isModifierKeyword || atSealed f || atNonSealed f

/-- **`m.Fits n f`** — the modifier fits the budget `n` before `f`. -/
def Modifier.Fits (n : Nat) : Modifier → List TokenKind → Prop
  | .annot a, f => atAnnotation (kinds a.tokens ++ f) = true ∧ a.Fits n f
  | .keyword t, _ => t.kind.isModifierKeyword = true
  | .contextual ⟨word, []⟩, f => atSealed (word.kind :: f) = true
  | .contextual ⟨non, [hyphen, word]⟩, _ =>
    atNonSealed [non.kind, hyphen.kind, word.kind] = true
  | .contextual _, _ => False

/-- **`Modifier.listFits n ms f`** — the modifiers fit one after the other, and `f` begins with no
other one. -/
def Modifier.listFits (n : Nat) (ms : List Modifier) (f : List TokenKind) : Prop :=
  Parser.chain Modifier.tokens (fun _ m f => m.Fits n f) (fun _ _ => ()) () ms f ∧
    startsModifier f = false

namespace Parser

variable {s : ParserState} {rest : List Token} {g : Grammar} {n : Nat}

theorem Modifier.tokens_ne_nil (m : Modifier) : m.tokens ≠ [] := by
  cases m with
  | keyword t => exact List.cons_ne_nil _ _
  | contextual words => exact List.cons_ne_nil _ _
  | annot a => exact a.tokens_ne_nil

/-- Only an at sign begins an annotation. -/
theorem atAnnotation_of_ne {k : TokenKind} (h : k ≠ .at) (ks : List TokenKind) :
    atAnnotation (k :: ks) = false := by
  cases k <;> first | rfl | exact absurd rfl h

/-- A keyword that may be a modifier is a keyword. -/
theorem exists_keyword_of_isModifierKeyword {k : TokenKind} (h : k.isModifierKeyword = true) :
    ∃ w, k = .keyword w := by
  cases k <;> first | exact ⟨_, rfl⟩ | cases h

/-- The word `sealed` is spelled like an identifier. -/
theorem eq_identifier_of_atSealed {k : TokenKind} {ks : List TokenKind}
    (h : atSealed (k :: ks) = true) : k = .identifier "sealed" := by
  unfold atSealed at h
  split at h
  · rename_i heq
    obtain ⟨rfl, rfl⟩ := List.cons.inj heq
    simp only [Bool.and_eq_true, decide_eq_true_eq] at h
    rw [h.1]
  · cases h

/-- The words `non-sealed` are an identifier, a minus sign and another identifier. -/
theorem atNonSealed_iff {k l m : TokenKind} {ks : List TokenKind} :
    atNonSealed (k :: l :: m :: ks) = true ↔
      k = .identifier "non" ∧ l = .operator "-" ∧ m = .identifier "sealed" := by
  constructor
  · intro h
    unfold atNonSealed at h
    split at h
    · rename_i heq
      simp only [List.cons.injEq] at heq
      obtain ⟨rfl, rfl, rfl, rfl⟩ := heq
      simp only [Bool.and_eq_true, decide_eq_true_eq] at h
      obtain ⟨⟨rfl, rfl⟩, rfl⟩ := h
      exact ⟨rfl, rfl, rfl⟩
    · cases h
  · rintro ⟨rfl, rfl, rfl⟩
    rfl

theorem modifierRound_reads (hg : g.Exact n) :
    RoundReads (modifierRound g) Modifier.tokens (fun _ m f => m.Fits n f) (fun _ _ => ())
      (fun _ => []) (fun _ _ f => startsModifier f = false) := by
  intro x s rest
  refine ⟨fun item y => ?_, fun b => ?_⟩
  · simp only [modifierRound, takes_bind, takes_ahead, takes_ite, hg.annot.reads _ _ _,
      ParserState.on_rest, takes_pure, Step.again.injEq, and_true, and_assoc, Bool.not_eq_true,
      takes_token, reduceCtorEq, false_and, and_false, or_false, exists_and_left, exists_eq_left,
      atAnnotation_take, head?_take_three, atSealed_take, atNonSealed_take, true_and]
    constructor
    · rintro (⟨hat, a, mid, hs, hf, rfl, rfl⟩ | ⟨hat, ⟨hk, t, mid, hs, -, rfl, rfl⟩ |
        ⟨hk, ⟨hsealed, word, mid, hs, -, rfl, rfl⟩ | ⟨hsealed, hnon, non, mid, hs, -, hyphen, mid',
          rfl, -, word, mid, rfl, -, rfl, rfl⟩⟩⟩)
      · rw [hs, kinds_append] at hat
        exact ⟨.annot a, rfl, hs, hat, hf⟩
      · rw [hs] at hk
        exact ⟨.keyword t, rfl, hs, by simpa [Modifier.Fits] using hk⟩
      · rw [hs] at hsealed
        exact ⟨.contextual ⟨word, []⟩, rfl, hs, hsealed⟩
      · rw [hs] at hnon
        exact ⟨.contextual ⟨non, [hyphen, word]⟩, rfl, hs, atNonSealed_iff.2 (atNonSealed_iff.1 hnon)⟩
    · rintro ⟨m, rfl, hs, hf⟩
      -- each kind of modifier begins in its own way, so the tests before its branch fail
      rcases m with t | ⟨non, _ | ⟨hyphen, _ | ⟨word, _ | ⟨extra, others⟩⟩⟩⟩ | a
      · obtain ⟨w, hw⟩ := exists_keyword_of_isModifierKeyword hf
        refine .inr ⟨?_, .inl ⟨?_, t, rest, hs, by rw [hw]; rfl, rfl, rfl⟩⟩
        · rw [hs]
          exact atAnnotation_of_ne (by rw [hw]; exact TokenKind.noConfusion) _
        · rw [hs]
          exact hf
      · have hw := eq_identifier_of_atSealed hf
        refine .inr ⟨?_, .inr ⟨?_, .inl ⟨?_, non, rest, hs, by rw [hw]; rfl, rfl, rfl⟩⟩⟩
        · rw [hs]
          exact atAnnotation_of_ne (by rw [hw]; exact TokenKind.noConfusion) _
        · rw [hs]
          simp [Modifier.tokens, Words.tokens, hw, TokenKind.isModifierKeyword]
        · rw [hs]
          exact hf
      · exact hf.elim
      · obtain ⟨hn, hh, hw⟩ := atNonSealed_iff.1 hf
        refine .inr ⟨?_, .inr ⟨?_, .inr ⟨?_, ?_, non, _, hs, by rw [hn]; rfl, hyphen, _, rfl,
          by rw [hh]; rfl, word, rest, rfl, by rw [hw]; rfl, rfl, rfl⟩⟩⟩
        · rw [hs]
          exact atAnnotation_of_ne (by rw [hn]; exact TokenKind.noConfusion) _
        · rw [hs]
          simp [Modifier.tokens, Words.tokens, hn, TokenKind.isModifierKeyword]
        · rw [hs]
          simp [Modifier.tokens, Words.tokens, hn, hh, atSealed]
        · rw [hs]
          exact atNonSealed_iff.2 ⟨hn, hh, hw⟩
      · exact hf.elim
      · obtain ⟨hat, hf⟩ := hf
        exact .inl ⟨by rw [hs]; simpa [Modifier.tokens] using hat, a, rest, hs, hf, rfl, rfl⟩
  · simp only [modifierRound, takes_bind, takes_ahead, takes_ite, takes_pure, reduceCtorEq,
      ParserState.on_rest, false_and, and_false, exists_const, exists_false, Bool.not_eq_true,
      takes_token, true_and, false_or, and_assoc, exists_and_left, exists_eq_left,
      atAnnotation_take, head?_take_three, atSealed_take, atNonSealed_take, List.nil_append,
      startsModifier, Bool.or_eq_false_iff]
    constructor
    · rintro ⟨h₁, h₂, h₃, h₄, rfl⟩
      exact ⟨rfl, h₁, h₂, h₃, h₄⟩
    · rintro ⟨rfl, h₁, h₂, h₃, h₄⟩
      exact ⟨h₁, h₂, h₃, h₄, rfl⟩

theorem modifierRound_loud (hg : g.Exact n) (x : Unit) : (modifierRound g x).Loud := by
  refine .bind .ahead fun _ => .ite (fun _ => ?_) fun _ => .ite (fun _ => ?_) fun _ =>
    .ite (fun _ => ?_) fun _ => .ite (fun _ => ?_) fun _ => .pure _
  · exact .bind hg.annot.loud fun _ => .pure _
  · exact .bind .token fun _ => .pure _
  · exact .bind .token fun _ => .pure _
  · exact .bind .token fun _ => .bind .token fun _ => .bind .token fun _ => .pure _

theorem modifiers_exact (hg : g.Exact n) :
    (modifiers g).Exact Modifier.listTokens (Modifier.listFits n) := by
  have round := modifierRound_reads hg
  have nonempty : ∀ (x : Unit) (m : Modifier) f, m.Fits n f → m.tokens ≠ [] :=
    fun _ m _ _ => Modifier.tokens_ne_nil m
  refine ⟨fun s ms rest => ?_, .bind (.rounds (modifierRound_loud hg) (round.steady nonempty))
    fun _ => .pure _⟩
  simp only [modifiers, takes_bind, round.takes_rounds nonempty, List.nil_append, takes_pure,
    ParserState.on_rest, and_assoc, Prod.exists, exists_const, Modifier.listTokens,
    Modifier.listFits]
  constructor
  · rintro ⟨ms, mid, hs, hc, hstop, rfl, rfl⟩
    exact ⟨hs, hc, hstop⟩
  · rintro ⟨hs, hc, hstop⟩
    exact ⟨ms, rest, hs, hc, hstop, rfl, rfl⟩

end Parser

/-! ## Members -/

theorem TokenTree.kinds_ne_nil (tree : TokenTree) : kinds tree.tokens ≠ [] := by
  simpa [kinds] using tree.tokens_ne_nil

/-- Whether a token of a kind comes next shows at the first token. -/
theorem atKind_append {k : TokenKind} {ks : List TokenKind} (h : ks ≠ []) (f : List TokenKind) :
    atKind k (ks ++ f) = atKind k ks := by
  cases ks with
  | nil => exact absurd rfl h
  | cons l ks => rfl

/-- What a member has shown after a tree. -/
def Parser.MemberHead.after (head : Parser.MemberHead) (tree : TokenTree) : Parser.MemberHead :=
  let equals := head.equals || (!head.parameters && atKind .equals (kinds tree.tokens))
  { parameters := head.parameters || (!equals && Parser.isParenthesized tree)
    equals
    default := head.default || atKind (.keyword .defaultWord) (kinds tree.tokens) }

/-- A member that has shown `head` ends before `f`. -/
def endsMember (head : Parser.MemberHead) (f : List TokenKind) : Bool :=
  atKind .semicolon f || (!head.equals && !head.default && atKind (.opening .brace) f)

/-- **`fitsEnd n head stop f`** — the semicolon or the body fits a member that has shown `head`. -/
def fitsEnd (n : Nat) (head : Parser.MemberHead) : MethodBody × Bool → List TokenKind → Prop
  | (.semicolon t, isField), _ =>
    t.kind = .semicolon ∧ isField = (!head.parameters || head.equals)
  | (.block g, isField), f =>
    isField = false ∧ head.equals = false ∧ head.default = false ∧ g.delimiter = .brace ∧ g.Fits n f

/-- The trees of a field or a method, as long as it goes on. -/
def memberChain (n : Nat) (head : Parser.MemberHead) (trees : List TokenTree)
    (f : List TokenKind) : Prop :=
  Parser.chain TokenTree.tokens
    (fun head tree f => endsMember head (kinds tree.tokens ++ f) = false ∧ tree.Fits n f)
    Parser.MemberHead.after head trees f

/-- **`fitsPlain n modifiers trees stop f`** — a field or a method fits the budget `n` before `f`. -/
def fitsPlain (n : Nat) (modifiers : List Modifier) (trees : List TokenTree)
    (stop : MethodBody × Bool) (f : List TokenKind) : Prop :=
  let after := kinds (TokenTree.listTokens trees ++ stop.1.tokens) ++ f
  Modifier.listFits n modifiers after ∧ atKind (.opening .brace) after = false ∧
    atTypeWord after = false ∧ memberChain n {} trees (kinds stop.1.tokens ++ f) ∧
    fitsEnd n (trees.foldl Parser.MemberHead.after {}) stop f

/-- **`fitsIntroducer kind words`** — the words declare a type of that kind. -/
def fitsIntroducer : TypeKind → Words → Prop
  | .class, ⟨t, []⟩ => t.kind = .keyword .classWord
  | .interface, ⟨t, []⟩ => t.kind = .keyword .interfaceWord
  | .enumeration, ⟨t, []⟩ => t.kind = .keyword .enumWord
  | .record, ⟨t, []⟩ => t.kind = .identifier "record"
  | .annotationType, ⟨sigil, [word]⟩ =>
    sigil.kind = .at ∧ word.kind = .keyword .interfaceWord
  | _, _ => False

/-- One word declares a type, or an at sign and a word. -/
theorem fitsIntroducer.shape {kind : TypeKind} {words : Words} (h : fitsIntroducer kind words) :
    (∃ t, words = ⟨t, []⟩ ∧ (t.kind = .keyword .classWord ∨ t.kind = .keyword .interfaceWord ∨
      t.kind = .keyword .enumWord ∨ t.kind = .identifier "record")) ∨
    ∃ sigil word, words = ⟨sigil, [word]⟩ ∧ sigil.kind = .at ∧ word.kind = .keyword .interfaceWord := by
  rcases words with ⟨t, _ | ⟨word, _ | ⟨other, others⟩⟩⟩
  · refine .inl ⟨t, rfl, ?_⟩
    cases kind with
    | «class» => exact .inl h
    | interface => exact .inr (.inl h)
    | enumeration => exact .inr (.inr (.inl h))
    | record => exact .inr (.inr (.inr h))
    | annotationType => cases h
  · cases kind with
    | annotationType => exact .inr ⟨t, word, rfl, h⟩
    | _ => cases h
  · cases kind <;> cases h

/-- The header of a type ends before `f`. -/
def endsHeader (f : List TokenKind) : Bool := atKind (.opening .brace) f || atKind .semicolon f

/-- **`fitsHeader n trees f`** — the trees fit between the name of a type and its body in `f`. -/
def fitsHeader (n : Nat) (trees : List TokenTree) (f : List TokenKind) : Prop :=
  TokenTree.listFits n trees f ∧ avoids endsHeader trees f

/-- The constants of an enumeration end before `f`, without a semicolon. -/
def endsConstants (f : List TokenKind) : Bool := atEnd f || atKind (.closing .brace) f

/-- **`fitsConstants n trees semicolon f`** — the constants of an enumeration fit before `f`. -/
def fitsConstants (n : Nat) (trees : List TokenTree) (semicolon : Option Token)
    (f : List TokenKind) : Prop :=
  TokenTree.listFits n trees (kinds semicolon.toList ++ f) ∧
    avoids (atKind .semicolon) trees (kinds semicolon.toList ++ f) ∧
    match semicolon with
    | some t => t.kind = .semicolon
    | none => endsConstants f = true

/-- The tokens of a type declaration after its modifiers. -/
def TypeDeclaration.ownTokens (d : TypeDeclaration) : List Token :=
  d.introducer.tokens ++ d.name :: (TokenTree.listTokens d.header ++ d.opening ::
    (Member.listTokens d.members ++ [d.closing]))

theorem TypeDeclaration.tokens_eq (d : TypeDeclaration) :
    d.tokens = Modifier.listTokens d.modifiers ++ d.ownTokens := by
  cases d
  simp [TypeDeclaration.tokens, TypeDeclaration.ownTokens]

mutual

/-- **`d.Fits n f`** — the type declaration fits the budget `n` before `f`, its modifiers aside. -/
def TypeDeclaration.Fits (n : Nat) : TypeDeclaration → List TokenKind → Prop
  | ⟨_, kind, introducer, name, header, opening, members, closing⟩, f =>
    fitsIntroducer kind introducer ∧ name.kind.isIdentifier ∧
      fitsHeader n header
        (opening.kind :: (kinds (Member.listTokens members) ++ closing.kind :: f)) ∧
      opening.kind = .opening .brace ∧ 0 < n ∧
      Member.listFits (n - 1) (kind = .enumeration) members (closing.kind :: f) ∧
      closing.kind = .closing .brace

/-- **`m.Fits n first f`** — the member fits the budget `n` before `f`. Constants may only come
first, and in the body of an enumeration nothing else does. -/
def Member.Fits (n : Nat) (first : Bool) : Member → List TokenKind → Prop
  | .constants trees semicolon, f =>
    first = true ∧ ¬ (trees = [] ∧ semicolon = none) ∧ fitsConstants n trees semicolon f
  | .empty semicolon, _ => first = false ∧ semicolon.kind = .semicolon
  | .block modifiers block, f =>
    first = false ∧ Modifier.listFits n modifiers (kinds block.tokens ++ f) ∧
      block.delimiter = .brace ∧ block.Fits n f
  | .type d, f =>
    first = false ∧ Modifier.listFits n d.modifiers (kinds d.ownTokens ++ f) ∧
      atTypeWord (kinds d.ownTokens ++ f) = true ∧ d.Fits n f
  | .field modifiers trees semicolon, f =>
    first = false ∧ atKind .semicolon (kinds (Modifier.listTokens modifiers ++
        (TokenTree.listTokens trees ++ [semicolon]))) = false ∧
      fitsPlain n modifiers trees (.semicolon semicolon, true) f
  | .method modifiers trees body, f =>
    first = false ∧ atKind .semicolon (kinds (Modifier.listTokens modifiers ++
        (TokenTree.listTokens trees ++ body.tokens))) = false ∧
      fitsPlain n modifiers trees (body, false) f

/-- Several members, one after the other. -/
def Member.listFits (n : Nat) (first : Bool) : List Member → List TokenKind → Prop
  | [], _ => True
  | m :: ms, f =>
    m.Fits n first (kinds (Member.listTokens ms) ++ f) ∧ Member.listFits n false ms f

end

namespace Parser

variable {s : ParserState} {rest : List Token} {g : Grammar} {n : Nat}

/-- A fitting modifier begins no other part of a declaration. -/
theorem modifier_begins {m : Modifier} {f : List TokenKind} (h : m.Fits n f) (ks : List TokenKind) :
    atEnd (kinds m.tokens ++ ks) = false ∧ atClosing (kinds m.tokens ++ ks) = false ∧
      atOpening (kinds m.tokens ++ ks) = false ∧ atKind .semicolon (kinds m.tokens ++ ks) = false := by
  match m, h with
  | .annot a, ⟨_, h⟩ =>
    obtain ⟨ks, hks⟩ := h.kinds
    simp [Modifier.tokens, hks, atEnd, atClosing, atOpening, atKind, TokenKind.isClosing,
      TokenKind.isOpening, TokenKind.opens?]
  | .keyword t, h =>
    obtain ⟨w, hw⟩ := exists_keyword_of_isModifierKeyword h
    simp [Modifier.tokens, hw, atEnd, atClosing, atOpening, atKind, TokenKind.isClosing,
      TokenKind.isOpening, TokenKind.opens?]
  | .contextual ⟨word, []⟩, h =>
    simp [Modifier.tokens, Words.tokens, eq_identifier_of_atSealed h, atEnd, atClosing, atOpening,
      atKind, TokenKind.isClosing, TokenKind.isOpening, TokenKind.opens?]
  | .contextual ⟨non, [hyphen, word]⟩, h =>
    simp [Modifier.tokens, Words.tokens, (atNonSealed_iff.1 h).1, atEnd, atClosing, atOpening,
      atKind, TokenKind.isClosing, TokenKind.isOpening, TokenKind.opens?]

/-! ## Fields and methods -/

theorem memberRound_reads (hg : g.Exact n) :
    RoundReads (memberRound g) TokenTree.tokens
      (fun head tree f => endsMember head (kinds tree.tokens ++ f) = false ∧ tree.Fits n f)
      MemberHead.after (fun stop => stop.1.tokens) (fun head stop f => fitsEnd n head stop f) := by
  intro head s rest
  refine ⟨fun item y => ?_, fun b => ?_⟩
  · simp only [memberRound, Bool.and_eq_true, Bool.not_eq_eq_eq_not, Bool.not_true, and_assoc,
      Bool.or_eq_true, Bool.not_or, Bool.not_and, Bool.not_not, takes_bind, takes_ahead, takes_ite,
      takes_token, ParserState.on_rest, takes_pure, reduceCtorEq, false_and, and_false,
      exists_const, exists_false, Bool.not_eq_true, not_and, not_takes_unexpected, not_or,
      hg.tree.reads _ _ _, Step.again.injEq, false_or, exists_and_left, exists_eq_left, atKind_take,
      atEnd_take, atClosing_take]
    constructor
    · rintro ⟨hsemi, hbrace, -, -, tree, mid, hs, hf, rfl, rfl, rfl⟩
      rw [hs, kinds_append] at hsemi hbrace
      refine ⟨tree, rfl, ?_, hs, ?_, hf⟩
      · simp [MemberHead.after, hs, atKind_append tree.kinds_ne_nil]
      · cases head.equals <;> cases head.default <;> simp_all [endsMember]
    · rintro ⟨tree, rfl, rfl, hs, hends, hf⟩
      obtain ⟨hend, hclosing⟩ := hf.begins (kinds rest)
      simp only [endsMember, Bool.or_eq_false_iff, Bool.and_eq_false_iff] at hends
      rw [hs, kinds_append]
      refine ⟨hends.1, ?_, hend, hclosing, tree, rest, rfl, hf, rfl, ?_, rfl⟩
      · intro he hd
        simpa [he, hd] using hends.2
      · simp [MemberHead.after, atKind_append tree.kinds_ne_nil]
  · simp only [memberRound, Bool.and_eq_true, Bool.not_eq_eq_eq_not, Bool.not_true, and_assoc,
      Bool.or_eq_true, Bool.not_or, Bool.not_and, Bool.not_not, takes_bind, takes_ahead, takes_ite,
      takes_token, ParserState.on_rest, takes_pure, Step.stop.injEq, Bool.not_eq_true,
      hg.group.reads _ _ _, not_and, not_takes_unexpected, and_false, not_or, reduceCtorEq,
      false_and, exists_const, exists_false, or_self, or_false, exists_and_left, exists_eq_left,
      atKind_take]
    constructor
    · rintro (⟨hk, t, mid, hs, -, rfl, rfl⟩ | ⟨-, he, hd, hk, group, mid, hs, hf, rfl, rfl⟩)
      · rw [hs] at hk
        exact ⟨hs, by simpa [atKind] using hk, rfl⟩
      · refine ⟨hs, rfl, he, hd, ?_, hf⟩
        rw [hs] at hk
        have := (Group.fits_iff.1 hf).2.1
        simpa [Group.tokens, atKind, this] using hk
    · obtain ⟨body, isField⟩ := b
      cases body with
      | semicolon t =>
        rintro ⟨hs, hk, rfl⟩
        exact .inl ⟨by rw [hs]; simp [MethodBody.tokens, atKind, hk], t, rest, hs,
          by rw [hk]; rfl, rfl, rfl⟩
      | block group =>
        rintro ⟨hs, rfl, he, hd, hb, hf⟩
        have ho := (Group.fits_iff.1 hf).2.1
        refine .inr ⟨?_, he, hd, ?_, group, rest, hs, hf, rfl, rfl⟩
        · rw [hs]
          simp [MethodBody.tokens, Group.tokens, atKind, ho]
        · rw [hs]
          simp [MethodBody.tokens, Group.tokens, atKind, ho, hb]

theorem memberRound_loud (hg : g.Exact n) (head : MemberHead) : (memberRound g head).Loud := by
  refine .bind .ahead fun _ => .ite (fun _ => ?_) fun _ => .ite (fun _ => ?_) fun _ =>
    .ite (fun _ => .unexpected _) fun _ => ?_
  · exact .bind .token fun _ => .pure _
  · exact .bind hg.group.loud fun _ => .pure _
  · exact .bind hg.tree.loud fun _ => .pure _

/-- The tokens of a field or a method after its modifiers. -/
def plainTokens : Member → List Token
  | .field _ trees semicolon => TokenTree.listTokens trees ++ [semicolon]
  | .method _ trees body => TokenTree.listTokens trees ++ body.tokens
  | _ => []

/-- The field or method that ends in `stop`. -/
def ofStop (modifiers : List Modifier) (trees : List TokenTree) : MethodBody × Bool → Member
  | (.semicolon t, true) => .field modifiers trees t
  | (body, _) => .method modifiers trees body

theorem tokens_ofStop (modifiers : List Modifier) (trees : List TokenTree)
    (stop : MethodBody × Bool) :
    plainTokens (ofStop modifiers trees stop) = TokenTree.listTokens trees ++ stop.1.tokens ∧
      (ofStop modifiers trees stop).tokens =
        Modifier.listTokens modifiers ++ (TokenTree.listTokens trees ++ stop.1.tokens) := by
  match stop with
  | (.semicolon t, true) => simp [ofStop, plainTokens, Member.tokens, MethodBody.tokens]
  | (.semicolon t, false) => simp [ofStop, plainTokens, Member.tokens, MethodBody.tokens]
  | (.block g, isField) => simp [ofStop, plainTokens, Member.tokens, MethodBody.tokens]

/-- A field or a method fits if its parts do. -/
theorem fits_ofStop {modifiers : List Modifier} {trees : List TokenTree} {stop : MethodBody × Bool}
    {f : List TokenKind}
    (hk : atKind .semicolon (kinds (Modifier.listTokens modifiers ++
      (TokenTree.listTokens trees ++ stop.1.tokens))) = false)
    (h : fitsPlain n modifiers trees stop f) :
    (ofStop modifiers trees stop).Fits n false f := by
  match stop with
  | (.semicolon t, true) => exact ⟨rfl, hk, h⟩
  | (.semicolon t, false) => exact ⟨rfl, hk, h⟩
  | (.block g, isField) =>
    obtain ⟨hms, hb, hw, hc, -, he⟩ := h
    exact ⟨rfl, hk, hms, hb, hw, hc, rfl, he⟩

/-- **`plainFits n modifiers m f`** — the member is a field or a method with these modifiers, and the
rest of it fits. -/
def plainFits (n : Nat) (modifiers : List Modifier) (m : Member) (f : List TokenKind) : Prop :=
  ∃ trees stop, memberChain n {} trees (kinds stop.1.tokens ++ f) ∧
    fitsEnd n (trees.foldl MemberHead.after {}) stop f ∧
    m = ofStop modifiers trees stop

theorem fieldOrMethod_exact (hg : g.Exact n) (modifiers : List Modifier) :
    (fieldOrMethod modifiers g).Exact plainTokens (plainFits n modifiers) := by
  have round := memberRound_reads hg
  have nonempty : ∀ (head : MemberHead) (tree : TokenTree) f,
      endsMember head (kinds tree.tokens ++ f) = false ∧ tree.Fits n f → tree.tokens ≠ [] :=
    fun _ tree _ _ => tree.tokens_ne_nil
  refine ⟨fun s m rest => ?_, ?_⟩
  · simp only [fieldOrMethod, takes_bind, round.takes_rounds nonempty, ←
      TokenTree.listTokens_eq_flatMap, kinds_append, and_assoc]
    constructor
    · rintro ⟨⟨trees, body, isField⟩, mid, hs, hc, he, h⟩
      rcases body with group | t
      · obtain ⟨rfl, rfl⟩ := takes_pure.1 h
        exact ⟨by simp [hs, plainTokens], trees, (.block group, isField), hc, he, rfl⟩
      cases isField with
      | true =>
        obtain ⟨rfl, rfl⟩ := takes_pure.1 h
        exact ⟨by simp [hs, plainTokens, MethodBody.tokens], trees, (.semicolon t, true), hc, he, rfl⟩
      | false =>
        obtain ⟨rfl, rfl⟩ := takes_pure.1 h
        exact ⟨by simp [hs, plainTokens], trees, (.semicolon t, false), hc, he, rfl⟩
    · rintro ⟨hs, trees, stop, hc, he, rfl⟩
      rw [(tokens_ofStop modifiers trees stop).1, List.append_assoc] at hs
      refine ⟨(trees, stop), rest, hs, hc, he, ?_⟩
      rcases stop with ⟨group | t, _ | _⟩ <;> exact takes_pure.2 ⟨rfl, rfl⟩
  · refine .bind (.rounds (memberRound_loud hg) (round.steady nonempty)) fun result => ?_
    obtain ⟨trees, body, isField⟩ := result
    cases body with
    | semicolon t => exact .ite (fun _ => .pure _) fun _ => .pure _
    | block g => exact .pure _

/-! ## Members of all sorts -/

/-- What declares a type is no bracket and no semicolon. -/
theorem begins_of_atTypeWord {ks : List TokenKind} (h : atTypeWord ks = true) :
    atOpening ks = false ∧ atKind .semicolon ks = false ∧ atEnd ks = false ∧
      atClosing ks = false := by
  cases ks with
  | nil => cases h
  | cons k ks =>
    cases k <;> first
      | cases h
      | simp [atOpening, atKind, atEnd, atClosing, TokenKind.isOpening, TokenKind.opens?,
          TokenKind.isClosing]

/-- No opening bracket comes next, in particular not this one. -/
theorem atKind_opening_of_atOpening {ks : List TokenKind} (h : atOpening ks = false)
    (delimiter : Delimiter) : atKind (.opening delimiter) ks = false := by
  cases ks with
  | nil => rfl
  | cons k ks => cases k <;> simp_all [atOpening, atKind, TokenKind.isOpening, TokenKind.opens?]

/-- After modifiers, or where there are none, no semicolon comes. -/
theorem atKind_semicolon_modifiers {ms : List Modifier} {f : List TokenKind}
    (h : Modifier.listFits n ms f) (hf : atKind .semicolon f = false) :
    atKind .semicolon (kinds (Modifier.listTokens ms) ++ f) = false := by
  cases ms with
  | nil => exact hf
  | cons m ms =>
    rw [Modifier.listTokens, List.flatMap_cons, kinds_append, List.append_assoc]
    exact (modifier_begins h.1.1 _).2.2.2

/-- The parser of a type declaration reads the tokens after its modifiers. -/
def TypeExact (type : List Modifier → Parser TypeDeclaration) (n : Nat) : Prop :=
  ∀ ms, (type ms).Exact TypeDeclaration.ownTokens fun d f => d.modifiers = ms ∧ d.Fits n f

/-- A field or a method has a token. -/
theorem kinds_ne_nil (ms : List Modifier) (trees : List TokenTree) (stop : MethodBody × Bool) :
    kinds (Modifier.listTokens ms ++ (TokenTree.listTokens trees ++ stop.1.tokens)) ≠ [] := by
  obtain ⟨_ | _, _⟩ := stop <;> simp [MethodBody.tokens, Group.tokens]

/-- The tokens of a member after its modifiers. -/
def tokensAfterModifiers : Member → List Token
  | .block _ block => block.tokens
  | .type d => d.ownTokens
  | m => plainTokens m

/-- **`fitsAfterModifiers n modifiers m f`** — the member has these modifiers, and what comes after them
fits. -/
def fitsAfterModifiers (n : Nat) (modifiers : List Modifier) (m : Member) (f : List TokenKind) : Prop :=
  match m with
  | .block ms block => ms = modifiers ∧ block.delimiter = .brace ∧ block.Fits n f
  | .type d => d.modifiers = modifiers ∧ atTypeWord (kinds d.ownTokens ++ f) = true ∧ d.Fits n f
  | m => atKind (.opening .brace) (kinds (plainTokens m) ++ f) = false ∧
      atTypeWord (kinds (plainTokens m) ++ f) = false ∧ plainFits n modifiers m f

/-- What is read of a member after its modifiers. -/
def memberAfter (g : Grammar) (type : List Modifier → Parser TypeDeclaration)
    (modifiers : List Modifier) : Parser Member := do
  let ks ← ahead
  if atKind (.opening .brace) ks then
    return .block modifiers (← g.group)
  else if atTypeWord ks then
    return .type (← type modifiers)
  else
    fieldOrMethod modifiers g

theorem member_eq (g : Grammar) (type : List Modifier → Parser TypeDeclaration) :
    member g type = (do
      if atKind .semicolon (← ahead) then
        return .empty (← token)
      let ms ← modifiers g
      memberAfter g type ms) := rfl

theorem memberAfter_exact (hg : g.Exact n) {type : List Modifier → Parser TypeDeclaration}
    (ht : TypeExact type n) (ms : List Modifier) :
    (memberAfter g type ms).Exact tokensAfterModifiers (fitsAfterModifiers n ms) := by
  refine ⟨fun s m rest => ?_, ?_⟩
  · simp only [memberAfter, takes_bind, takes_ahead, takes_ite, takes_pure, ParserState.on_rest,
      and_assoc, Bool.not_eq_true, hg.group.reads _ _ _, (ht _).reads _ _ _,
      (fieldOrMethod_exact hg _).reads _ _ _, exists_and_left, exists_eq_left, atKind_take,
      atTypeWord_take]
    constructor
    · rintro (⟨hb, group, mid, hs, hf, rfl, rfl⟩ |
        ⟨hb, ⟨hw, d, mid, hs, hms, hf, rfl, rfl⟩ | ⟨hw, hs, hf⟩⟩)
      · have ho := (Group.fits_iff.1 hf).2.1
        rw [hs] at hb
        exact ⟨hs, rfl, by simpa [Group.tokens, atKind, ho] using hb, hf⟩
      · rw [hs, kinds_append] at hw
        exact ⟨hs, hms, hw, hf⟩
      · rw [hs, kinds_append] at hb hw
        -- whether it is a field or a method shows in its end
        obtain ⟨trees, ⟨_ | _, _ | _⟩, -, -, rfl⟩ := id hf
        all_goals exact ⟨hs, hb, hw, hf⟩
    · rintro ⟨hs, hf⟩
      have read : kinds s.rest = kinds (tokensAfterModifiers m) ++ kinds rest := by
        rw [hs, kinds_append]
      cases m with
      | block ms' group =>
        obtain ⟨rfl, hd, hf⟩ := hf
        have ho := (Group.fits_iff.1 hf).2.1
        refine .inl ⟨?_, group, rest, hs, hf, rfl, rfl⟩
        rw [read]
        simp [tokensAfterModifiers, Group.tokens, atKind, ho, hd]
      | type d =>
        obtain ⟨hms, hw, hf⟩ := hf
        have ho := (begins_of_atTypeWord hw).1
        rw [read]
        exact .inr ⟨atKind_opening_of_atOpening ho .brace, .inl ⟨hw, d, rest, hs, hms, hf, rfl, rfl⟩⟩
      | _ =>
        obtain ⟨hb, hw, hf⟩ := hf
        rw [read]
        exact .inr ⟨hb, .inr ⟨hw, hs, hf⟩⟩
  · refine .bind .ahead fun _ => .ite (fun _ => ?_) fun _ => .ite (fun _ => ?_) fun _ =>
      (fieldOrMethod_exact hg ms).loud
    · exact .bind hg.group.loud fun _ => .pure _
    · exact .bind (ht ms).loud fun _ => .pure _

theorem tokensAfterModifiers_ofStop (ms : List Modifier) (trees : List TokenTree)
    (stop : MethodBody × Bool) :
    tokensAfterModifiers (ofStop ms trees stop) = TokenTree.listTokens trees ++ stop.1.tokens := by
  rw [← (tokens_ofStop ms trees stop).1]
  obtain ⟨_ | _, _ | _⟩ := stop <;> rfl

/-- Whether a semicolon comes first shows in the tokens of a field or a method. -/
theorem atKind_ofStop (ms : List Modifier) (trees : List TokenTree) (stop : MethodBody × Bool)
    (f : List TokenKind) :
    atKind .semicolon (kinds (ofStop ms trees stop).tokens ++ f) =
      atKind .semicolon (kinds (Modifier.listTokens ms ++
        (TokenTree.listTokens trees ++ stop.1.tokens))) := by
  rw [(tokens_ofStop ms trees stop).2, atKind_append (kinds_ne_nil ms trees stop)]

/-- Modifiers and what comes after them are all that a member has. -/
theorem tokens_eq_of_fitsAfterModifiers {ms : List Modifier} {m : Member} {f : List TokenKind}
    (h : fitsAfterModifiers n ms m f) :
    m.tokens = Modifier.listTokens ms ++ tokensAfterModifiers m := by
  cases m with
  | type d =>
    obtain ⟨rfl, -⟩ := h
    exact d.tokens_eq
  | block ms' group =>
    obtain ⟨rfl, -⟩ := h
    rfl
  | _ =>
    obtain ⟨-, -, trees, stop, -, -, hm⟩ := h
    rw [hm, tokensAfterModifiers_ofStop, (tokens_ofStop ms trees stop).2]

/-- What fits as a member, the first one apart, is a semicolon, or modifiers and what comes after them. -/
theorem fits_iff_afterModifiers {m : Member} {f : List TokenKind} :
    m.Fits n false f ↔ (∃ t, m = .empty t ∧ t.kind = .semicolon) ∨
      ∃ ms, Modifier.listFits n ms (kinds (tokensAfterModifiers m) ++ f) ∧
        fitsAfterModifiers n ms m f ∧ atKind .semicolon (kinds m.tokens ++ f) = false := by
  -- a field or a method, whichever its end makes of it
  have plain {ms : List Modifier} {trees : List TokenTree} {stop : MethodBody × Bool}
      (hk : atKind .semicolon (kinds (Modifier.listTokens ms ++
        (TokenTree.listTokens trees ++ stop.1.tokens))) = false)
      (h : fitsPlain n ms trees stop f) :
      ∃ ms', Modifier.listFits n ms' (kinds (tokensAfterModifiers (ofStop ms trees stop)) ++ f) ∧
        fitsAfterModifiers n ms' (ofStop ms trees stop) f ∧
        atKind .semicolon (kinds (ofStop ms trees stop).tokens ++ f) = false := by
    obtain ⟨hms, hb, hw, hc, he⟩ := h
    refine ⟨ms, by rwa [tokensAfterModifiers_ofStop], ?_, by rwa [atKind_ofStop]⟩
    rw [← (tokens_ofStop ms trees stop).1] at hb hw
    obtain ⟨_ | _, _ | _⟩ := stop <;> exact ⟨hb, hw, trees, _, hc, he, rfl⟩
  constructor
  · intro h
    cases m with
    | field ms trees t =>
      obtain ⟨-, hk, hplain⟩ := h
      exact .inr (plain hk hplain)
    | method ms trees body =>
      obtain ⟨-, hk, hplain⟩ := h
      cases body with
      | semicolon t => exact .inr (plain hk hplain)
      | block group => exact .inr (plain hk hplain)
    | type d =>
      obtain ⟨-, hms, hw, hf⟩ := h
      have semi := atKind_semicolon_modifiers hms (begins_of_atTypeWord hw).2.1
      rw [← List.append_assoc, ← kinds_append, ← d.tokens_eq] at semi
      exact .inr ⟨d.modifiers, hms, ⟨rfl, hw, hf⟩, semi⟩
    | block ms group =>
      obtain ⟨-, hms, hd, hf⟩ := h
      have ho := (Group.fits_iff.1 hf).2.1
      have semi := atKind_semicolon_modifiers hms (by simp [Group.tokens, atKind, ho])
      rw [← List.append_assoc, ← kinds_append] at semi
      exact .inr ⟨ms, hms, ⟨rfl, hd, hf⟩, semi⟩
    | constants trees semicolon => exact absurd h.1 Bool.false_ne_true
    | empty t => exact .inl ⟨t, rfl, h.2⟩
  · rintro (⟨t, rfl, hk⟩ | ⟨ms, hms, hf, hk⟩)
    · exact ⟨rfl, hk⟩
    cases m with
    | type d =>
      obtain ⟨rfl, hw, hf⟩ := hf
      exact ⟨rfl, hms, hw, hf⟩
    | block ms' group =>
      obtain ⟨rfl, hd, hf⟩ := hf
      exact ⟨rfl, hms, hd, hf⟩
    | _ =>
      obtain ⟨hb, hw, trees, stop, hc, he, hm⟩ := hf
      rw [hm] at hb hw hms hk ⊢
      rw [atKind_ofStop] at hk
      rw [tokensAfterModifiers_ofStop] at hms
      rw [(tokens_ofStop ms trees stop).1] at hb hw
      exact fits_ofStop hk ⟨hms, hb, hw, hc, he⟩

theorem member_exact (hg : g.Exact n) {type : List Modifier → Parser TypeDeclaration}
    (ht : TypeExact type n) : (member g type).Exact Member.tokens (Member.Fits n false) := by
  refine ⟨fun s m rest => ?_, ?_⟩
  · simp only [member_eq, takes_bind, takes_ahead, takes_ite, takes_token, ParserState.on_rest,
      takes_pure, and_assoc, Bool.not_eq_true, (modifiers_exact hg).reads _ _ _,
      (memberAfter_exact hg ht _).reads _ _ _, exists_and_left, exists_eq_left, atKind_take,
      fits_iff_afterModifiers]
    constructor
    · rintro (⟨hk, t, mid, hs, -, rfl, rfl⟩ | ⟨hk, ms, mid, hs, hms, rfl, hf⟩)
      · rw [hs] at hk
        exact ⟨hs, .inl ⟨t, rfl, by simpa [atKind] using hk⟩⟩
      · have tokens := tokens_eq_of_fitsAfterModifiers hf
        rw [← List.append_assoc, ← tokens] at hs
        rw [kinds_append] at hms
        rw [hs, kinds_append] at hk
        exact ⟨hs, .inr ⟨ms, hms, hf, hk⟩⟩
    · rintro ⟨hs, ⟨t, rfl, hk⟩ | ⟨ms, hms, hf, hk⟩⟩
      · exact .inl ⟨by rw [hs]; simp [Member.tokens, atKind, hk], t, rest, hs, by rw [hk]; rfl, rfl, rfl⟩
      · have tokens := tokens_eq_of_fitsAfterModifiers hf
        refine .inr ⟨by rwa [hs, kinds_append], ms, tokensAfterModifiers m ++ rest, ?_, ?_, rfl, hf⟩
        · rw [hs, tokens, List.append_assoc]
        · rwa [kinds_append]
  · refine .bind .ahead fun _ => .ite (fun _ => .bind .token fun _ => .pure _) fun _ => ?_
    exact .bind (modifiers_exact hg).loud fun ms => (memberAfter_exact hg ht ms).loud

/-! ## Constants -/

theorem constantsRound_reads (hg : g.Exact n) :
    RoundReads (constantsRound g) TokenTree.tokens
      (fun _ tree f => atKind .semicolon (kinds tree.tokens ++ f) = false ∧ tree.Fits n f)
      (fun _ _ => ()) Option.toList
      (fun _ semicolon f =>
        match semicolon with
        | some t => t.kind = .semicolon
        | none => endsConstants f = true) := by
  intro x s rest
  refine ⟨fun item y => ?_, fun b => ?_⟩
  · simp only [constantsRound, Bool.or_eq_true, takes_bind, takes_ahead, takes_ite, takes_token,
      ParserState.on_rest, takes_pure, reduceCtorEq, false_and, and_false, exists_const,
      exists_false, Bool.not_eq_true, not_or, not_takes_unexpected, hg.tree.reads _ _ _,
      Step.again.injEq, and_true, and_assoc, false_or, exists_and_left, exists_eq_left, atKind_take,
      atEnd_take, atClosing_take, true_and]
    constructor
    · rintro ⟨hk, -, -, -, tree, mid, hs, hf, rfl, rfl⟩
      rw [hs, kinds_append] at hk
      exact ⟨tree, rfl, hs, hk, hf⟩
    · rintro ⟨tree, rfl, hs, hk, hf⟩
      obtain ⟨hend, hclosing⟩ := hf.begins (kinds rest)
      rw [hs, kinds_append]
      exact ⟨hk, hend, atKind_closing_of_atClosing hclosing .brace, hclosing, tree, rest, rfl, hf,
        rfl, rfl⟩
  · simp only [constantsRound, Bool.or_eq_true, takes_bind, takes_ahead, takes_ite, takes_token,
      ParserState.on_rest, takes_pure, Step.stop.injEq, and_assoc, Bool.not_eq_true, not_or,
      not_takes_unexpected, and_false, hg.tree.reads _ _ _, reduceCtorEq, false_and, exists_const,
      exists_false, or_self, or_false, exists_and_left, exists_eq_left, atKind_take, atEnd_take]
    constructor
    · rintro (⟨hk, t, mid, hs, -, rfl, rfl⟩ | ⟨-, hend, rfl, rfl⟩)
      · rw [hs] at hk
        exact ⟨hs, by simpa [atKind] using hk⟩
      · exact ⟨rfl, by simpa [endsConstants] using hend⟩
    · cases b with
      | some t =>
        rintro ⟨hs, hk : t.kind = .semicolon⟩
        exact .inl ⟨by rw [hs]; simp [atKind, hk], t, rest, hs, by rw [hk]; rfl, rfl, rfl⟩
      | none =>
        rintro ⟨hs, hend⟩
        obtain rfl : s.rest = rest := hs
        refine .inr ⟨?_, by simpa [endsConstants] using hend, rfl, rfl⟩
        cases h : kinds s.rest with
        | nil => rfl
        | cons k ks => cases k <;> simp_all [endsConstants, atEnd, atKind]

theorem constantsRound_loud (hg : g.Exact n) (x : Unit) : (constantsRound g x).Loud := by
  refine .bind .ahead fun _ => .ite (fun _ => ?_) fun _ => .ite (fun _ => .pure _) fun _ =>
    .ite (fun _ => .unexpected _) fun _ => ?_
  · exact .bind .token fun _ => .pure _
  · exact .bind hg.tree.loud fun _ => .pure _

/-- **`constantsFit n c? f`** — what the parser of constants can give: some constants that fit, or
none where the body ends. -/
def constantsFit (n : Nat) : Option Member → List TokenKind → Prop
  | none, f => endsConstants f = true
  | some m, f => m.Fits n true f

theorem constants?_exact (hg : g.Exact n) :
    (constants? g).Exact (fun c? => (c?.map Member.tokens).getD []) (constantsFit n) := by
  have round := constantsRound_reads hg
  have nonempty : ∀ (x : Unit) (tree : TokenTree) f,
      atKind .semicolon (kinds tree.tokens ++ f) = false ∧ tree.Fits n f → tree.tokens ≠ [] :=
    fun _ tree _ _ => tree.tokens_ne_nil
  refine ⟨fun s c? rest => ?_, ?_⟩
  · simp only [constants?, Bool.and_eq_true, List.isEmpty_iff, Option.isNone_iff_eq_none,
      takes_bind, round.takes_rounds nonempty, ← TokenTree.listTokens_eq_flatMap, kinds_append,
      chain_tree_avoiding, and_assoc, takes_ite, takes_pure, ParserState.on_rest, not_and,
      Prod.exists]
    constructor
    · rintro ⟨trees, semicolon, mid, hs, hf, ha, he, ⟨rfl, rfl, rfl, rfl⟩ | ⟨hne, rfl, rfl⟩⟩
      · exact ⟨hs, he⟩
      · refine ⟨by rw [hs]; simp [Member.tokens], rfl, ?_, hf, ha, he⟩
        exact fun h => hne h.1 h.2
    · rintro ⟨hs, hf⟩
      rcases c? with _ | (_ | _ | _ | _ | ⟨trees, semicolon⟩ | _)
      · exact ⟨[], none, rest, hs, trivial, trivial, hf, .inl ⟨rfl, rfl, rfl, rfl⟩⟩
      iterate 4 cases hf.1
      · obtain ⟨_, hne, hf, ha, he⟩ := hf
        refine ⟨trees, semicolon, rest, by simp [hs, Member.tokens], hf, ha, he, .inr ⟨?_, rfl, rfl⟩⟩
        exact fun h h' => hne ⟨h, h'⟩
      · cases hf.1
  · exact .bind (.rounds (constantsRound_loud hg) (round.steady nonempty)) fun _ =>
      .ite (fun _ => .pure _) fun _ => .pure _

/-! ## Bodies -/

theorem Member.listTokens_eq_flatMap (ms : List Member) :
    Member.listTokens ms = ms.flatMap Member.tokens := by
  induction ms with
  | nil => rfl
  | cons m ms ih => rw [Member.listTokens, List.flatMap_cons, ih]

/-- Members that are read one after the other fit one after the other. -/
theorem chain_member {next : Unit → Member → Unit} {x : Unit} {ms : List Member}
    {f : List TokenKind} :
    chain Member.tokens (fun _ m f => m.Fits n false f) next x ms f ↔
      Member.listFits n false ms f := by
  induction ms with
  | nil => simp [chain, Member.listFits]
  | cons m ms ih => rw [chain, ih, ← Member.listTokens_eq_flatMap, Member.listFits]

theorem Member.tokens_ne_nil {first : Bool} {m : Member} {f : List TokenKind}
    (h : m.Fits n first f) : m.tokens ≠ [] := by
  match m, h with
  | .field _ _ _, _ => simp [Member.tokens]
  | .method _ _ (.block _), _ => simp [Member.tokens, MethodBody.tokens, Group.tokens]
  | .method _ _ (.semicolon _), _ => simp [Member.tokens, MethodBody.tokens]
  | .type d, _ => simp [Member.tokens, d.tokens_eq, TypeDeclaration.ownTokens]
  | .block _ _, _ => simp [Member.tokens, Group.tokens]
  | .constants [] none, h => exact absurd ⟨rfl, rfl⟩ h.2.1
  | .constants [] (some _), _ => simp [Member.tokens]
  | .constants (tree :: _) _, _ =>
    simp [Member.tokens, TokenTree.listTokens, tree.tokens_ne_nil]
  | .empty _, _ => simp [Member.tokens]

/-- What follows modifiers, if they do, or else what comes first. -/
theorem modifiers_begin {ms : List Modifier} {f : List TokenKind} (h : Modifier.listFits n ms f)
    (hf : atEnd f = false ∧ atClosing f = false) :
    atEnd (kinds (Modifier.listTokens ms) ++ f) = false ∧
      atClosing (kinds (Modifier.listTokens ms) ++ f) = false := by
  cases ms with
  | nil => exact hf
  | cons m ms =>
    rw [Modifier.listTokens, List.flatMap_cons, kinds_append, List.append_assoc]
    obtain ⟨hend, hclosing, -⟩ := modifier_begins h.1.1 (kinds (ms.flatMap Modifier.tokens) ++ f)
    exact ⟨hend, hclosing⟩

/-- The trees of a field or a method and what ends it begin with no closing bracket. -/
theorem plain_begins {modifiers : List Modifier} {trees : List TokenTree}
    {stop : MethodBody × Bool} {f : List TokenKind} (h : fitsPlain n modifiers trees stop f) :
    atEnd (kinds (TokenTree.listTokens trees ++ stop.1.tokens) ++ f) = false ∧
      atClosing (kinds (TokenTree.listTokens trees ++ stop.1.tokens) ++ f) = false := by
  obtain ⟨-, -, -, hc, he⟩ := h
  match trees, stop, hc, he with
  | tree :: trees, stop, hc, _ =>
    rw [TokenTree.listTokens, List.append_assoc, kinds_append, List.append_assoc]
    exact hc.1.2.begins _
  | [], (.semicolon t, _), _, ⟨hk, _⟩ =>
    simp [TokenTree.listTokens, MethodBody.tokens, hk, atEnd, atClosing, TokenKind.isClosing]
  | [], (.block g, _), _, ⟨_, _, _, _, hg⟩ =>
    have ho := (Group.fits_iff.1 hg).2.1
    simp [TokenTree.listTokens, MethodBody.tokens, Group.tokens, ho, atEnd, atClosing,
      TokenKind.isClosing]

/-- A member begins with no closing bracket. -/
theorem member_begins {m : Member} {f : List TokenKind} (h : m.Fits n false f) :
    atEnd (kinds m.tokens ++ f) = false ∧ atClosing (kinds m.tokens ++ f) = false := by
  match m, h with
  | .constants _ _, h => cases h.1
  | .empty t, ⟨_, hk⟩ => simp [Member.tokens, hk, atEnd, atClosing, TokenKind.isClosing]
  | .block ms group, ⟨_, hms, _, hf⟩ =>
    have ho := (Group.fits_iff.1 hf).2.1
    rw [Member.tokens, kinds_append, List.append_assoc]
    refine modifiers_begin hms ?_
    simp [Group.tokens, ho, atEnd, atClosing, TokenKind.isClosing]
  | .type d, ⟨_, hms, hw, _⟩ =>
    obtain ⟨-, -, hend, hclosing⟩ := begins_of_atTypeWord hw
    rw [Member.tokens, d.tokens_eq, kinds_append, List.append_assoc]
    exact modifiers_begin hms ⟨hend, hclosing⟩
  | .field ms trees t, ⟨_, _, hplain⟩ =>
    rw [Member.tokens, List.append_assoc, kinds_append, List.append_assoc]
    exact modifiers_begin hplain.1 (plain_begins hplain)
  | .method ms trees body, ⟨_, _, hplain⟩ =>
    rw [Member.tokens, List.append_assoc, kinds_append, List.append_assoc]
    exact modifiers_begin hplain.1 (plain_begins hplain)

theorem bodyRound_reads (hg : g.Exact n) {type : List Modifier → Parser TypeDeclaration}
    (ht : TypeExact type n) (opening : Token) :
    RoundReads (bodyRound opening g type) Member.tokens (fun _ m f => m.Fits n false f)
      (fun _ _ => ()) (fun t => [t]) (fun _ t _ => t.kind = .closing .brace) := by
  have hm := member_exact hg ht
  intro x s rest
  refine ⟨fun item y => ?_, fun b => ?_⟩
  · simp only [bodyRound, takes_bind, takes_ahead, takes_ite, takes_token, ParserState.on_rest,
      takes_pure, reduceCtorEq, false_and, and_false, exists_const, exists_false, Bool.not_eq_true,
      not_takes_fail, takes_orSkip hm.loud, hm.reads _ _ _, Step.again.injEq, and_true,
      exists_eq_right_right', exists_eq_right', false_or, and_assoc, exists_and_left,
      exists_eq_left, atKind_take, atEnd_take, true_and]
    constructor
    · rintro ⟨-, -, m, rfl, hs, hf⟩
      exact ⟨m, rfl, hs, hf⟩
    · rintro ⟨m, rfl, hs, hf⟩
      obtain ⟨hend, hclosing⟩ := member_begins hf
      rw [hs, kinds_append]
      exact ⟨atKind_closing_of_atClosing hclosing .brace, hend, m, rfl, rfl, hf⟩
  · simp only [bodyRound, takes_bind, takes_ahead, takes_ite, takes_token, ParserState.on_rest,
      takes_pure, Step.stop.injEq, and_assoc, Bool.not_eq_true, not_takes_fail, and_false,
      reduceCtorEq, false_and, exists_const, or_self, or_false, exists_and_left, exists_eq_left,
      atKind_take, List.cons_append, List.nil_append]
    constructor
    · rintro ⟨hk, t, mid, hs, -, rfl, rfl⟩
      rw [hs] at hk
      exact ⟨hs, by simpa [atKind] using hk⟩
    · rintro ⟨hs, hk⟩
      exact ⟨by rw [hs]; simp [atKind, hk], b, rest, hs, by rw [hk]; rfl, rfl, rfl⟩

theorem bodyRound_loud {type : List Modifier → Parser TypeDeclaration}
    (opening : Token) (x : Unit) : (bodyRound opening g type x).Loud := by
  refine .bind .ahead fun _ => .ite (fun _ => ?_) fun _ => .ite (fun _ => .fail _) fun _ => ?_
  · exact .bind .token fun _ => .pure _
  · exact .bind (.orSkip _ _) fun _ => .pure _

/-- The constants, if there are any, come before the other members. -/
theorem listFits_constants {c? : Option Member} {ms : List Member} {f : List TokenKind}
    (hc : constantsFit n c? (kinds (Member.listTokens ms) ++ f)) (hms : Member.listFits n false ms f) :
    Member.listFits n true (c?.toList ++ ms) f := by
  match c?, ms, hc, hms with
  | some m, ms, hc, hms => exact ⟨hc, hms⟩
  | none, [], _, _ => trivial
  | none, m :: ms, hc, hms =>
    obtain ⟨hend, hclosing⟩ := member_begins hms.1
    have hc : endsConstants (kinds m.tokens ++ (kinds (Member.listTokens ms) ++ f)) = true := by
      simpa [constantsFit, Member.listTokens] using hc
    simp [endsConstants, hend, atKind_closing_of_atClosing hclosing .brace] at hc

/-- The members of an enumeration begin with constants, or there are none of them. -/
theorem exists_constants {ms : List Member} {f : List TokenKind} (h : Member.listFits n true ms f)
    (hf : endsConstants f = true) :
    ∃ c? others, ms = c?.toList ++ others ∧
      Member.listTokens ms = (c?.map Member.tokens).getD [] ++ Member.listTokens others ∧
      constantsFit n c? (kinds (Member.listTokens others) ++ f) ∧
      Member.listFits n false others f := by
  cases ms with
  | nil => exact ⟨none, [], rfl, rfl, hf, trivial⟩
  | cons m ms => exact ⟨some m, ms, rfl, rfl, h.1, h.2⟩

/-- The tokens of a body after its opening brace. -/
def bodyTokens (body : List Member × Token) : List Token :=
  Member.listTokens body.1 ++ [body.2]

theorem bodyContents_exact (hg : g.Exact n) {type : List Modifier → Parser TypeDeclaration}
    (ht : TypeExact type n) (kind : TypeKind) (opening : Token) :
    (bodyContents kind opening g type).Exact bodyTokens fun body f =>
      Member.listFits n (kind = .enumeration) body.1 (body.2.kind :: f) ∧
        body.2.kind = .closing .brace := by
  have round := bodyRound_reads hg ht opening
  have nonempty : ∀ (x : Unit) (m : Member) f, m.Fits n false f → m.tokens ≠ [] :=
    fun _ m _ h => Member.tokens_ne_nil h
  have hc := constants?_exact hg
  refine ⟨fun s body rest => ?_, ?_⟩
  · -- only the body of an enumeration begins with constants
    by_cases hk : kind = .enumeration
    · simp only [bodyContents, hk, ↓reduceIte, takes_bind, takes_orSkip hc.loud, hc.reads _ _ _,
        round.takes_rounds nonempty, ParserState.on_rest, ← Member.listTokens_eq_flatMap,
        List.cons_append, List.nil_append, kinds_cons, chain_member, takes_pure, and_assoc,
        Prod.exists, decide_true]
      constructor
      · rintro ⟨_, mid, ⟨c?, rfl, hs, hc⟩, ms, closing, mid', rfl, hms, hk, rfl, rfl⟩
        rw [kinds_append] at hc
        have hfits := listFits_constants hc hms
        refine ⟨?_, hfits, hk⟩
        cases c? <;> simp [hs, bodyTokens, Member.listTokens]
      · rintro ⟨hs, hms, hk⟩
        obtain ⟨c?, others, hbody, htokens, hc, hothers⟩ :=
          exists_constants hms (by simp [endsConstants, atKind, hk])
        refine ⟨_, Member.listTokens others ++ body.2 :: rest, ⟨c?, rfl, ?_, ?_⟩, others, body.2,
          rest, rfl, hothers, hk, ?_, rfl⟩
        · rw [hs, bodyTokens, htokens]
          simp
        · rwa [kinds_append]
        · rw [Prod.ext_iff]
          exact ⟨hbody, rfl⟩
    · simp only [bodyContents, hk, ↓reduceIte, takes_bind, takes_pure, round.takes_rounds nonempty,
        ParserState.on_rest, ← Member.listTokens_eq_flatMap, List.cons_append, List.nil_append,
        kinds_cons, chain_member, and_assoc, Prod.exists, exists_and_left, exists_eq_left,
        Option.join_none, Option.toList_none, decide_false]
      constructor
      · rintro ⟨ms, closing, mid, hs, hms, hk, rfl, rfl⟩
        exact ⟨by simp [hs, bodyTokens], hms, hk⟩
      · rintro ⟨hs, hms, hk⟩
        exact ⟨body.1, body.2, rest, by simp [hs, bodyTokens], hms, hk, rfl, rfl⟩
  · have members : (rounds (bodyRound opening g type) ()).Loud :=
      .rounds (bodyRound_loud opening) (round.steady nonempty)
    exact .ite (fun _ => .bind (.orSkip _ _) fun _ => .bind members fun _ => .pure _)
      fun _ => .bind (.pure _) fun _ => .bind members fun _ => .pure _

/-! ## Types -/

/-- The words that declare a type, and of what kind it is. -/
def introducerTokens (result : TypeKind × Words) : List Token := result.2.tokens

/-- The words that declare a type are read as such. -/
theorem takes_introducer {s : ParserState} {kind : TypeKind} {words : Words} {rest : List Token}
    (hs : s.rest = words.tokens ++ rest) (hf : fitsIntroducer kind words) :
    introducer.Takes s (kind, words) rest := by
  rw [introducer, takes_ahead_bind]
  rcases words with ⟨t, _ | ⟨word, _ | ⟨extra, others⟩⟩⟩
  · cases kind with
    | «class» =>
      have hk : t.kind = .keyword .classWord := hf
      simp [hs, hk, Words.tokens, TokenKind.isError]
    | interface =>
      have hk : t.kind = .keyword .interfaceWord := hf
      have hne : Keyword.interfaceWord ≠ .classWord := by decide
      simp [hs, hk, hne, Words.tokens, TokenKind.isError]
    | enumeration =>
      have hk : t.kind = .keyword .enumWord := hf
      have hne : Keyword.enumWord ≠ .classWord := by decide
      have hne' : Keyword.enumWord ≠ .interfaceWord := by decide
      simp [hs, hk, hne, hne', Words.tokens, TokenKind.isError]
    | record =>
      have hk : t.kind = .identifier "record" := hf
      simp [hs, hk, Words.tokens, TokenKind.isError]
    | annotationType => exact hf.elim
  · cases kind with
    | annotationType =>
      obtain ⟨hk, hw⟩ := hf
      have hs : s.rest = t :: word :: rest := hs
      have he : t.kind.isError = false := by rw [hk]; rfl
      have he' : word.kind.isError = false := by rw [hw]; rfl
      simp only [hs, kinds_cons, hk, hw, List.take_succ_cons, if_true, takes_bind, takes_token,
        ParserState.on_rest, takes_pure]
      exact ⟨t, _, ⟨rfl, he⟩, word, _, ⟨rfl, he'⟩, rfl, rfl⟩
    | _ => exact hf.elim
  · cases kind <;> exact hf.elim

theorem introducer_loud : introducer.Loud := by
  refine .bind .ahead fun _ => ?_
  split
  · refine .ite (fun _ => ?_) fun _ => .ite (fun _ => ?_) fun _ => .ite (fun _ => ?_) fun _ =>
      .unexpected _
    all_goals exact .bind .token fun _ => .pure _
  · exact .ite (fun _ => .bind .token fun _ => .bind .token fun _ => .pure _) fun _ =>
      .unexpected _
  · exact .ite (fun _ => .bind .token fun _ => .pure _) fun _ => .unexpected _
  · exact .unexpected _

theorem introducer_exact :
    introducer.Exact introducerTokens fun result _ => fitsIntroducer result.1 result.2 := by
  refine ⟨fun s result rest => ?_, introducer_loud⟩
  obtain ⟨kind, words⟩ := result
  constructor
  · intro h
    rw [introducer, takes_ahead_bind] at h
    split at h
    · rename_i w ks heq
      obtain ⟨t, mid, hs, hk⟩ := ahead_eq_cons heq
      simp only [takes_ite, takes_bind, takes_token, hs, List.cons.injEq, and_assoc, takes_pure,
        Prod.mk.injEq, ParserState.on_rest, exists_and_left, exists_eq_left',
        not_takes_unexpected, and_false, or_false] at h
      rcases h with ⟨rfl, h⟩ | ⟨-, ⟨rfl, h⟩ | ⟨-, rfl, h⟩⟩
      all_goals
        obtain ⟨-, rfl, rfl, rfl⟩ := h
        exact ⟨hs, hk⟩
    · rename_i w ks heq
      obtain ⟨t, mid, hs, hk⟩ := ahead_eq_cons heq
      rw [hs] at heq
      obtain ⟨-, heq⟩ := List.cons.inj heq
      simp only [takes_ite, takes_bind, takes_token, hs, List.cons.injEq, and_assoc,
        ParserState.on_rest, takes_pure, Prod.mk.injEq, exists_and_left, exists_eq_left',
        not_takes_unexpected, and_false, or_false] at h
      obtain ⟨rfl, -, word, mid', rfl, -, rfl, rfl, rfl⟩ := h
      exact ⟨hs, hk, (List.cons.inj heq).1⟩
    · rename_i name ks heq
      obtain ⟨t, mid, hs, hk⟩ := ahead_eq_cons heq
      simp only [takes_ite, takes_bind, takes_token, hs, List.cons.injEq, and_assoc, takes_pure,
        Prod.mk.injEq, ParserState.on_rest, exists_and_left, exists_eq_left',
        not_takes_unexpected, and_false, or_false] at h
      obtain ⟨rfl, -, rfl, rfl, rfl⟩ := h
      exact ⟨hs, hk⟩
    · exact absurd h not_takes_unexpected
  · exact fun h => takes_introducer h.1 h.2

theorem headerRound_reads (hg : g.Exact n) :
    RoundReads (headerRound g) TokenTree.tokens
      (fun _ tree f => endsHeader (kinds tree.tokens ++ f) = false ∧ tree.Fits n f)
      (fun _ _ => ()) (fun _ => []) (fun _ _ f => atKind (.opening .brace) f = true) := by
  intro x s rest
  refine ⟨fun item y => ?_, fun b => ?_⟩
  · simp only [headerRound, Bool.or_eq_true, takes_bind, takes_ahead, takes_ite, takes_pure,
      reduceCtorEq, ParserState.on_rest, false_and, and_false, Bool.not_eq_true,
      not_takes_unexpected, not_or, and_assoc, hg.tree.reads _ _ _, Step.again.injEq, and_true,
      false_or, exists_and_left, exists_eq_left, atKind_take, atEnd_take, atClosing_take, true_and]
    constructor
    · rintro ⟨hb, -, -, hk, tree, mid, hs, hf, rfl, rfl⟩
      rw [hs, kinds_append] at hb hk
      exact ⟨tree, rfl, hs, by simp [endsHeader, hb, hk], hf⟩
    · rintro ⟨tree, rfl, hs, hstop, hf⟩
      obtain ⟨hend, hclosing⟩ := hf.begins (kinds rest)
      rw [endsHeader, Bool.or_eq_false_iff] at hstop
      rw [hs, kinds_append]
      exact ⟨hstop.1, hend, hclosing, hstop.2, tree, rest, rfl, hf, rfl, rfl⟩
  · simp only [headerRound, Bool.or_eq_true, takes_bind, takes_ahead, takes_ite, takes_pure,
      ParserState.on_rest, true_and, Bool.not_eq_true, not_takes_unexpected, and_false, not_or,
      and_assoc, hg.tree.reads _ _ _, reduceCtorEq, false_and, exists_const, exists_false, or_self,
      or_false, exists_and_left, exists_eq_left, atKind_take, List.nil_append]
    constructor
    · rintro ⟨hb, rfl⟩
      exact ⟨rfl, hb⟩
    · rintro ⟨hs, hb⟩
      obtain rfl : s.rest = rest := hs
      exact ⟨hb, rfl⟩

theorem headerRound_loud (hg : g.Exact n) (x : Unit) : (headerRound g x).Loud := by
  refine .bind .ahead fun _ => .ite (fun _ => .pure _) fun _ => .ite (fun _ => .unexpected _)
    fun _ => ?_
  exact .bind hg.tree.loud fun _ => .pure _

theorem typeHeader_exact (hg : g.Exact n) :
    (typeHeader g).Exact TokenTree.listTokens fun trees f =>
      fitsHeader n trees f ∧ atKind (.opening .brace) f = true := by
  have round := headerRound_reads hg
  have nonempty : ∀ (x : Unit) (tree : TokenTree) f,
      endsHeader (kinds tree.tokens ++ f) = false ∧ tree.Fits n f → tree.tokens ≠ [] :=
    fun _ tree _ _ => tree.tokens_ne_nil
  refine ⟨fun s trees rest => ?_, .bind (.rounds (headerRound_loud hg) (round.steady nonempty))
    fun _ => .pure _⟩
  simp only [typeHeader, takes_bind, round.takes_rounds nonempty, ← TokenTree.listTokens_eq_flatMap,
    List.nil_append, chain_tree_avoiding, and_assoc, takes_pure, ParserState.on_rest, Prod.exists,
    exists_const, fitsHeader]
  constructor
  · rintro ⟨trees, mid, hs, hf, ha, hb, rfl, rfl⟩
    exact ⟨hs, hf, ha, hb⟩
  · rintro ⟨hs, hf, ha, hb⟩
    exact ⟨trees, rest, hs, hf, ha, hb, rfl, rfl⟩

/-- **`BodyWithin body? n`** — the parser of bodies reads what fits the budget that is left inside of
a budget of `n`; where nothing is left there is none. -/
def BodyWithin (body? : Option (TypeKind → Token → Parser (List Member × Token))) (n : Nat) : Prop :=
  match body? with
  | none => n = 0
  | some body => 0 < n ∧ ∀ kind opening, (body kind opening).Exact bodyTokens fun body f =>
      Member.listFits (n - 1) (kind = .enumeration) body.1 (body.2.kind :: f) ∧
        body.2.kind = .closing .brace

theorem typeWith_exact (hg : g.Exact n)
    {body? : Option (TypeKind → Token → Parser (List Member × Token))} (hb : BodyWithin body? n) :
    TypeExact (typeWith g body?) n := by
  intro ms
  refine ⟨fun s d rest => ?_, ?_⟩
  · cases body? with
    | none =>
      -- without a budget there is no body, and no type that fits
      obtain rfl : n = 0 := hb
      simp only [typeWith, takes_bind, takes_expect, ParserState.on_rest, decide_eq_true_eq,
        not_takes_fail, takes_pure, false_and, exists_const, exists_false, and_false, false_iff,
        not_and]
      intro _ _ hf
      cases d
      exact absurd hf.2.2.2.2.1 (Nat.lt_irrefl 0)
    | some body =>
      obtain ⟨hn, hbody⟩ := hb
      simp only [typeWith, takes_bind, introducer_exact.reads _ _ _, takes_expect,
        ParserState.on_rest, (typeHeader_exact hg).reads _ _ _, decide_eq_true_eq, (hbody _ _).reads
        _ _ _, takes_pure, and_assoc, Prod.exists]
      constructor
      · rintro ⟨kind, words, mid, hs, hi, name, mid, rfl, hname, -, header, mid, rfl, hh, -,
          opening, mid, rfl, ho, -, members, closing, mid, rfl, hms, hk, rfl, rfl⟩
        refine ⟨by simp [hs, TypeDeclaration.ownTokens, introducerTokens, bodyTokens], rfl, hi, hname,
          ?_, ho, hn, hms, hk⟩
        simpa [bodyTokens] using hh
      · rintro ⟨hs, rfl, hf⟩
        obtain ⟨ms, kind, words, name, header, opening, members, closing⟩ := d
        obtain ⟨hi, hname, hh, ho, -, hms, hk⟩ := hf
        refine ⟨kind, words, _, by rw [hs]; simp [TypeDeclaration.ownTokens, introducerTokens]; rfl,
          hi, name, _, rfl, hname, TokenKind.isError_of_isIdentifier hname, header, _, rfl, ?_, ?_,
          opening, _, rfl, ho, by rw [ho]; rfl, members, closing, rest, ?_, hms, hk, rfl, rfl⟩
        · simpa using hh
        · simp [atKind, ho]
        · simp [bodyTokens]
  · refine .bind introducer_exact.loud fun result => .bind (.expect _ _) fun name =>
      .bind (typeHeader_exact hg).loud fun header => .bind (.expect _ _) fun opening => ?_
    cases body? with
    | none => exact .bind (.fail _) fun _ => .pure _
    | some body => exact .bind (hb.2 _ _).loud fun _ => .pure _

/-- **The grammar of declarations is exact** — the parser of type declarations for a budget reads just
the tokens of those that fit it. -/
theorem typeOfBudget_exact (n : Nat) : TypeExact (typeOfBudget n) n := by
  induction n with
  | zero => exact typeWith_exact (Grammar.ofBudget_exact 0) rfl
  | succ n ih =>
    refine typeWith_exact (Grammar.ofBudget_exact (n + 1)) ⟨n.succ_pos, fun kind opening => ?_⟩
    exact bodyContents_exact (Grammar.ofBudget_exact n) ih kind opening

end Parser

end DeferFetch
