/-
# DeferFetch.Proofs.Grammar.Unit — what the parser of files reads.

A file without errors is read whole: its tokens are those of the tree, which fits, and the one that
ends the text (`compilationUnit_sound`). The one exception is a file of nothing but modifiers, which
are dropped. Conversely, the tokens of a file that fits are read as just that file
(`compilationUnit_complete`).
-/
import DeferFetch.Proofs.Grammar.Plain

namespace DeferFetch

/-! ## Packages and imports -/

/-- **`p.Fits n f`** — the package declaration fits the budget `n` before `f`. -/
def PackageDeclaration.Fits (n : Nat) (p : PackageDeclaration) (f : List TokenKind) : Prop :=
  Modifier.listFits n (p.annotations.map .annot)
      (p.word.kind :: (kinds (p.name.tokens ++ [p.semicolon]) ++ f)) ∧
    p.word.kind = .keyword .packageWord ∧ p.name.Fits [] ∧ p.semicolon.kind = .semicolon

/-- The wildcard consists of a dot and a star. -/
def Wildcard.Fits (w : Wildcard) : Prop := w.dot.kind = .dot ∧ w.star.kind = .operator "*"

/-- The tokens of a wildcard, if there is one. -/
def wildcardTokens (w? : Option Wildcard) : List Token :=
  (w?.map fun w => [w.dot, w.star]).getD []

/-- **`i.Fits`** — the import is made of the right kinds of tokens. -/
def ImportDeclaration.Fits (i : ImportDeclaration) : Prop :=
  i.word.kind = .keyword .importWord ∧ (∀ t ∈ i.static?, t.kind = .keyword .staticWord) ∧
    i.name.Fits [] ∧ (∀ w ∈ i.wildcard?, w.Fits) ∧ i.semicolon.kind = .semicolon

/-! ## Files -/

/-- **`d.Fits n f`** — the top-level declaration fits the budget `n` before `f`. -/
def TopLevel.Fits (n : Nat) : TopLevel → List TokenKind → Prop
  | .type d, f => Modifier.listFits n d.modifiers (kinds d.ownTokens ++ f) ∧ d.Fits n f
  | .empty t, _ => t.kind = .semicolon

/-- Several declarations, one after the other. -/
def TopLevel.listFits (n : Nat) : List TopLevel → List TokenKind → Prop
  | [], _ => True
  | d :: ds, f => d.Fits n (kinds (ds.flatMap TopLevel.tokens) ++ f) ∧ TopLevel.listFits n ds f

/-- **`u.Fits n`** — the file fits the budget `n`. -/
structure CompilationUnit.Fits (n : Nat) (u : CompilationUnit) : Prop where
  package : ∀ p ∈ u.package?, p.Fits n (kinds (u.imports.flatMap ImportDeclaration.tokens
    ++ u.types.flatMap TopLevel.tokens ++ [u.eof]))
  imports : ∀ i ∈ u.imports, i.Fits
  types : TopLevel.listFits n u.types (kinds [u.eof])
  eof : u.eof.kind = .eof

/-- Of what follows a name, it only matters that the name does not go on. -/
theorem QualifiedName.Fits.before {name : QualifiedName} {f g : List TokenKind} (h : name.Fits f)
    (hg : atSegment g = false) : name.Fits g := ⟨h.1, h.2.1, hg⟩

namespace Parser

variable {s : ParserState} {rest : List Token} {n : Nat}

/-! ## Reading packages and imports -/

/-- A package keeps its modifiers, which are annotations. -/
theorem takes_packageAnnotations {ms : List Modifier} {annotations : List Annotation} :
    (packageAnnotations ms).Takes s annotations rest ↔
      ms = annotations.map .annot ∧ rest = s.rest := by
  induction ms generalizing s annotations rest with
  | nil =>
    rw [packageAnnotations, takes_pure]
    cases annotations <;> simp
  | cons m ms ih =>
    cases m with
    | annot a =>
      have step : (packageAnnotations (.annot a :: ms)).Takes s annotations rest ↔
          ∃ as mid, (packageAnnotations ms).Takes s as mid ∧
            (pure (a :: as) : Parser _).Takes (s.on mid) annotations rest := takes_bind
      simp only [step, ih, takes_pure, ParserState.on_rest]
      constructor
      · rintro ⟨as, mid, ⟨rfl, rfl⟩, rfl, rfl⟩
        exact ⟨rfl, rfl⟩
      · rintro ⟨h, rfl⟩
        cases annotations with
        | nil => cases h
        | cons b as =>
          obtain ⟨hab, rfl⟩ := List.cons.inj h
          cases hab
          exact ⟨as, s.rest, ⟨rfl, rfl⟩, rfl, rfl⟩
    | keyword t => cases annotations <;> simp [packageAnnotations]
    | contextual words => cases annotations <;> simp [packageAnnotations]

theorem packageAnnotations_loud (ms : List Modifier) : (packageAnnotations ms).Loud := by
  induction ms with
  | nil => exact .pure _
  | cons m ms ih =>
    cases m with
    | annot a => exact .bind ih fun _ => .pure _
    | keyword t => exact .bind (.report _) fun _ => ih
    | contextual words => exact .bind (.report _) fun _ => ih

/-- The tokens of a package declaration after its annotations. -/
def packageTokens (p : PackageDeclaration) : List Token :=
  p.word :: (p.name.tokens ++ [p.semicolon])

/-- The parser of package declarations leaves it to the caller that the first word is the right
one. -/
theorem packageDeclaration_exact (ms : List Modifier) :
    (packageDeclaration ms).Exact packageTokens fun p _ =>
      ms = p.annotations.map .annot ∧ p.word.kind.isError = false ∧ p.name.Fits [] ∧
        p.semicolon.kind = .semicolon := by
  refine ⟨fun s p rest => ?_, ?_⟩
  · simp only [packageDeclaration, takes_bind, takes_packageAnnotations, takes_token,
      ParserState.on_rest, (qualifiedName_exact _).reads _ _ _, takes_expect, decide_eq_true_eq,
      takes_pure, and_assoc, exists_and_left, exists_eq_left]
    constructor
    · rintro ⟨annotations, rfl, word, mid, hs, hw, name, mid, rfl, hname, semicolon, mid, rfl, hk, -,
        rfl, rfl⟩
      exact ⟨by simp [hs, packageTokens], rfl, hw, hname.before rfl, hk⟩
    · rintro ⟨hs, rfl, hw, hname, hk⟩
      rw [packageTokens, List.cons_append, List.append_assoc] at hs
      exact ⟨p.annotations, rfl, p.word, _, hs, hw, p.name, p.semicolon :: rest, rfl,
        hname.before (by rw [kinds_cons, hk]; rfl), p.semicolon, rest, rfl, hk, by rw [hk]; rfl, rfl, rfl⟩
  · refine .bind (packageAnnotations_loud ms) fun _ => .bind .token fun _ =>
      .bind (qualifiedName_loud _) fun _ => .bind (.expect _ _) fun _ => .pure _

/-- What reads the word that makes an import static, if it comes next. -/
theorem staticWord?_exact :
    staticWord?.Exact Option.toList fun t? f => match t? with
      | none => atKind (.keyword .staticWord) f = false
      | some t => t.kind = .keyword .staticWord := by
  refine ⟨fun s t? rest => ?_, ?_⟩
  · simp only [staticWord?, takes_bind, takes_ahead, takes_ite, takes_token, ParserState.on_rest,
      takes_pure, and_assoc, Bool.not_eq_true, exists_and_left, exists_eq_left, atKind_take]
    constructor
    · rintro (⟨hk, t, mid, hs, -, rfl, rfl⟩ | ⟨hk, rfl, rfl⟩)
      · rw [hs] at hk
        exact ⟨hs, by simpa [atKind] using hk⟩
      · exact ⟨rfl, hk⟩
    · rintro ⟨hs, hf⟩
      cases t? with
      | some t =>
        have hk : t.kind = .keyword .staticWord := hf
        exact .inl ⟨by rw [hs]; simp [atKind, hk], t, rest, hs, by rw [hk]; rfl, rfl, rfl⟩
      | none =>
        obtain rfl : s.rest = rest := hs
        exact .inr ⟨hf, rfl, rfl⟩
  · refine .bind .ahead fun _ => .ite (fun _ => ?_) fun _ => .pure _
    exact .bind .token fun _ => .pure _

/-- A dot and a star come next just if these are the next kinds. -/
theorem atWildcard_cons_cons {k l : TokenKind} {ks : List TokenKind} :
    atWildcard (k :: l :: ks) = true ↔ k = .dot ∧ l = .operator "*" := by
  cases k <;> cases l <;> simp [atWildcard]

theorem wildcard?_exact :
    wildcard?.Exact wildcardTokens fun w? f => match w? with
      | none => atWildcard f = false
      | some w => w.Fits := by
  refine ⟨fun s w? rest => ?_, ?_⟩
  · simp only [wildcard?, takes_bind, takes_ahead, takes_ite, takes_token, ParserState.on_rest,
      takes_pure, and_assoc, Bool.not_eq_true, exists_and_left, exists_eq_left, atWildcard_take]
    constructor
    · rintro (⟨hk, dot, mid, hs, -, star, mid, rfl, -, rfl, rfl⟩ | ⟨hk, rfl, rfl⟩)
      · rw [hs] at hk
        exact ⟨hs, atWildcard_cons_cons.1 hk⟩
      · exact ⟨rfl, hk⟩
    · rintro ⟨hs, hf⟩
      cases w? with
      | some w =>
        obtain ⟨dot, star⟩ := w
        obtain ⟨hd, hst⟩ := hf
        refine .inl ⟨?_, dot, _, hs, by rw [hd]; rfl, star, rest, rfl, by rw [hst]; rfl, rfl, rfl⟩
        rw [hs]
        exact atWildcard_cons_cons.2 ⟨hd, hst⟩
      | none =>
        obtain rfl : s.rest = rest := hs
        exact .inr ⟨hf, rfl, rfl⟩
  · refine .bind .ahead fun _ => .ite (fun _ => ?_) fun _ => .pure _
    exact .bind .token fun _ => .bind .token fun _ => .pure _

/-- The parts of an import, one after the other. -/
theorem importTokens_append (i : ImportDeclaration) (rest : List Token) :
    i.tokens ++ rest = i.word :: (i.static?.toList ++ (i.name.tokens ++
      (wildcardTokens i.wildcard? ++ i.semicolon :: rest))) := by
  simp [ImportDeclaration.tokens, wildcardTokens]

/-- A name begins with no keyword. -/
theorem name_begins {name : QualifiedName} {f : List TokenKind} (h : name.Fits f) (w : Keyword)
    (g : List TokenKind) : atKind (.keyword w) (kinds name.tokens ++ g) = false := by
  obtain ⟨hfirst, -⟩ := h
  cases hk : name.first.kind <;>
    simp_all [QualifiedName.tokens, atKind, TokenKind.isIdentifier]

/-- The parser of imports leaves it to the caller that the first word is the right one. -/
theorem importDeclaration_exact :
    importDeclaration.Exact ImportDeclaration.tokens fun i _ =>
      i.word.kind.isError = false ∧ (∀ t ∈ i.static?, t.kind = .keyword .staticWord) ∧
        i.name.Fits [] ∧ (∀ w ∈ i.wildcard?, w.Fits) ∧ i.semicolon.kind = .semicolon := by
  refine ⟨fun s i rest => ?_, ?_⟩
  · simp only [importDeclaration, takes_bind, takes_token, staticWord?_exact.reads _ _ _,
      ParserState.on_rest, (qualifiedName_exact _).reads _ _ _, wildcard?_exact.reads _ _ _,
      takes_expect, decide_eq_true_eq, takes_pure, and_assoc, Option.mem_def]
    constructor
    · rintro ⟨word, mid, hs, hw, t?, mid, rfl, ht, name, mid, rfl, hname, w?, mid, rfl, hwild,
        semicolon, mid, rfl, hk, -, rfl, rfl⟩
      refine ⟨by simp [hs, ImportDeclaration.tokens, wildcardTokens], hw, ?_, hname.before rfl, ?_,
        hk⟩
      · rintro t rfl
        exact ht
      · rintro w rfl
        exact hwild
    · rintro ⟨hs, hw, ht, hname, hwild, hk⟩
      rw [importTokens_append] at hs
      refine ⟨i.word, _, hs, hw, i.static?, _, rfl, ?_, i.name, _, rfl, ?_, i.wildcard?, _, rfl, ?_,
        i.semicolon, rest, rfl, hk, by rw [hk]; rfl, rfl, rfl⟩
      · cases h : i.static? with
        | some t => exact ht t h
        | none =>
          rw [kinds_append]
          exact name_begins hname _ _
      · refine hname.before ?_
        cases h : i.wildcard? with
        | some w => simp [wildcardTokens, (hwild w h).1, (hwild w h).2, atSegment]
        | none => simp [wildcardTokens, hk, atSegment]
      · cases h : i.wildcard? with
        | some w => exact hwild w h
        | none => simp [hk, atWildcard]
  · refine .bind .token fun _ => .bind staticWord?_exact.loud fun _ =>
      .bind (qualifiedName_loud _) fun _ => .bind wildcard?_exact.loud fun _ =>
      .bind (.expect _ _) fun _ => .pure _

theorem importRound_reads :
    RoundReads importRound ImportDeclaration.tokens (fun _ i _ => i.Fits) (fun _ _ => ())
      (fun _ => []) (fun _ _ f => atKind (.keyword .importWord) f = false) := by
  have hi := importDeclaration_exact
  intro x s rest
  refine ⟨fun item y => ?_, fun b => ?_⟩
  · simp only [importRound, takes_bind, takes_ahead, takes_ite, takes_orSkip hi.loud, hi.reads _ _
      _, ParserState.on_rest, Option.mem_def, takes_pure, Step.again.injEq, and_true,
      exists_eq_right_right', exists_eq_right', Bool.not_eq_true, reduceCtorEq, false_and,
      and_false, or_false, and_assoc, exists_and_left, exists_eq_left, atKind_take, true_and]
    constructor
    · rintro ⟨hk, i, rfl, hs, -, hf⟩
      refine ⟨i, rfl, hs, ?_, hf⟩
      rw [hs] at hk
      simpa [ImportDeclaration.tokens, atKind] using hk
    · rintro ⟨i, rfl, hs, hf⟩
      refine ⟨?_, i, rfl, hs, by rw [hf.1]; rfl, hf.2⟩
      rw [hs]
      simp [ImportDeclaration.tokens, atKind, hf.1]
  · simp only [importRound, takes_bind, takes_ahead, takes_ite, takes_pure, reduceCtorEq,
      ParserState.on_rest, false_and, and_false, exists_const, Bool.not_eq_true, true_and, false_or,
      and_assoc, exists_and_left, exists_eq_left, atKind_take, List.nil_append]
    constructor
    · rintro ⟨hk, rfl⟩
      exact ⟨rfl, hk⟩
    · rintro ⟨hs, hk⟩
      obtain rfl : s.rest = rest := hs
      exact ⟨hk, rfl⟩

theorem importRound_loud (x : Unit) : (importRound x).Loud :=
  .bind .ahead fun _ => .ite (fun _ => .bind (.orSkip _ _) fun _ => .pure _) fun _ => .pure _

theorem importDeclarations_exact :
    importDeclarations.Exact (List.flatMap ImportDeclaration.tokens) fun is f =>
      (∀ i ∈ is, i.Fits) ∧ atKind (.keyword .importWord) f = false := by
  have round := importRound_reads
  have nonempty : ∀ (x : Unit) (i : ImportDeclaration) (f : List TokenKind),
      i.Fits → i.tokens ≠ [] := fun _ i _ _ => List.cons_ne_nil _ _
  refine ⟨fun s is rest => ?_, .bind (.rounds importRound_loud (round.steady nonempty))
    fun _ => .pure _⟩
  simp only [importDeclarations, takes_bind, round.takes_rounds nonempty, List.nil_append,
    chain_const, takes_pure, ParserState.on_rest, and_assoc, Prod.exists, exists_const]
  constructor
  · rintro ⟨is, mid, hs, hf, hk, rfl, rfl⟩
    exact ⟨hs, hf, hk⟩
  · rintro ⟨hs, hf, hk⟩
    exact ⟨is, rest, hs, hf, hk, rfl, rfl⟩

/-! ## Reading the declarations of a file -/

/-- Plain tokens do not end the text. -/
theorem atEnd_plain {ts : List Token} (h : Plain ts) (hne : ts ≠ []) (f : List TokenKind) :
    atEnd (kinds ts ++ f) = false := by
  cases ts with
  | nil => exact absurd rfl hne
  | cons t ts =>
    have := (plain_cons.1 h).1
    cases hk : t.kind <;> simp_all [TokenKind.isPlain, atEnd]

theorem ownTokens_ne_nil (d : TypeDeclaration) : d.ownTokens ≠ [] := by
  simp [TypeDeclaration.ownTokens]

theorem topLevelType_takes {ms : List Modifier} {d? : Option TopLevel} :
    (topLevelType ms).Takes s d? rest ↔ ∃ d, d? = some (.type d) ∧ s.rest = d.ownTokens ++ rest ∧
      d.modifiers = ms ∧ d.Fits maxNesting (kinds rest) := by
  have hd := typeOfBudget_exact maxNesting ms
  simp only [topLevelType, takes_bind, takes_orSkip hd.loud, hd.reads _ _ _, takes_pure,
    ParserState.on_rest]
  constructor
  · rintro ⟨_, mid, ⟨d, rfl, hs, hms, hf⟩, rfl, rfl⟩
    exact ⟨d, rfl, hs, hms, hf⟩
  · rintro ⟨d, rfl, hs, hms, hf⟩
    exact ⟨some d, rest, ⟨d, rfl, hs, hms, hf⟩, rfl, rfl⟩

theorem topLevelDeclaration_takes {d? : Option TopLevel} :
    topLevelDeclaration.Takes s d? rest ↔ ∃ d, d? = some (.type d) ∧ s.rest = d.tokens ++ rest ∧
      (TopLevel.type d).Fits maxNesting (kinds rest) := by
  have hm := modifiers_exact (Grammar.ofBudget_exact maxNesting)
  simp only [topLevelDeclaration, takes_bind, takes_orSkip hm.loud, hm.reads _ _ _]
  constructor
  · rintro ⟨_, mid, ⟨ms, rfl, hs, hms⟩, h⟩
    obtain ⟨d, rfl, rfl, rfl, hf⟩ := topLevelType_takes.1 h
    rw [kinds_append] at hms
    exact ⟨d, rfl, by rw [hs, d.tokens_eq, List.append_assoc], hms, hf⟩
  · rintro ⟨d, rfl, hs, hms, hf⟩
    rw [d.tokens_eq, List.append_assoc] at hs
    refine ⟨_, d.ownTokens ++ rest, ⟨d.modifiers, rfl, hs, by rwa [kinds_append]⟩, ?_⟩
    exact topLevelType_takes.2 ⟨d, rfl, rfl, rfl, hf⟩

/-- A round stops just at the end of the text. -/
theorem topLevelRound_stop {pending : List Modifier} {u : Unit} :
    (topLevelRound pending).Takes s (.stop u) rest ↔ s.rest = rest ∧ atEnd (kinds rest) = true := by
  simp only [topLevelRound, Bool.not_eq_eq_eq_not, Bool.not_true, List.isEmpty_eq_false_iff, ne_eq,
    ite_not, takes_bind, takes_ahead, takes_ite, takes_pure, ParserState.on_rest, true_and,
    Bool.not_eq_true, takes_token, reduceCtorEq, false_and, and_false, exists_const, exists_false,
    or_self, or_false, and_assoc, exists_and_left, exists_eq_left, atEnd_take]
  constructor
  · rintro ⟨hend, rfl⟩
    exact ⟨rfl, hend⟩
  · rintro ⟨hs, hend⟩
    obtain rfl : s.rest = rest := hs
    exact ⟨hend, rfl⟩

/-- A round that has modifiers already reads the rest of a type. -/
theorem topLevelRound_pending {pending : List Modifier} (hne : pending ≠ [])
    {item : Option TopLevel} {next : List Modifier} :
    (topLevelRound pending).Takes s (.again item next) rest ↔ ∃ d, item = some (.type d) ∧
      next = [] ∧ s.rest = d.ownTokens ++ rest ∧ d.modifiers = pending ∧
        d.Fits maxNesting (kinds rest) := by
  simp only [topLevelRound, Bool.not_eq_eq_eq_not, Bool.not_true, List.isEmpty_eq_false_iff, ne_eq,
    hne, not_false_eq_true, ↓reduceIte, takes_bind, takes_ahead, takes_ite, takes_pure,
    reduceCtorEq, ParserState.on_rest, false_and, and_false, Bool.not_eq_true, topLevelType_takes,
    Step.again.injEq, and_assoc, false_or, exists_and_left, exists_eq_left, atEnd_take]
  constructor
  · rintro ⟨-, _, mid, ⟨d, rfl, hs, hms, hf⟩, rfl, rfl, rfl⟩
    exact ⟨d, rfl, rfl, hs, hms, hf⟩
  · rintro ⟨d, rfl, rfl, hs, hms, hf⟩
    refine ⟨?_, _, rest, ⟨d, rfl, hs, hms, hf⟩, rfl, rfl, rfl⟩
    rw [hs, kinds_append]
    exact atEnd_plain hf.plain (ownTokens_ne_nil d) _

theorem TopLevel.Fits.plain {d : TopLevel} {f : List TokenKind} (h : d.Fits n f) :
    Plain d.tokens := by
  match d, h with
  | .type d, ⟨hms, hd⟩ =>
    rw [TopLevel.tokens, d.tokens_eq]
    exact plain_append.2 ⟨hms.plain, hd.plain⟩
  | .empty t, hk => simpa [TopLevel.tokens] using TokenKind.isPlain_of_eq hk rfl

theorem TopLevel.tokens_ne_nil (d : TopLevel) : d.tokens ≠ [] := by
  cases d with
  | type d => simp [TopLevel.tokens, d.tokens_eq, ownTokens_ne_nil]
  | empty t => simp [TopLevel.tokens]

/-- A token of this kind may be the first one of a type declaration. -/
def opensType : TokenKind → Bool
  | .at | .identifier _ => true
  | .keyword w => w.isModifier || w = .classWord || w = .interfaceWord || w = .enumWord
  | _ => false

/-- How the words that declare a type begin. -/
theorem introducer_begins {kind : TypeKind} {words : Words} (h : fitsIntroducer kind words) :
    opensType words.first.kind = true := by
  rcases h.shape with ⟨t, rfl, hk⟩ | ⟨sigil, word, rfl, hs, -⟩
  · show opensType t.kind = true
    rcases hk with hk | hk | hk | hk <;> rw [hk] <;> rfl
  · show opensType sigil.kind = true
    rw [hs]
    rfl

/-- How a modifier begins. -/
theorem modifier_opens {m : Modifier} {f : List TokenKind} (h : m.Fits n f) :
    ∃ t ts, m.tokens = t :: ts ∧ opensType t.kind = true := by
  match m, h with
  | .annot a, ⟨_, h⟩ =>
    obtain ⟨ts, ht⟩ := a.tokens_eq_cons
    exact ⟨a.sigil, ts, ht, by rw [h.sigil.2]; rfl⟩
  | .keyword t, h =>
    obtain ⟨w, hw⟩ := exists_keyword_of_isModifierKeyword h
    refine ⟨t, [], rfl, ?_⟩
    have h : t.kind.isModifierKeyword = true := h
    rw [hw] at h ⊢
    simp only [TokenKind.isModifierKeyword] at h
    simp [opensType, h]
  | .contextual ⟨word, []⟩, h =>
    exact ⟨word, [], rfl, by rw [eq_identifier_of_atSealed h]; rfl⟩
  | .contextual ⟨non, [hyphen, word]⟩, h =>
    exact ⟨non, [hyphen, word], rfl, by rw [(atNonSealed_iff.1 h).1]; rfl⟩

/-- How a type at the top of a file begins. -/
theorem type_opens {d : TypeDeclaration} {f : List TokenKind} (h : (TopLevel.type d).Fits n f) :
    ∃ t ts, d.tokens = t :: ts ∧ opensType t.kind = true := by
  obtain ⟨hms, hd⟩ := h
  obtain ⟨ms, kind, words, name, header, opening, members, closing⟩ := d
  obtain ⟨hi, -⟩ := hd
  rw [TypeDeclaration.tokens_eq]
  cases ms with
  | nil => exact ⟨words.first, _, rfl, introducer_begins hi⟩
  | cons m ms =>
    obtain ⟨t, ts, ht, hk⟩ := modifier_opens hms.1.1
    exact ⟨t, ts ++ _, by rw [Modifier.listTokens, List.flatMap_cons, ht, List.append_assoc]; rfl, hk⟩

/-- After its modifiers, a type begins with no token of another kind. -/
theorem own_begins {d : TypeDeclaration} {f g : List TokenKind} (h : d.Fits n f) {k : TokenKind}
    (hk : opensType k = false) : atKind k (kinds d.ownTokens ++ g) = false := by
  obtain ⟨ms, kind, words, name, header, opening, members, closing⟩ := d
  have ho := introducer_begins h.1
  have hne : words.first.kind ≠ k := fun h => by simp [h, hk] at ho
  simp [TypeDeclaration.ownTokens, Words.tokens, atKind, hne]

/-- A type begins with no token of another kind. -/
theorem type_begins {d : TypeDeclaration} {f g : List TokenKind}
    (h : (TopLevel.type d).Fits n f) {k : TokenKind} (hk : opensType k = false) :
    atKind k (kinds d.tokens ++ g) = false := by
  obtain ⟨t, ts, ht, ho⟩ := type_opens h
  have hne : t.kind ≠ k := fun h => by simp [h, hk] at ho
  simp [ht, atKind, hne]

/-- A round without modifiers reads a whole declaration. -/
theorem topLevelRound_again {item : Option TopLevel} {next : List Modifier} :
    (topLevelRound []).Takes s (.again item next) rest ↔ ∃ d, item = some d ∧
      next = [] ∧ s.rest = d.tokens ++ rest ∧ d.Fits maxNesting (kinds rest) := by
  simp only [topLevelRound, List.isEmpty_nil, Bool.not_true, Bool.false_eq_true, ↓reduceIte,
    takes_bind, takes_ahead, takes_ite, takes_pure, reduceCtorEq, ParserState.on_rest, false_and,
    and_false, Bool.not_eq_true, takes_token, Step.again.injEq, and_assoc,
    topLevelDeclaration_takes, false_or, exists_and_left, exists_eq_left, atEnd_take, atKind_take]
  constructor
  · rintro ⟨-, ⟨hk, t, mid, hs, -, rfl, rfl, rfl⟩ | ⟨hk, _, mid, ⟨d, rfl, hs, hf⟩, rfl, rfl, rfl⟩⟩
    · rw [hs] at hk
      have hk : t.kind = .semicolon := by simpa [atKind] using hk
      exact ⟨.empty t, rfl, rfl, hs, hk⟩
    · exact ⟨.type d, rfl, rfl, hs, hf⟩
  · rintro ⟨d, rfl, rfl, hs, hf⟩
    refine ⟨?_, ?_⟩
    · rw [hs, kinds_append]
      exact atEnd_plain (TopLevel.Fits.plain hf) (TopLevel.tokens_ne_nil d) _
    · cases d with
      | empty t =>
        have hk : t.kind = .semicolon := hf
        exact .inl ⟨by rw [hs]; simp [TopLevel.tokens, atKind, hk], t, rest, hs, by rw [hk]; rfl,
          rfl, rfl, rfl⟩
      | type d =>
        refine .inr ⟨?_, _, rest, ⟨d, rfl, hs, hf⟩, rfl, rfl, rfl⟩
        rw [hs, TopLevel.tokens, kinds_append]
        exact type_begins hf rfl

theorem topLevelRound_steady : Steady topLevelRound := by
  intro pending s item next rest h
  by_cases hne : pending = []
  · subst hne
    obtain ⟨d, rfl, -, hs, -⟩ := topLevelRound_again.1 h
    have := List.length_pos_iff.2 (TopLevel.tokens_ne_nil d)
    refine ⟨rfl, ?_⟩
    rw [hs, List.length_append]
    omega
  · obtain ⟨d, rfl, -, hs, -⟩ := (topLevelRound_pending hne).1 h
    have := List.length_pos_iff.2 (ownTokens_ne_nil d)
    refine ⟨rfl, ?_⟩
    rw [hs, List.length_append]
    omega

theorem takes_topLevelRounds {ds : List TopLevel} {u : Unit} :
    (rounds topLevelRound []).Takes s (ds, u) rest ↔ s.rest = ds.flatMap TopLevel.tokens ++ rest ∧
      TopLevel.listFits maxNesting ds (kinds rest) ∧ atEnd (kinds rest) = true := by
  induction ds generalizing s with
  | nil =>
    rw [takes_rounds_nil topLevelRound_steady, topLevelRound_stop]
    simp [TopLevel.listFits]
  | cons d ds ih =>
    rw [takes_rounds_cons topLevelRound_steady]
    constructor
    · rintro ⟨next, mid, hr, hrs⟩
      obtain ⟨d', hd, rfl, hs, hf⟩ := topLevelRound_again.1 hr
      cases hd
      obtain ⟨hmid, hds, hend⟩ := ih.1 hrs
      rw [ParserState.on_rest] at hmid
      subst hmid
      rw [kinds_append] at hf
      exact ⟨by rw [hs, List.flatMap_cons, List.append_assoc], ⟨hf, hds⟩, hend⟩
    · rintro ⟨hs, ⟨hf, hds⟩, hend⟩
      rw [List.flatMap_cons, List.append_assoc] at hs
      refine ⟨[], _, topLevelRound_again.2 ⟨d, rfl, rfl, hs, by rwa [kinds_append]⟩, ?_⟩
      exact ih.2 ⟨rfl, hds, hend⟩

/-- The modifiers that were read already belong to the first type, or nothing is left. -/
theorem takes_topLevelRounds_pending {pending : List Modifier} (hne : pending ≠ [])
    {ds : List TopLevel} {u : Unit} :
    (rounds topLevelRound pending).Takes s (ds, u) rest ↔
      (ds = [] ∧ s.rest = rest ∧ atEnd (kinds rest) = true) ∨
      (∃ d others, ds = .type d :: others ∧ d.modifiers = pending ∧
        s.rest = d.ownTokens ++ (others.flatMap TopLevel.tokens ++ rest) ∧
        d.Fits maxNesting (kinds (others.flatMap TopLevel.tokens ++ rest)) ∧
        TopLevel.listFits maxNesting others (kinds rest) ∧ atEnd (kinds rest) = true) := by
  cases ds with
  | nil =>
    rw [takes_rounds_nil topLevelRound_steady, topLevelRound_stop]
    simp
  | cons d ds =>
    rw [takes_rounds_cons topLevelRound_steady]
    constructor
    · rintro ⟨next, mid, hr, hrs⟩
      obtain ⟨d', hd, rfl, hs, hms, hf⟩ := (topLevelRound_pending hne).1 hr
      cases hd
      obtain ⟨hmid, hds, hend⟩ := takes_topLevelRounds.1 hrs
      rw [ParserState.on_rest] at hmid
      subst hmid
      exact .inr ⟨d', ds, rfl, hms, hs, hf, hds, hend⟩
    · rintro (⟨h, -⟩ | ⟨d', others, h, hms, hs, hf, hds, hend⟩)
      · cases h
      · cases h
        refine ⟨[], _, (topLevelRound_pending hne).2 ⟨d', rfl, rfl, hs, hms, hf⟩, ?_⟩
        exact takes_topLevelRounds.2 ⟨rfl, hds, hend⟩

/-! ## Whole files -/

theorem takes_packagePart {leading pending : List Modifier} {p? : Option PackageDeclaration} :
    (packagePart leading).Takes s (p?, pending) rest ↔
      (∃ p, p? = some p ∧ pending = [] ∧ s.rest = packageTokens p ++ rest ∧
        leading = p.annotations.map .annot ∧ p.word.kind = .keyword .packageWord ∧
        p.name.Fits [] ∧ p.semicolon.kind = .semicolon) ∨
      (atKind (.keyword .packageWord) (kinds s.rest) = false ∧ p? = none ∧ pending = leading ∧
        rest = s.rest) := by
  have hp := packageDeclaration_exact leading
  simp only [packagePart, takes_bind, takes_ahead, takes_ite, takes_orSkip hp.loud, hp.reads _ _ _,
    ParserState.on_rest, takes_pure, Prod.mk.injEq, and_assoc, Bool.not_eq_true, exists_and_left,
    exists_eq_left, atKind_take]
  constructor
  · rintro (⟨hk, _, mid, ⟨p, rfl, hs, rfl, -, hname, hsemicolon⟩, rfl, rfl, rfl⟩ | h)
    · rw [hs] at hk
      exact .inl ⟨p, rfl, rfl, hs, rfl, by simpa [packageTokens, atKind] using hk, hname, hsemicolon⟩
    · exact .inr h
  · rintro (⟨p, rfl, rfl, hs, rfl, hk, hname, hsemicolon⟩ | h)
    · refine .inl ⟨?_, _, rest, ⟨p, rfl, hs, rfl, by rw [hk]; rfl, hname, hsemicolon⟩, rfl, rfl, rfl⟩
      rw [hs]
      simp [packageTokens, atKind, hk]
    · exact .inr h

theorem takes_endToken {t : Token} :
    endToken.Takes s t rest ↔ (s.rest = t :: rest ∧ t.kind.isError = false) ∨
      (s.rest = [] ∧ t = .synthetic .eof ∧ rest = []) := by
  simp only [endToken, takes_bind, takes_peek, takes_ite, takes_token, ParserState.on_rest,
    Bool.not_eq_true, Option.isSome_eq_false_iff, Option.isNone_iff_eq_none, takes_pure, and_assoc,
    exists_and_left, exists_eq_left, List.isSome_head?, ne_eq, List.head?_eq_none_iff]
  constructor
  · rintro (⟨-, h⟩ | ⟨hs, rfl, hrest⟩)
    · exact .inl h
    · exact .inr ⟨hs, rfl, hrest.trans hs⟩
  · rintro (⟨hs, h⟩ | ⟨hs, rfl, rfl⟩)
    · exact .inl ⟨by simp [hs], hs, h⟩
    · exact .inr ⟨hs, rfl, hs.symm⟩

/-- Plain tokens before the end of the text are all tokens but the last one. -/
theorem eq_of_plain_append {ts body mid : List Token} {e : Token} (hts : Plain ts)
    (hmid : atEnd (kinds mid) = true) (hbody : ∀ t ∈ body, t.kind ≠ .eof) (he : e.kind = .eof)
    (h : ts ++ mid = body ++ [e]) : ts = body ∧ mid = [e] := by
  cases mid with
  | nil =>
    have : e ∈ ts := by simp [show ts = body ++ [e] by simpa using h]
    simpa [TokenKind.isPlain, he] using hts e this
  | cons t mid =>
    have ht : t.kind = .eof := by simpa [atEnd] using hmid
    rcases List.append_eq_append_iff.1 h with ⟨as, rfl, hx⟩ | ⟨as, rfl, hx⟩
    · cases as with
      | nil => exact ⟨by simp, hx⟩
      | cons a as =>
        obtain ⟨rfl, -⟩ := List.cons.inj hx
        exact absurd ht (hbody t (by simp))
    · cases as with
      | nil => exact ⟨by simp, hx.symm⟩
      | cons a as =>
        have : e = a := by simpa using (List.cons.inj hx).1
        have := hts e (by simp [this])
        simp [TokenKind.isPlain, he] at this

/-- **`OnlyModifiers s u e`** — nothing but modifiers is left to read before the token `e`, and the
file has none of them. -/
def OnlyModifiers (s : ParserState) (u : CompilationUnit) (e : Token) : Prop :=
  ∃ ms, ms ≠ [] ∧ s.rest = Modifier.listTokens ms ++ [e] ∧ u = ⟨none, [], [], e⟩

theorem ImportDeclaration.Fits.plain {i : ImportDeclaration} (h : i.Fits) : Plain i.tokens := by
  obtain ⟨hw, hs, hname, hwild, hk⟩ := h
  have hstatic : Plain i.static?.toList := by
    cases h : i.static? with
    | none => exact plain_nil
    | some t => simpa using TokenKind.isPlain_of_eq (hs t h) rfl
  have hwildcard : Plain (wildcardTokens i.wildcard?) := by
    cases h : i.wildcard? with
    | none => exact plain_nil
    | some w =>
      simp [wildcardTokens, TokenKind.isPlain_of_eq (hwild w h).1 rfl,
        TokenKind.isPlain_of_eq (hwild w h).2 rfl]
  rw [← List.append_nil i.tokens, importTokens_append]
  simp [TokenKind.isPlain_of_eq hw rfl, hstatic, hname.plain, hwildcard,
    TokenKind.isPlain_of_eq hk rfl]

theorem packageTokens_plain {p : PackageDeclaration} (hw : p.word.kind = .keyword .packageWord)
    (hname : p.name.Fits []) (hk : p.semicolon.kind = .semicolon) : Plain (packageTokens p) := by
  simp [packageTokens, TokenKind.isPlain_of_eq hw rfl, hname.plain, TokenKind.isPlain_of_eq hk rfl]

theorem imports_plain {is : List ImportDeclaration} (h : ∀ i ∈ is, i.Fits) :
    Plain (is.flatMap ImportDeclaration.tokens) := by
  intro t ht
  obtain ⟨i, hi, ht⟩ := List.mem_flatMap.1 ht
  exact ImportDeclaration.Fits.plain (h i hi) t ht

theorem types_plain {ds : List TopLevel} {f : List TokenKind} (h : TopLevel.listFits n ds f) :
    Plain (ds.flatMap TopLevel.tokens) := by
  induction ds with
  | nil => exact plain_nil
  | cons d ds ih => exact plain_append.2 ⟨TopLevel.Fits.plain h.1, ih h.2⟩

theorem packageDeclaration_tokens (p : PackageDeclaration) :
    p.tokens = Modifier.listTokens (p.annotations.map .annot) ++ packageTokens p := by
  simp [PackageDeclaration.tokens, packageTokens, Modifier.listTokens, List.flatMap_map,
    Modifier.tokens]

/-- The imports of a file, unless modifiers wait for a type. -/
theorem takes_importPart {pending : List Modifier} {is : List ImportDeclaration} :
    (importPart pending).Takes s is rest ↔
      (pending = [] ∧ s.rest = is.flatMap ImportDeclaration.tokens ++ rest ∧ (∀ i ∈ is, i.Fits) ∧
        atKind (.keyword .importWord) (kinds rest) = false) ∨
      (pending ≠ [] ∧ is = [] ∧ rest = s.rest) := by
  simp only [importPart, List.isEmpty_iff, takes_ite, importDeclarations_exact.reads _ _ _,
    takes_pure, ne_eq]

/-- The declarations of a file, up to its end. -/
theorem takes_topLevels {pending : List Modifier} {ds : List TopLevel} :
    (topLevels pending).Takes s ds rest ↔
      (rounds topLevelRound pending).Takes s (ds, ()) rest := by
  simp only [topLevels, takes_bind, takes_pure, Prod.exists]
  constructor
  · rintro ⟨ds, ⟨⟩, mid, h, rfl, rfl⟩
    exact h
  · intro h
    exact ⟨ds, (), rest, h, rfl, rfl⟩

/-- The parts of a file, as the parser reads them. -/
theorem takes_compilationUnit {u : CompilationUnit} :
    compilationUnit.Takes s u rest ↔ ∃ leading pending s₁ s₂ s₃ s₄,
      (modifiers (.ofBudget maxNesting)).Takes s leading s₁ ∧
      (packagePart leading).Takes (s.on s₁) (u.package?, pending) s₂ ∧
      (importPart pending).Takes ((s.on s₁).on s₂) u.imports s₃ ∧
      (topLevels pending).Takes (((s.on s₁).on s₂).on s₃) u.types s₄ ∧
      endToken.Takes ((((s.on s₁).on s₂).on s₃).on s₄) u.eof rest := by
  have hm := modifiers_exact (Grammar.ofBudget_exact maxNesting)
  simp only [compilationUnit, takes_bind, takes_orSkip hm.loud, takes_pure, Prod.exists]
  constructor
  · rintro ⟨_, s₁, ⟨leading, rfl, h₁⟩, p?, pending, s₂, h₂, is, s₃, h₃, ds, s₄, h₄, e, s₅, h₅, rfl,
      rfl⟩
    exact ⟨leading, pending, s₁, s₂, s₃, s₄, h₁, h₂, h₃, h₄, h₅⟩
  · rintro ⟨leading, pending, s₁, s₂, s₃, s₄, h₁, h₂, h₃, h₄, h₅⟩
    exact ⟨_, s₁, ⟨leading, rfl, h₁⟩, u.package?, pending, s₂, h₂, u.imports, s₃, h₃, u.types, s₄, h₄,
      u.eof, rest, h₅, rfl, rfl⟩

/-- What is left at the end of a file is the token that ends it. -/
theorem eof_of_takes {t e : Token} {us : List Token} (h : (us = t :: rest ∧ t.kind.isError = false) ∨
    (us = [] ∧ t = .synthetic .eof ∧ rest = [])) (hu : us = [e]) : t = e := by
  rcases h with ⟨rfl, -⟩ | ⟨rfl, -⟩
  · exact (List.cons.inj hu).1
  · cases hu

/-- What a file without errors is read as: its tokens are those of its tree, which fits, or else of
modifiers that fit. -/
theorem compilationUnit_cases {u : CompilationUnit} {body : List Token} {e : Token}
    (h : compilationUnit.Takes s u rest) (hs : s.rest = body ++ [e])
    (hbody : ∀ t ∈ body, t.kind ≠ .eof) (he : e.kind = .eof) :
    (s.rest = u.tokens ∧ u.Fits maxNesting) ∨
      ∃ ms, Modifier.listFits maxNesting ms [.eof] ∧ ms ≠ [] ∧
        s.rest = Modifier.listTokens ms ++ [e] ∧ u = ⟨none, [], [], e⟩ := by
  have hm := modifiers_exact (Grammar.ofBudget_exact maxNesting)
  obtain ⟨leading, pending, s₁, s₂, s₃, s₄, h₁, h₂, h₃, h₄, h₅⟩ := takes_compilationUnit.1 h
  obtain ⟨hs₁, hleading⟩ := (hm.reads _ _ _).1 h₁
  rw [takes_packagePart] at h₂
  rw [takes_importPart] at h₃
  rw [takes_topLevels] at h₄
  rw [takes_endToken] at h₅
  simp only [ParserState.on_rest] at h₂ h₃ h₅
  obtain ⟨package?, imports, types, eof⟩ := u
  simp only at h₂ h₃ h₄ h₅
  -- the last token is the only one of its kind, so what is left after plain tokens is it
  have finish {ts : List Token} (hts : Plain ts) (hend : atEnd (kinds s₄) = true)
      (heq : s.rest = ts ++ s₄) : s₄ = [e] ∧ eof = e := by
    obtain ⟨-, hu⟩ := eq_of_plain_append hts hend hbody he (heq.symm.trans hs)
    exact ⟨hu, eof_of_takes h₅ hu⟩
  rcases h₃ with ⟨rfl, rfl, hi, -⟩ | ⟨hne, rfl, rfl⟩
  · obtain ⟨hs₃, htypes, hend⟩ := takes_topLevelRounds.1 h₄
    rw [ParserState.on_rest] at hs₃
    subst hs₃
    have hplain := plain_append.2 ⟨imports_plain hi, types_plain htypes⟩
    rcases h₂ with ⟨p, rfl, -, rfl, rfl, hw, hname, hk⟩ | ⟨-, rfl, rfl, rfl⟩
    · have htokens : s.rest = (p.tokens ++ (imports.flatMap ImportDeclaration.tokens
          ++ types.flatMap TopLevel.tokens)) ++ s₄ := by
        rw [hs₁, packageDeclaration_tokens]
        simp
      have hp : Plain p.tokens := by
        rw [packageDeclaration_tokens]
        exact plain_append.2 ⟨hleading.plain, packageTokens_plain hw hname hk⟩
      obtain ⟨rfl, rfl⟩ := finish (plain_append.2 ⟨hp, hplain⟩) hend htokens
      refine .inl ⟨by simp [htokens, CompilationUnit.tokens], ⟨?_, hi, htypes, he⟩⟩
      rintro _ ⟨⟩
      refine ⟨?_, hw, hname, hk⟩
      simpa [packageTokens] using hleading
    · have htokens : s.rest = (imports.flatMap ImportDeclaration.tokens
          ++ types.flatMap TopLevel.tokens) ++ s₄ := by
        rw [hs₁]
        simp [Modifier.listTokens]
      obtain ⟨rfl, rfl⟩ := finish hplain hend htokens
      exact .inl ⟨by simp [htokens, CompilationUnit.tokens], ⟨by simp, hi, htypes, he⟩⟩
  · obtain ⟨p, rfl, rfl, -⟩ | ⟨-, rfl, rfl, rfl⟩ := h₂
    · exact absurd rfl hne
    rcases (takes_topLevelRounds_pending hne).1 h₄ with ⟨rfl, hs₃, hend⟩ |
      ⟨d, others, rfl, rfl, hs₃, hd, hothers, hend⟩
    · rw [ParserState.on_rest] at hs₃
      subst hs₃
      obtain ⟨rfl, rfl⟩ := finish hleading.plain hend hs₁
      exact .inr ⟨pending, by simpa [he] using hleading, hne, hs₁, rfl⟩
    · rw [ParserState.on_rest] at hs₃
      subst hs₃
      rw [kinds_append] at hleading hd
      have htypes : TopLevel.listFits maxNesting (.type d :: others) (kinds s₄) :=
        ⟨⟨by simpa using hleading, by simpa using hd⟩, hothers⟩
      have htokens : s.rest = (TopLevel.type d :: others).flatMap TopLevel.tokens ++ s₄ := by
        rw [hs₁, List.flatMap_cons, TopLevel.tokens, d.tokens_eq]
        simp
      obtain ⟨rfl, rfl⟩ := finish (types_plain htypes) hend htokens
      exact .inl ⟨by simp [htokens, CompilationUnit.tokens], ⟨by simp, by simp, htypes, he⟩⟩

/-- **Files are read whole** — a file without errors has the tokens of its tree, which fits, or
nothing but modifiers. -/
theorem compilationUnit_sound {u : CompilationUnit} {body : List Token} {e : Token}
    (h : compilationUnit.Takes s u rest) (hs : s.rest = body ++ [e])
    (hbody : ∀ t ∈ body, t.kind ≠ .eof) (he : e.kind = .eof) :
    (s.rest = u.tokens ∧ u.Fits maxNesting) ∨ OnlyModifiers s u e := by
  rcases compilationUnit_cases h hs hbody he with whole | ⟨ms, -, only⟩
  · exact .inl whole
  · exact .inr ⟨ms, only⟩

/-- A file begins with no modifier, unless its first declaration does, and never with a package
without one. -/
theorem unit_begins {is : List ImportDeclaration} {ds : List TopLevel} {e : Token}
    (hi : ∀ i ∈ is, i.Fits) (hds : TopLevel.listFits n ds [.eof]) (he : e.kind = .eof)
    (hplain : is = [] → ∀ d others, ds = .type d :: others → d.modifiers = []) :
    let f := kinds (is.flatMap ImportDeclaration.tokens ++ (ds.flatMap TopLevel.tokens ++ [e]))
    startsModifier f = false ∧ atKind (.keyword .packageWord) f = false := by
  match is, ds, hds with
  | i :: is, ds, _ =>
    have hw := (hi i (List.mem_cons_self ..)).1
    have hm : Keyword.importWord.isModifier = false := by decide
    have hp : Keyword.importWord ≠ .packageWord := by decide
    simp [ImportDeclaration.tokens, hw, startsModifier, atAnnotation, TokenKind.isModifierKeyword, hm,
      atSealed, atNonSealed, atKind, hp]
  | [], [], _ =>
    simp [he, startsModifier, atAnnotation, TokenKind.isModifierKeyword, atSealed, atNonSealed, atKind]
  | [], .empty t :: ds, ⟨hk, _⟩ =>
    have hk : t.kind = .semicolon := hk
    simp [TopLevel.tokens, hk, startsModifier, atAnnotation, TokenKind.isModifierKeyword, atSealed,
      atNonSealed, atKind]
  | [], .type d :: ds, ⟨hd, _⟩ =>
    have hms := hplain rfl d ds rfl
    refine ⟨?_, ?_⟩
    · have := hd.1.2
      rw [List.flatMap_nil, List.nil_append, List.flatMap_cons, TopLevel.tokens, d.tokens_eq, hms,
        List.append_assoc, kinds_append]
      simpa [Modifier.listTokens, he] using this
    · rw [List.flatMap_nil, List.nil_append, List.flatMap_cons, TopLevel.tokens, List.append_assoc,
        kinds_append]
      exact type_begins hd (by decide)

/-- After the imports of a file comes no other one. -/
theorem types_begin {ds : List TopLevel} {e : Token} (hds : TopLevel.listFits n ds [.eof])
    (he : e.kind = .eof) :
    atKind (.keyword .importWord) (kinds (ds.flatMap TopLevel.tokens ++ [e])) = false := by
  match ds, hds with
  | [], _ => simp [he, atKind]
  | .empty t :: ds, ⟨hk, _⟩ =>
    have hk : t.kind = .semicolon := hk
    simp [TopLevel.tokens, hk, atKind]
  | .type d :: ds, ⟨hd, _⟩ =>
    rw [List.flatMap_cons, TopLevel.tokens, List.append_assoc, kinds_append]
    exact type_begins hd (by decide)

/-- The parts of a file, when no modifiers wait for a type, from the imports on. -/
theorem takes_body {is : List ImportDeclaration} {ds : List TopLevel} {e : Token}
    (hi : ∀ i ∈ is, i.Fits) (hds : TopLevel.listFits maxNesting ds [.eof]) (he : e.kind = .eof)
    (hs : s.rest = is.flatMap ImportDeclaration.tokens ++ (ds.flatMap TopLevel.tokens ++ [e])) :
    (importPart []).Takes s is (ds.flatMap TopLevel.tokens ++ [e]) ∧
      (topLevels []).Takes (s.on (ds.flatMap TopLevel.tokens ++ [e])) ds [e] := by
  refine ⟨takes_importPart.2 (.inl ⟨rfl, hs, hi, types_begin hds he⟩), ?_⟩
  refine takes_topLevels.2 (takes_topLevelRounds.2 ⟨rfl, ?_, ?_⟩)
  · simpa [he] using hds
  · simp [he, atEnd]

theorem takes_eof {e : Token} (he : e.kind = .eof) : endToken.Takes (s.on [e]) e [] :=
  takes_endToken.2 (.inl ⟨rfl, by rw [he]; rfl⟩)

/-- **Files that fit are read** — the tokens of a file that fits are read as that file. -/
theorem compilationUnit_complete {u : CompilationUnit} (hf : u.Fits maxNesting)
    (hs : s.rest = u.tokens) : compilationUnit.Takes s u [] := by
  have hm := modifiers_exact (Grammar.ofBudget_exact maxNesting)
  obtain ⟨package?, imports, types, eof⟩ := u
  obtain ⟨hp, hi, htypes, he⟩ := hf
  simp only [kinds_cons, kinds_nil] at hp hi htypes he
  rw [he] at htypes
  rw [takes_compilationUnit]
  match package?, hs, hp with
  | some p, hs, hp =>
    obtain ⟨hannotations, hw, hname, hk⟩ := hp p rfl
    let after := imports.flatMap ImportDeclaration.tokens ++ (types.flatMap TopLevel.tokens ++ [eof])
    have htokens : s.rest = Modifier.listTokens (p.annotations.map .annot)
        ++ (packageTokens p ++ after) := by
      simp [hs, CompilationUnit.tokens, packageDeclaration_tokens, after]
    have h₁ := (hm.reads s _ _).2 ⟨htokens, by simpa [packageTokens, after] using hannotations⟩
    have h₂ : (packagePart (p.annotations.map .annot)).Takes (s.on (packageTokens p ++ after))
        (some p, []) after :=
      takes_packagePart.2 (.inl ⟨p, rfl, rfl, rfl, rfl, hw, hname, hk⟩)
    obtain ⟨h₃, h₄⟩ := takes_body (s := (s.on (packageTokens p ++ after)).on after) hi htypes he rfl
    exact ⟨_, [], _, after, _, [eof], h₁, h₂, h₃, h₄, takes_eof he⟩
  | none, hs, _ =>
    have hs : s.rest = imports.flatMap ImportDeclaration.tokens
        ++ (types.flatMap TopLevel.tokens ++ [eof]) := by simp [hs, CompilationUnit.tokens]
    -- modifiers at the top are read before anything else, whatever they belong to
    by_cases hplain : imports = [] → ∀ d others, types = .type d :: others → d.modifiers = []
    · obtain ⟨hmodifier, hpackage⟩ := unit_begins hi htypes he hplain
      have h₁ := (hm.reads s [] s.rest).2 ⟨rfl, trivial, by rw [hs]; exact hmodifier⟩
      have h₂ : (packagePart []).Takes (s.on s.rest) (none, []) s.rest :=
        takes_packagePart.2 (.inr ⟨by rw [ParserState.on_rest, hs]; exact hpackage, rfl, rfl, rfl⟩)
      obtain ⟨h₃, h₄⟩ := takes_body (s := (s.on s.rest).on s.rest) hi htypes he (by simpa using hs)
      exact ⟨[], [], s.rest, s.rest, _, [eof], h₁, h₂, h₃, h₄, takes_eof he⟩
    · -- the modifiers at the top of the file are those of its first type
      simp only [Classical.not_imp, Classical.not_forall] at hplain
      obtain ⟨rfl, d, others, rfl, hne⟩ := hplain
      obtain ⟨⟨hms, hd⟩, hothers⟩ := htypes
      let after := d.ownTokens ++ (others.flatMap TopLevel.tokens ++ [eof])
      have htokens : s.rest = Modifier.listTokens d.modifiers ++ after := by
        simp [hs, TopLevel.tokens, d.tokens_eq, after]
      have h₁ := (hm.reads s d.modifiers after).2 ⟨htokens, by simpa [after, he] using hms⟩
      have h₂ : (packagePart d.modifiers).Takes (s.on after) (none, d.modifiers) after := by
        refine takes_packagePart.2 (.inr ⟨?_, rfl, rfl, rfl⟩)
        rw [ParserState.on_rest, kinds_append]
        exact own_begins hd (by decide)
      have h₃ : (importPart d.modifiers).Takes ((s.on after).on after) [] after :=
        takes_importPart.2 (.inr ⟨hne, rfl, rfl⟩)
      have h₄ : (topLevels d.modifiers).Takes (((s.on after).on after).on after)
          (.type d :: others) [eof] := by
        refine takes_topLevels.2 ((takes_topLevelRounds_pending hne).2 (.inr ⟨d, others, rfl, rfl, rfl,
          ?_, ?_, ?_⟩))
        · simpa [he] using hd
        · simpa [he] using hothers
        · simp [he, atEnd]
      exact ⟨_, _, _, _, _, [eof], h₁, h₂, h₃, h₄, takes_eof he⟩

end Parser

end DeferFetch
