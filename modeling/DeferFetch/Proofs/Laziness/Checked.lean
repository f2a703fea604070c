/-
# DeferFetch.Proofs.Laziness.Checked — what a synthesis has checked.

A directive may be any text, and of its first argument is checked only that its value is of the type of
the fetch modes and that its text ends in `.LAZY`. That is enough: a value of that type ends in a word
that stands apart, or in a closing bracket (`EndsApart`), and so does its text; and the only word that
stands apart at the end of such a text is the constant.
-/
import DeferFetch.Proofs.Laziness.Attempts

namespace DeferFetch

/-! ## The end of a text -/

/-- A text that ends in a word after a dot ends in no other word. -/
theorem eq_of_dot_suffix {p : Char → Bool} {word xs ys : List Char} (dot : p '.' = false)
    (hword : ∀ c ∈ word, p c = true) (hys : ∀ c ∈ ys, p c = true)
    (apart : ∀ d, xs.getLast? = some d → p d = false) (ends : '.' :: word <:+ xs ++ ys) :
    ys = word := by
  -- what a text ends in is what it begins with from behind
  have behind (ws zs : List Char) (hws : ∀ c ∈ ws, p c = true)
      (hzs : ∀ d, zs.getLast? = some d → p d = false) :
      (zs ++ ws).reverse.takeWhile p = ws.reverse := by
    rw [List.reverse_append]
    refine (takeWhile_append_stop zs.reverse (fun c hc => hws c (List.mem_reverse.1 hc)) ?_).1
    intro d hd
    exact hzs d (by rwa [List.getLast?_eq_head?_reverse])
  obtain ⟨zs, text⟩ := ends
  have after : (zs ++ ['.'] ++ word).reverse.takeWhile p = word.reverse := by
    refine behind word (zs ++ ['.']) hword fun d hd => ?_
    rw [List.getLast?_append] at hd
    cases hd
    exact dot
  rw [List.append_assoc, List.singleton_append, text, behind ys xs hys apart] at after
  exact List.reverse_inj.1 after

section Tokens

variable {ts : List Token} {t : Token} {name : String}

/-- The text that is looked at for the constant, if it ends in no white space. -/
theorem suffix_of_endsInLazy (solid : ∀ d, (spelling ts).getLast? = some d → Text.isBlank d = false)
    (ends : endsInLazy (print ts) = true) : ".LAZY".toList <:+ spelling ts := by
  rw [endsInLazy, Text.trimEnd, toList_print, dropBlankEnd_of_solid solid,
    List.isSuffixOf_iff_suffix, String.toList_ofList (l := spelling ts)] at ends
  exact ends

/-- What stands before a token ends in a character that no word has, if the token before it does. -/
theorem not_isIdentifierPart_of_before {tail : List Char} (legible : Legible (ts ++ [t]) tail)
    (apart : ∀ u, ts.getLast? = some u → u.kind = .dot ∨ u.kind = .at) {d : Char}
    (last : (spelling ts ++ t.leadingText.toList).getLast? = some d) : isIdentifierPart d = false := by
  have gap : Gap t.leadingText.toList := (legible_append.1 legible).2.1
  rw [List.getLast?_append] at last
  cases lead : t.leadingText.toList.getLast? with
  | some e =>
    rw [lead] at last
    cases last
    exact (gap.endsToken_last lead).inert.1
  | none =>
    -- nothing stands between the two tokens
    rw [lead, Option.none_or] at last
    rcases List.eq_nil_or_concat ts with rfl | ⟨us, u, rfl⟩
    · cases last
    · rw [List.concat_eq_append] at last apart
      have mark := apart u (by simp)
      rw [spelling_append, spelling_cons, spelling_nil, List.append_nil, List.getLast?_append,
        List.getLast?_append] at last
      rcases mark with mark | mark <;>
        · rw [mark] at last
          cases last
          decide

/-- **The word that a lazy text ends in** — if it stands apart, it is the constant. -/
theorem eq_lazy_of_endsInLazy {tail : List Char} (legible : Legible (ts ++ [t]) tail)
    (word : t.kind = .identifier name)
    (apart : ∀ u, ts.getLast? = some u → u.kind = .dot ∨ u.kind = .at)
    (ends : endsInLazy (print (ts ++ [t])) = true) : name = "LAZY" := by
  obtain ⟨-, c, cs, text, start, parts⟩ := legible.isIdentifier t (by simp) name word
  have letters : ∀ d ∈ name.toList, isIdentifierPart d = true := by
    rw [text]
    exact List.forall_mem_cons.2 ⟨by rw [isIdentifierPart, start, Bool.true_or], parts⟩
  have split : spelling (ts ++ [t]) = spelling ts ++ t.leadingText.toList ++ name.toList := by
    rw [spelling_append, spelling_cons, spelling_nil, word, List.append_nil, List.append_assoc]
    rfl
  have solid : ∀ d, (spelling (ts ++ [t])).getLast? = some d → Text.isBlank d = false := by
    intro d last
    cases blank : Text.isBlank d with
    | false => rfl
    | true =>
      rw [split, List.getLast?_append, text, List.getLast?_cons, Option.some_or, ← List.getLast?_cons,
        ← text] at last
      have letter := letters d (List.mem_of_getLast? last)
      rw [(IsBarrier.of_isBlank blank).endsToken.inert.1] at letter
      cases letter
  have suffix := suffix_of_endsInLazy solid ends
  rw [split] at suffix
  refine String.toList_injective ?_
  exact eq_of_dot_suffix (by decide) (forall_of_all (by decide)) letters
    (fun d => not_isIdentifierPart_of_before legible apart) suffix

/-- A text that ends in a closing bracket does not end in the constant. -/
theorem endsInLazy_of_closing {d : Delimiter} (closing : t.kind = .closing d) :
    endsInLazy (print (ts ++ [t])) = false := by
  rw [Bool.eq_false_iff]
  intro ends
  have last : (spelling (ts ++ [t])).getLast? = (t.kind.text.toList).getLast? := by
    rw [spelling_append, spelling_cons, spelling_nil, List.append_nil, List.getLast?_append,
      List.getLast?_append, closing]
    cases d <;> rfl
  have solid : ∀ e, (spelling (ts ++ [t])).getLast? = some e → Text.isBlank e = false := by
    intro e he
    rw [last, closing] at he
    cases d <;> cases he <;> decide
  obtain ⟨before, text⟩ := suffix_of_endsInLazy solid ends
  rw [← text, closing, List.getLast?_append] at last
  cases d <;> cases last

end Tokens

/-! ## The end of a value -/

/-- **`EndsApart ks`** — the tokens end in a word before which a dot or an at sign stands, if anything, or
in a closing bracket. -/
def EndsApart (ks : List TokenKind) : Prop :=
  (∃ before name, ks = before ++ [.identifier name] ∧
      ∀ k, before.getLast? = some k → k = .dot ∨ k = .at) ∨
    ∃ before d, ks = before ++ [.closing d]

namespace EndsApart

theorem name (name : String) : EndsApart [.identifier name] := .inl ⟨[], name, rfl, nofun⟩

theorem closing (before : List TokenKind) (d : Delimiter) : EndsApart (before ++ [.closing d]) :=
  .inr ⟨before, d, rfl⟩

/-- What ends apart does so after anything else that ends in a dot or an at sign. -/
theorem after {ks : List TokenKind} (front : List TokenKind)
    (mark : ∀ k, front.getLast? = some k → k = .dot ∨ k = .at) (h : EndsApart ks) :
    EndsApart (front ++ ks) := by
  rcases h with ⟨before, name, rfl, apart⟩ | ⟨before, d, rfl⟩
  · refine .inl ⟨front ++ before, name, (List.append_assoc ..).symm, fun k last => ?_⟩
    rw [List.getLast?_append, Option.or_eq_some_iff] at last
    rcases last with last | ⟨-, last⟩
    · exact apart k last
    · exact mark k last
  · exact .inr ⟨front ++ before, d, (List.append_assoc ..).symm⟩

end EndsApart

/-- **A lazy text ends in the constant** — if its tokens end apart. -/
theorem getLast?_of_endsInLazy {ts : List Token} {tail : List Char} (legible : Legible ts tail)
    (apart : EndsApart (kinds ts)) (ends : endsInLazy (print ts) = true) :
    ts.getLast?.map Token.kind = some (.identifier "LAZY") := by
  have cut {before : List TokenKind} {k : TokenKind} (split : kinds ts = before ++ [k]) :
      ∃ us t, ts = us ++ [t] ∧ kinds us = before ∧ t.kind = k := by
    obtain ⟨us, vs, rfl, hus, hvs⟩ := List.map_eq_append_iff.1 split
    obtain ⟨t, rfl, ht⟩ := List.map_eq_singleton_iff.1 hvs
    exact ⟨us, t, rfl, hus, ht⟩
  rcases apart with ⟨before, name, split, apart⟩ | ⟨before, d, split⟩
  · obtain ⟨us, t, rfl, rfl, word⟩ := cut split
    have mark (u : Token) (last : us.getLast? = some u) : u.kind = .dot ∨ u.kind = .at :=
      apart u.kind (by rw [kinds, List.getLast?_map, last]; rfl)
    rw [List.getLast?_append, List.getLast?_singleton, Option.some_or, Option.map_some, word,
      eq_lazy_of_endsInLazy legible word mark ends]
  · obtain ⟨us, t, rfl, -, closing⟩ := cut split
    rw [endsInLazy_of_closing closing] at ends
    cases ends

/-- A dotted name ends apart. -/
theorem endsApart_of_dottedIdentifiers? {ks : List TokenKind} {names : List String}
    (h : Scope.dottedIdentifiers? ks = some names) : EndsApart ks := by
  fun_induction Scope.dottedIdentifiers? ks generalizing names with
  | case1 name => exact .name name
  | case2 name more ih =>
    obtain ⟨rest, found, -⟩ := Option.map_eq_some_iff.1 h
    refine (ih found).after [.identifier name, .dot] fun k last => ?_
    cases last
    exact .inl rfl
  | case3 => cases h

section Values

variable {s : Scope} {type : String}

/-- A single token is of a class, other than that of texts, only if it is a name. -/
theorem exists_of_literalType? {k : TokenKind} (h : s.literalType? k = some (.class type))
    (text : type ≠ "java.lang.String") : ∃ name, k = .identifier name := by
  cases k with
  | identifier name => exact ⟨name, rfl⟩
  | string => exact absurd (ElementType.class.inj (Option.some.inj h)).symm text
  | textBlock => exact absurd (ElementType.class.inj (Option.some.inj h)).symm text
  | _ => cases h

/-- An expression without groups of another class than those of the language is a name. -/
theorem endsApart_of_tokensType? {ks : List TokenKind}
    (h : s.tokensType? ks = some (.class type)) (text : type ≠ "java.lang.String")
    (literal : type ≠ "java.lang.Class") : EndsApart ks := by
  unfold Scope.tokensType? at h
  split at h
  · cases h
  · obtain ⟨name, rfl⟩ := exists_of_literalType? h text
    exact .name name
  · split at h
    · -- a number after a sign
      rw [Option.filter_eq_some_iff] at h
      cases h.2
    split at h
    · exact absurd (ElementType.class.inj (Option.some.inj h)).symm text
    split at h
    · exact absurd (ElementType.class.inj (Option.some.inj h)).symm literal
    · obtain ⟨names, found, -⟩ := Option.bind_eq_some_iff.1 h
      exact endsApart_of_dottedIdentifiers? found

/-- The tokens of trees that are tokens. -/
theorem listTokens_of_mapM {trees : List TokenTree} {ts : List Token}
    (h : trees.mapM TokenTree.token? = some ts) : TokenTree.listTokens trees = ts := by
  induction trees generalizing ts with
  | nil =>
    cases h
    rfl
  | cons tree trees ih =>
    rw [List.mapM_cons] at h
    obtain ⟨t, ht, h⟩ := Option.bind_eq_some_iff.1 h
    obtain ⟨us, hus, h⟩ := Option.bind_eq_some_iff.1 h
    cases h
    cases tree with
    | token u =>
      cases ht
      rw [TokenTree.listTokens, ih hus]
      rfl
    | _ => cases ht

/-- A marker annotation ends apart, and so does one with arguments. -/
theorem endsApart_of_annotation {a : Annotation} {m : Nat} {f : List TokenKind} (fits : a.Fits m f) :
    EndsApart (kinds a.tokens) := by
  obtain ⟨sigil, name, _ | ⟨opening, arguments, commas, closing⟩⟩ := a
  · obtain ⟨-, sign, fits, -⟩ := fits
    have ne : name.names ≠ [] := by simp [QualifiedName.names, QualifiedName.identifiers]
    have dotted : EndsApart (nameKinds name.names) :=
      endsApart_of_dottedIdentifiers? (dottedIdentifiers?_nameKinds ne)
    unfold Annotation.tokens
    rw [kinds_cons, sign, fits.kinds_tokens]
    refine dotted.after [.at] fun k last => ?_
    cases last
    exact .inr rfl
  · obtain ⟨-, -, -, -, closed, -⟩ := fits
    have last : kinds (⟨sigil, name, some ⟨opening, arguments, commas, closing⟩⟩ : Annotation).tokens =
        kinds (sigil :: (name.tokens ++ opening :: Argument.listTokens arguments commas)) ++
          [.closing .paren] := by
      simp [closed, Annotation.tokens]
    rw [last]
    exact .closing _ _

/-- **Where a value of a class ends** — in a word that stands apart, or in a closing bracket. -/
theorem endsApart_of_valueType? {value : ElementValue} {m : Nat} {f : List TokenKind}
    (fits : value.Fits m f) (h : s.valueType? value = some (.class type))
    (text : type ≠ "java.lang.String") (literal : type ≠ "java.lang.Class") :
    EndsApart (kinds value.tokens) := by
  match value, fits with
  | .expression [], fits => exact absurd rfl fits.1
  | .expression [.token t], _ =>
    obtain ⟨name, hk⟩ := exists_of_literalType? (k := t.kind) h text
    have alone : kinds (ElementValue.expression [.token t]).tokens = [.identifier name] := by
      simp [ElementValue.tokens, TokenTree.listTokens, TokenTree.tokens, hk]
    rw [alone]
    exact .name name
  | .expression [.group g], fits =>
    obtain ⟨-, -, -, closing⟩ := Group.fits_iff.1 fits.2.2.1.1
    have last : kinds (ElementValue.expression [.group g]).tokens =
        g.opening.kind :: kinds (TokenTree.listTokens g.trees) ++ [.closing g.delimiter] := by
      simp [ElementValue.tokens, TokenTree.listTokens, Group.tokens, closing]
    rw [last]
    exact .closing _ _
  | .expression [.annot a], _ => cases h
  | .expression (tree :: tree' :: trees), _ =>
    rw [Scope.valueType?, Scope.treesType?] at h
    · obtain ⟨ts, tokens, h⟩ := Option.bind_eq_some_iff.1 h
      rw [ElementValue.tokens, listTokens_of_mapM tokens]
      exact endsApart_of_tokensType? h text literal
    · intro t one
      cases one
  | .annot a, fits => exact endsApart_of_annotation fits
  | .array _ [] _ _, _ => cases h
  | .array _ (value :: _) _ _, _ =>
    rw [Scope.valueType?] at h
    obtain ⟨element, -, array⟩ := Option.map_eq_some_iff.1 h
    cases array

/-- **A lazy fetch ends in the constant** — as an argument of an annotation that was read. -/
theorem getLast?_of_isLazyFetch {n : Namespace} {argument : Argument} {m : Nat} {f : List TokenKind}
    {tail : List Char} (fits : argument.value.Fits m f) (legible : Legible argument.value.tokens tail)
    (lazy : isLazyFetch s (.ofNamespace n) argument = true) :
    argument.name? = some "fetch" ∧ s.valueType? argument.value = some (.class n.fetchType) ∧
      argument.value.tokens.getLast?.map Token.kind = some (.identifier "LAZY") := by
  simp only [isLazyFetch, Bool.and_eq_true, decide_eq_true_eq, Option.any_eq_true,
    ElementType.isClass] at lazy
  obtain ⟨⟨name, type, found, rfl⟩, ends⟩ := lazy
  refine ⟨name, found, ?_⟩
  have apart : EndsApart (kinds argument.value.tokens) :=
    endsApart_of_valueType? fits found (by cases n <;> decide) (by cases n <;> decide)
  exact getLast?_of_endsInLazy legible apart ends

end Values

/-! ## What a synthesis gives -/

/-- The value of the first argument fits, and is legible where it stands. -/
theorem Annotation.Fits.first {a : Annotation} {m : Nat} {f : List TokenKind} {tail : List Char}
    (fits : a.Fits m f) (legible : Legible a.tokens tail) {first : Argument} {others : List Argument}
    (arguments : a.arguments = first :: others) :
    (∃ k g, first.value.Fits k g) ∧ ∃ rest, Legible first.value.tokens rest := by
  obtain ⟨sigil, name, _ | ⟨opening, listed, commas, closing⟩⟩ := a
  · cases arguments
  obtain rfl : listed = first :: others := arguments
  obtain ⟨label, value⟩ := first
  obtain ⟨-, -, -, -, -, -, listFits⟩ := fits
  cases commas with
  | nil =>
    simp only [Argument.listTokens, Annotation.tokens, legible_cons, legible_append] at legible
    exact ⟨⟨_, _, listFits.2.2⟩, _, legible.2.2.2.2.2.1.1.2⟩
  | cons comma commas =>
    simp only [Argument.listTokens, Annotation.tokens, legible_cons, legible_append] at legible
    exact ⟨⟨_, _, listFits.2.2.2.1⟩, _, legible.2.2.2.2.2.1.1.2⟩

/-- A replacement in place of another annotation has the span of that, and what precedes it. -/
theorem span_of_mem_inPlaceOf {a b : Annotation} :
    (∀ t ∈ (inPlaceOf a b).tokens, t.span = a.span) ∧
      (inPlaceOf a b).sigil.trivia = a.sigil.trivia := by
  let spanned := b.mapTokens fun t => { t with span := a.span }
  have new : inPlaceOf a b = spanned.withSigil { spanned.sigil with trivia := a.sigil.trivia } := rfl
  refine ⟨fun t ht => ?_, rfl⟩
  rw [new, Annotation.tokens_withSigil] at ht
  rcases List.mem_cons.1 ht with rfl | ht
  · show spanned.sigil.span = a.span
    rw [b.mapTokens_sigil]
  · have ht := List.mem_of_mem_tail ht
    rw [b.tokens_mapTokens] at ht
    obtain ⟨t, -, rfl⟩ := List.mem_map.1 ht
    rfl

/-- **`r.Replaces symbols n old expected fetch plan`** — the synthesis replaces the annotation `old` as it
should. With the imports of its plan, the replacement is of the expected type and its first argument
sets `fetch` to the lazy mode; it stands in the place of the old annotation; and of imports, the plan has
gained at most that of the fetch modes. -/
structure Synthesis.Replaces (r : Synthesis) (symbols : SymbolTable) (n : Namespace) (old : Annotation)
    (expected : Option Association) (fetch : FetchReference) (plan : ImportPlan) : Prop where
  type : ∃ k, expected = some k ∧
    Scope.annotationType? ⟨symbols, r.plan.added⟩ r.replacement = some (k.target (.ofNamespace n))
  lazy : ∃ first others, r.replacement.arguments = first :: others ∧ first.name? = some "fetch" ∧
    Scope.valueType? ⟨symbols, r.plan.added⟩ first.value = some (.class n.fetchType) ∧
    first.value.tokens.getLast?.map Token.kind = some (.identifier "LAZY")
  span : ∀ t ∈ r.replacement.tokens, t.span = old.span
  leading : r.replacement.sigil.trivia = old.sigil.trivia
  plan : r.plan = plan ∨ fetch.needsImport = true ∧ plan.outcome n.fetchType = .added ∧
    r.plan = { plan with added := plan.added ++ [(simpleNameOf n.fetchType, n.fetchType)] }

/-- A registration adds the type, or nothing. -/
theorem ImportPlan.register_cases (p : ImportPlan) (name : String) :
    p.register name = p ∨ p.outcome name = .added ∧
      p.register name = { p with added := p.added ++ [(simpleNameOf name, name)] } := by
  unfold register
  split
  · rename_i added
    exact .inr ⟨added, rfl⟩
  · exact .inl rfl

theorem replaces_of_synthesize {symbols : SymbolTable} {n : Namespace} {directive : Directive}
    {old : Annotation} {expected : Option Association} {fetch : FetchReference} {plan : ImportPlan}
    {r : Synthesis}
    (h : synthesize symbols (.ofNamespace n) directive old expected fetch plan = .ok r) :
    r.Replaces symbols n old expected fetch plan := by
  obtain ⟨b, parsed, checked, rfl⟩ := synthesize_eq_ok.1 h
  obtain ⟨e, tokens, -, fits⟩ := parseAnnotation_eq_ok.1 parsed
  obtain ⟨body, e', read, -, -, legible, -⟩ := legible_tokenize directive.render none
  obtain ⟨rfl, -⟩ := List.append_inj' (tokens.symm.trans read) rfl
  -- what was read from the directive has passed the check, and takes the span of the old annotation
  cases expected with
  | none => cases checked
  | some k =>
    obtain ⟨type, lazy⟩ := checkReplacement_eq_ok.1 checked
    have kept (t : Token) : ({ t with span := old.span } : Token).kind = t.kind := rfl
    refine ⟨⟨k, rfl, ?_⟩, ?_, span_of_mem_inPlaceOf.1, span_of_mem_inPlaceOf.2, ?_⟩
    · exact (Scope.annotationType?_mapTokens kept _ b).trans type
    · cases arguments : b.arguments with
      | nil =>
        rw [arguments] at lazy
        cases lazy
      | cons first others =>
        rw [arguments] at lazy
        obtain ⟨⟨m, f, fits⟩, tail, legible⟩ := fits.first legible arguments
        obtain ⟨name, value, last⟩ := getLast?_of_isLazyFetch fits legible lazy
        have moved : (inPlaceOf old b).arguments =
            b.arguments.map (Argument.mapTokens fun t => { t with span := old.span }) :=
          b.arguments_mapTokens
        rw [arguments, List.map_cons] at moved
        refine ⟨_, _, moved, ?_, ?_, ?_⟩
        · rw [Argument.name?_mapTokens kept, name]
        · exact (Scope.valueType?_mapTokens kept _ first.value).trans value
        · rw [show (first.mapTokens _).value = first.value.mapTokens _ from rfl,
            ElementValue.tokens_mapTokens, List.getLast?_map, Option.map_map, ← last]
          rfl
    · cases needed : fetch.needsImport with
      | false => exact .inl rfl
      | true =>
        rcases plan.register_cases n.fetchType with same | ⟨added, grown⟩
        · exact .inl same
        · exact .inr ⟨rfl, added, grown⟩

/-- **What a synthesis gives can be relied on** — for every directive, whatever its texts. A replacement
is what is wanted in the place of the old annotation, with no more imports than it needs. Where there is
none, an attempt that asks for it keeps the annotation and the plan as they are: all that the walk notes
is the failure. -/
theorem synthesize_sound (symbols : SymbolTable) (n : Namespace) (directive : Directive)
    (old : Annotation) (expected : Option Association) (fetch : FetchReference) (plan : ImportPlan) :
    match synthesize symbols (.ofNamespace n) directive old expected fetch plan with
    | .ok r => r.Replaces symbols n old expected fetch plan
    | .error failure => ∀ s : WalkState, s.plan = plan →
        AsksFor symbols (.ofNamespace n) plan old directive expected fetch →
          (visit (attempt symbols (.ofNamespace n)) old).run s =
            (old, { s with failures := s.failures ++ [failure] }) := by
  split
  · rename_i r found
    exact replaces_of_synthesize found
  · rename_i failure failed
    rintro s rfl asks
    rw [run_visit, asks.attempt_eq failed]
    rfl

/-- A comment within the constant does no harm. An argument without a name beside the new one does. -/
theorem synthesize_sound_of_comment :
    let unit : CompilationUnit := ⟨none, [.ofPackage "jakarta.persistence"], [], .synthetic .eof⟩
    let symbols : SymbolTable := .ofUnit unit (.persistence .jakarta)
    let old : Annotation := ⟨.synthetic .at "\n", .ofDotted "OneToOne", none⟩
    let directive : Directive := ⟨"OneToOne", ["fetch = FetchType /* no. */ .LAZY", "optional = true"]⟩
    let unnamed : Argument := ⟨none, .expression [.token (.synthetic (.identifier "a"))]⟩
    let stuck : Annotation := ⟨.synthetic .at "\n", .ofDotted "OneToOne",
      some ⟨.synthetic (.opening .paren), [unnamed], [], .synthetic (.closing .paren)⟩⟩
    (∃ r, synthesize symbols (.ofNamespace .jakarta) directive old (some .oneToOne) ⟨"FetchType", true⟩
          (.ofUnit unit) = .ok r ∧
        r.Replaces symbols .jakarta old (some .oneToOne) ⟨"FetchType", true⟩ (.ofUnit unit)) ∧
      ∃ failure, synthesizeFor symbols (.ofNamespace .jakarta) (.ofUnit unit) .oneToOne stuck =
          .error failure ∧
        (visit (attempt symbols (.ofNamespace .jakarta)) stuck).run { plan := .ofUnit unit } =
          (stuck, { plan := .ofUnit unit, failures := [failure] }) := by
  intro unit symbols old directive unnamed stuck
  let scope : Scope := ⟨symbols, (ImportPlan.ofUnit unit).added⟩
  constructor
  · have sound := synthesize_sound symbols .jakarta directive old (some .oneToOne) ⟨"FetchType", true⟩
      (.ofUnit unit)
    have given : ((synthesize symbols (.ofNamespace .jakarta) directive old (some .oneToOne)
        ⟨"FetchType", true⟩ (.ofUnit unit)).toOption.map fun r => r.plan.addedTypes) = some [] := by
      decide +kernel
    obtain ⟨r, found, -⟩ := exists_of_toOption_map given
    rw [found] at sound
    exact ⟨r, found, sound⟩
  · have sound := synthesize_sound symbols .jakarta (directiveFor scope (.ofNamespace .jakarta) .oneToOne stuck)
      stuck (some .oneToOne) (fetchReference scope (.ofNamespace .jakarta)) (.ofUnit unit)
    have matched : associationOf? scope (.ofNamespace .jakarta) stuck = some .oneToOne := by
      decide +kernel
    have none_given : (synthesizeFor symbols (.ofNamespace .jakarta) (.ofUnit unit) .oneToOne
        stuck).toOption.isNone = true := by
      decide +kernel
    cases failed : synthesizeFor symbols (.ofNamespace .jakarta) (.ofUnit unit) .oneToOne stuck with
    | ok r => simp [failed, Except.toOption] at none_given
    | error failure =>
      rw [show synthesize _ _ _ _ _ _ _ = _ from failed] at sound
      exact ⟨failure, rfl, sound { plan := .ofUnit unit } rfl ⟨.oneToOne, matched, rfl, rfl, rfl⟩⟩

end DeferFetch
