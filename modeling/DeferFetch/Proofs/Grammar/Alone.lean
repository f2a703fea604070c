/-
# DeferFetch.Proofs.Grammar.Alone — annotations mean by themselves what they mean in a file.

Cut out of a file and parsed alone, an annotation is read as it was: its last token ends before the end
of the text as it did before what came next, nothing in it looks past its end, and it nests no deeper
than it did in the file. So the text of each annotation of a file is that annotation again, up to where
its tokens stand (`exists_parse_alone`).
-/
import DeferFetch.Proofs.Grammar.Context
import DeferFetch.Proofs.Grammar.Relabel
import DeferFetch.Proofs.Grammar.Text
import DeferFetch.Proofs.Lexing.Spelled

namespace DeferFetch

/-! ## Nothing looks past the end -/

/-- **Annotations fit before the end** — if they fit before anything. -/
theorem Annotation.Fits.alone {n : Nat} {a : Annotation} {f : List TokenKind} (h : a.Fits n f) :
    a.Fits n [.eof] := by
  obtain ⟨sigil, name, _ | ⟨opening, arguments, commas, closing⟩⟩ := a
  · obtain ⟨deep, sign, ⟨first, others, -⟩, -⟩ := h
    exact ⟨deep, sign, ⟨first, others, rfl⟩, rfl⟩
  · obtain ⟨deep, sign, hname, ho, hc, names, hf⟩ := h
    have closes : closing.kind.closesValue = true := by
      rw [hc]
      rfl
    exact ⟨deep, sign, hname, ho, hc, names, hf.after (.of_closesValue closes closes f [.eof])⟩

/-! ## The last token -/

/-- No identifier goes on with the blanks or the comment before a token, nor with a dot. -/
theorem EndsWord.before_dot {t : Token} (gap : Gap t.leadingText.toList) (dot : t.kind = .dot)
    (rest : List Char) : EndsWord (t.leadingText.toList ++ (t.kind.text.toList ++ rest)) := by
  cases lead : t.leadingText.toList with
  | nil =>
    rw [dot]
    have : isIdentifierPart '.' = false := by decide
    exact .of_cons this
  | cons d ds =>
    rw [lead] at gap
    exact .of_cons gap.endsToken.inert.1

/-- A dot is read before an identifier, whatever blanks and comments are between them. -/
theorem dot_readsBefore_token {t : Token} (gap : Gap t.leadingText.toList) {name : String}
    (kind : t.kind = .identifier name) (word : IsIdentifier name) {rest : List Char}
    (h : TokenKind.dot.ReadsBefore (t.leadingText.toList ++ (t.kind.text.toList ++ rest)))
    (rest' : List Char) :
    TokenKind.dot.ReadsBefore (t.leadingText.toList ++ (t.kind.text.toList ++ rest')) := by
  cases lead : t.leadingText.toList with
  | nil =>
    rw [kind]
    exact dot_readsBefore word rest'
  | cons d ds =>
    rw [lead] at gap
    have here : TokenKind.dot.ReadsBefore ([] ++ d :: (ds ++ (t.kind.text.toList ++ rest))) := by
      rwa [lead] at h
    exact here.congr nofun gap.endsToken gap.endsToken fun slash => slash

/-- **Names are legible before anything** that no identifier goes on with. -/
theorem QualifiedName.Fits.legible {name : QualifiedName} {f : List TokenKind} (fits : name.Fits f)
    {tail tail' : List Char} (ends : EndsWord tail') (h : Legible name.tokens tail) :
    Legible name.tokens tail' := by
  obtain ⟨first, others⟩ := name
  obtain ⟨hfirst, hothers, -⟩ := fits
  induction others generalizing first with
  | nil =>
    obtain ⟨gap, read, -⟩ := h
    rw [TokenKind.eq_identifier_text hfirst] at read
    refine ⟨gap, ?_, legible_nil tail'⟩
    rw [TokenKind.eq_identifier_text hfirst]
    exact read.isIdentifier.readsBefore ends
  | cons segment others ih =>
    obtain ⟨⟨dot, hnext⟩, hothers⟩ := List.forall_mem_cons.1 hothers
    -- what comes after the dot is a name again
    have split : (QualifiedName.mk first (segment :: others)).tokens =
        first :: segment.dot :: (QualifiedName.mk segment.identifier others).tokens := rfl
    rw [split] at h ⊢
    obtain ⟨gap, read, dotGap, dotRead, more⟩ := h
    have again := ih segment.identifier more hnext hothers
    obtain ⟨us, rest⟩ : ∃ us, (QualifiedName.mk segment.identifier others).tokens =
        segment.identifier :: us := ⟨_, rfl⟩
    rw [rest] at dotRead more again ⊢
    have word := more.2.1
    rw [TokenKind.eq_identifier_text hnext] at word
    rw [TokenKind.eq_identifier_text hfirst] at read
    rw [dot, spelling_cons, List.append_assoc, List.append_assoc] at dotRead
    refine ⟨gap, ?_, dotGap, ?_, again⟩
    · rw [TokenKind.eq_identifier_text hfirst, spelling_cons, List.append_assoc, List.append_assoc]
      exact read.isIdentifier.readsBefore (EndsWord.before_dot dotGap dot _)
    · rw [dot, spelling_cons, List.append_assoc, List.append_assoc]
      exact dot_readsBefore_token more.1 (TokenKind.eq_identifier_text hnext) word.isIdentifier dotRead _

/-- **Annotations are legible before anything** that no identifier goes on with. -/
theorem Annotation.Fits.legible {n : Nat} {a : Annotation} {f : List TokenKind} (fits : a.Fits n f)
    {tail tail' : List Char} (ends : EndsWord tail') (h : Legible a.tokens tail) :
    Legible a.tokens tail' := by
  have valid := fits.plain.valid
  obtain ⟨sigil, name, _ | ⟨opening, arguments, commas, closing⟩⟩ := a
  · -- a marker ends in the last identifier of its name
    obtain ⟨-, sign, hname, -⟩ := fits
    obtain ⟨gap, -, read⟩ := h
    refine ⟨gap, ?_, hname.legible ends read⟩
    rw [sign]
    exact separator_readsBefore (c := '@') rfl _
  · obtain ⟨-, -, -, -, hc, -⟩ := fits
    have split : Annotation.tokens ⟨sigil, name, some ⟨opening, arguments, commas, closing⟩⟩ =
        (sigil :: (name.tokens ++ (opening :: Argument.listTokens arguments commas))) ++ [closing] := by
      simp [tokens]
    rw [split] at h valid ⊢
    exact Standalone.of_separator (c := ')') rfl (by decide)
      (fun t ht => valid t (List.mem_append_left _ ht)) hc h tail'

/-! ## Annotations of a file -/

/-- **Annotations stand before the end** — among the tokens of a readable file. -/
theorem CompilationUnit.Readable.stands {u : CompilationUnit} (hu : u.Readable) {a : Annotation}
    (ha : a ∈ u.annotations) :
    (∃ before after, u.body = before ++ (a.tokens ++ after)) ∧ ∃ f, a.Fits maxNesting f := by
  obtain ⟨m, before, after, deep, tokens, fits⟩ := hu.fits.stands a ha
  refine ⟨?_, _, fits.mono deep⟩
  rw [u.tokens_eq, ← List.append_assoc] at tokens
  rcases List.eq_nil_or_concat after with rfl | ⟨after, last, rfl⟩
  · -- the annotation would end in the token that ends the text
    have last := congrArg List.getLast? tokens
    obtain ⟨t, ht⟩ := List.getLast?_isSome.2 a.tokens_ne_nil |> Option.isSome_iff_exists.1
    rw [List.append_nil, List.getLast?_append, List.getLast?_append, ht] at last
    obtain rfl : u.eof = t := by simpa using last
    have plain := fits.plain _ (List.mem_of_getLast? ht)
    rw [hu.fits.eof] at plain
    cases plain
  · rw [List.concat_eq_append, ← List.append_assoc, List.append_assoc before] at tokens
    exact ⟨before, after, (List.append_inj' tokens rfl).1⟩

/-- Every annotation of a readable file fits and is legible where it stands. -/
theorem CompilationUnit.Readable.exists_place {u : CompilationUnit} (hu : u.Readable)
    {a : Annotation} (ha : a ∈ u.annotations) :
    ∃ f tail, a.Fits maxNesting f ∧ Legible a.tokens tail := by
  obtain ⟨⟨before, after, body⟩, f, fits⟩ := hu.stands ha
  have legible := hu.legible
  rw [body, legible_append, legible_append] at legible
  exact ⟨f, _, fits, legible.2.1⟩

/-- **`t.unplaced`** — the token without the places where it and the trivia before it stand. -/
def Token.unplaced (t : Token) : Token :=
  { kind := t.kind, trivia := t.trivia.map fun x => { kind := x.kind, text := x.text } }

theorem Token.kind_unplaced (t : Token) : t.unplaced.kind = t.kind := rfl

/-- But for their places, tokens are their kinds and the trivia before them. -/
theorem map_unplaced (ts : List Token) :
    ts.map Token.unplaced =
      List.zipWith (fun kind before => { kind, trivia := before.map fun x => ⟨x.1, x.2, {}⟩ })
        (ts.map Token.kind) (ts.map Token.before) := by
  simp [List.zipWith_map, List.zipWith_self, Token.unplaced, Token.before, Function.comp_def]

/-- Tidy tokens that are of one kind and after the same text are the same but for their places. -/
theorem unplaced_eq_of_bare {ts us : List Token} (ht : ∀ t ∈ ts, t.Tidy) (hu : ∀ u ∈ us, u.Tidy)
    (same : ts.map Token.bare = us.map Token.bare) :
    ts.map Token.unplaced = us.map Token.unplaced := by
  have kinds : ts.map Token.kind = us.map Token.kind := by
    simpa [Function.comp_def] using congrArg (List.map Token.kind) same
  rw [map_unplaced, map_unplaced, kinds, before_eq_of_bare ht hu same]

/-- **Annotations parse the same alone** — the text of an annotation that stands anywhere in a file
without errors parses without errors, and as that annotation, but for the places of its tokens and of
the trivia before them. -/
theorem exists_parse_alone {source : String} {file : Option String} {u : CompilationUnit}
    (parsed : (parseUnit source file).toExcept = .ok u) {a : Annotation} (ha : a ∈ u.annotations) :
    ∃ b, (a.source |> parseAnnotation).toExcept = .ok b ∧
      b.mapTokens Token.unplaced = a.mapTokens Token.unplaced := by
  have readable := (parseUnit_readable parsed).1
  obtain ⟨⟨before, after, body⟩, f, fits⟩ := readable.stands ha
  have tidy : ∀ t ∈ a.tokens, t.Tidy := by
    intro t ht
    refine tidy_of_parseUnit parsed t ?_ ?_
    · rw [u.tokens_eq, body]
      simp [ht]
    · rintro eof
      have plain := fits.plain t ht
      rw [eof] at plain
      cases plain
  have legible : Legible a.tokens "".toList := by
    have inFile := readable.legible
    rw [body, legible_append, legible_append] at inFile
    exact fits.legible nofun inFile.2.1
  -- read alone, the tokens are the same, and the text ends after them
  have ends : EndGap "".toList := by simp [EndGap, lexemes]
  have read := tokenize_print legible ends none
  obtain ⟨ts, e, tokens, he, -⟩ := legible_tokenize a.source none
  rw [String.append_empty, show print a.tokens = a.source from rfl, tokens, List.map_append] at read
  obtain ⟨bare, -⟩ := List.append_inj' read rfl
  have unplaced := unplaced_eq_of_bare (tidy_of_tokenize tokens) tidy bare
  obtain ⟨b, rfl, same⟩ := a.exists_relabel unplaced
  refine ⟨b, parseAnnotation_eq_ok.2 ⟨e, tokens, he, ?_⟩, same⟩
  rw [← Annotation.fits_mapTokens Token.kind_unplaced, same, Annotation.fits_mapTokens Token.kind_unplaced]
  exact fits.alone

/-- A marker after a comment, its name interrupted, among the arguments of another annotation. -/
theorem exists_parse_alone_nested :
    let source := "class A \x7b @X(v = \x7b/* c */@B . C,@D\x7d) int i; \x7d"
    ∃ u a b, (parseUnit source).toExcept = .ok u ∧
      a ∈ u.annotations ∧ a.source = "/* c */@B . C" ∧ (a.source |> parseAnnotation).toExcept = .ok b ∧
      b.mapTokens Token.unplaced = a.mapTokens Token.unplaced := by
  intro source
  have file : (parseUnit source).toExcept.toOption.map
      (fun u => u.annotations.head?.map Annotation.source) = some (some "/* c */@B . C") := by
    decide +kernel
  obtain ⟨u, parsed, first⟩ := exists_of_toOption_map file
  obtain ⟨a, ha, text⟩ := Option.map_eq_some_iff.1 first
  obtain ⟨b, alone, same⟩ := exists_parse_alone parsed (List.mem_of_head? ha)
  exact ⟨u, a, b, parsed, List.mem_of_head? ha, text, alone, same⟩

end DeferFetch
