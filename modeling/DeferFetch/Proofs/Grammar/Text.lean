/-
# DeferFetch.Proofs.Grammar.Text — what parses without errors.

A file that was parsed without errors is readable: it fits, and its tokens are legible. Readability
is what the rewriting preserves, and a readable file printed and parsed again gives the same file,
up to where its tokens stand.
-/
import DeferFetch.Proofs.Grammar.Standing
import DeferFetch.Proofs.Lexing.Words

namespace DeferFetch

/-! ## Parsing without errors -/

theorem ParseResult.toExcept_eq_ok {α : Type} {r : ParseResult α} {a : α} :
    r.toExcept = .ok a ↔ r.tree? = some a ∧ r.diagnostics = [] := by
  obtain ⟨tree?, diagnostics⟩ := r
  cases tree? <;> cases diagnostics <;> simp [toExcept, valid?]

/-- What is computed from the result of a parse is computed from a result that there is. -/
theorem exists_of_toOption_map {ε α β : Type} {r : Except ε α} {f : α → β} {b : β}
    (h : r.toOption.map f = some b) : ∃ a, r = .ok a ∧ f a = b := by
  cases r with
  | error e => cases h
  | ok a => exact ⟨a, rfl, Option.some.inj h⟩

namespace Parser

variable {α : Type} {s : ParserState} {rest : List Token}

/-- A parse without errors is a run that reports nothing. -/
theorem parse_eq_ok {p : Parser α} {ts : List Token} {a : α} :
    (p.parse ts).toExcept = .ok a ↔ ∃ rest, p.Takes { rest := ts } a rest := by
  rw [ParseResult.toExcept_eq_ok]
  constructor
  · rintro ⟨htree, hclean⟩
    cases hrun : p.run { rest := ts } with
    | mk tree? t =>
      simp only [parse, hrun] at htree hclean
      exact ⟨t.rest, takes_of_run (by rw [hrun, htree]) hclean⟩
  · rintro ⟨rest, h⟩
    rw [Takes] at h
    simp only [parse, h]
    exact ⟨trivial, rfl⟩

/-- An annotation that is all there is. -/
theorem takes_wholeAnnotation {a : Annotation} :
    wholeAnnotation.Takes s a rest ↔
      s.rest = a.tokens ++ rest ∧ a.Fits maxNesting (kinds rest) ∧ atEnd (kinds rest) = true := by
  have ha := (Grammar.ofBudget_exact maxNesting).annot
  unfold Parser.wholeAnnotation
  rw [takes_bind]
  simp only [ha.reads _ _ _, takes_ahead_bind, ParserState.on_rest, atEnd_take]
  constructor
  · rintro ⟨b, mid, ⟨hs, hf⟩, h⟩
    cases hend : atEnd (kinds mid) with
    | false => simp [hend] at h
    | true =>
      obtain ⟨rfl, rfl⟩ : a = b ∧ rest = mid := by simpa [hend] using h
      exact ⟨hs, hf, hend⟩
  · rintro ⟨hs, hf, hend⟩
    refine ⟨a, rest, ⟨hs, hf⟩, ?_⟩
    simp [hend]

end Parser

/-! ## Readable files -/

namespace CompilationUnit

/-- **`u.body`** — the tokens of a file without the one that ends it. -/
def body (u : CompilationUnit) : List Token :=
  (u.package?.map PackageDeclaration.tokens).getD [] ++ u.imports.flatMap ImportDeclaration.tokens
    ++ u.types.flatMap TopLevel.tokens

theorem tokens_eq (u : CompilationUnit) : u.tokens = u.body ++ [u.eof] := rfl

/-- **`u.Readable`** — the file fits, and its tokens can be read where they stand. -/
structure Readable (u : CompilationUnit) : Prop where
  fits : u.Fits maxNesting
  legible : Legible u.body u.eof.leadingText.toList
  ends : EndGap u.eof.leadingText.toList

end CompilationUnit

/-- **Parsed files are readable** — and they have the tokens of the text, unless nothing of it but its end
was kept. -/
theorem parseUnit_readable {source : String} {file : Option String} {u : CompilationUnit}
    (h : (parseUnit source file).toExcept = .ok u) :
    u.Readable ∧ (u.tokens = tokenize source file ∨ u.body = []) := by
  obtain ⟨rest, htakes⟩ := Parser.parse_eq_ok.1 h
  obtain ⟨body, e, htokens, he, hbody, hlegible, hend, -⟩ := legible_tokenize source file
  rcases Parser.compilationUnit_sound htakes htokens hbody he with ⟨heq, hfits⟩ | ⟨ms, -, heq, rfl⟩
  · have hsame : body ++ [e] = u.body ++ [u.eof] := by
      rw [← htokens, ← u.tokens_eq]
      exact heq
    obtain ⟨rfl, heof⟩ := List.append_inj' hsame rfl
    obtain rfl := (List.cons.inj heof).1
    exact ⟨⟨hfits, hlegible, hend⟩, .inl heq.symm⟩
  · exact ⟨⟨⟨by simp, by simp, trivial, he⟩, trivial, hend⟩, .inr rfl⟩

/-- All the tokens but the one that ends the text are tidy. -/
def TidyBody (ts : List Token) : Prop := ∀ t ∈ ts, t.kind ≠ .eof → t.Tidy

/-- Before the end, the tokens of a parsed file are tidy. -/
theorem tidy_of_parseUnit {source : String} {file : Option String} {u : CompilationUnit}
    (h : (parseUnit source file).toExcept = .ok u) : TidyBody u.tokens := by
  obtain ⟨body, e, tokens, he, -⟩ := legible_tokenize source file
  rcases (parseUnit_readable h).2 with same | bare
  · rw [same, tokens]
    refine List.forall_mem_append.2 ⟨fun t ht _ => tidy_of_tokenize tokens t ht, ?_⟩
    exact List.forall_mem_singleton.2 fun ne => absurd he ne
  · rw [u.tokens_eq, bare]
    refine List.forall_mem_singleton.2 fun ne => absurd ?_ ne
    exact (parseUnit_readable h).1.fits.eof

/-- A text with the tokens of a file that fits is parsed as that file. -/
theorem parseUnit_of_tokens {source : String} {file : Option String} {u : CompilationUnit}
    (hf : u.Fits maxNesting) (htokens : tokenize source file = u.tokens) :
    (parseUnit source file).toExcept = .ok u :=
  Parser.parse_eq_ok.2 ⟨[], Parser.compilationUnit_complete hf htokens⟩

/-! ## Annotations -/

/-- **Annotations from texts** — a text is an annotation if that is what its tokens are. -/
theorem parseAnnotation_eq_ok {source : String} {a : Annotation} :
    (source |> parseAnnotation).toExcept = .ok a ↔
      ∃ e, tokenize source = a.tokens ++ [e] ∧ e.kind = .eof ∧ a.Fits maxNesting [.eof] := by
  unfold parseAnnotation
  rw [Parser.parse_eq_ok]
  obtain ⟨body, e, htokens, he, hbody, -⟩ := legible_tokenize source none
  constructor
  · rintro ⟨rest, h⟩
    obtain ⟨heq, hfits, hend⟩ := Parser.takes_wholeAnnotation.1 h
    obtain ⟨hb, rfl⟩ := Parser.eq_of_plain_append hfits.plain hend hbody he (heq.symm.trans htokens)
    exact ⟨e, heq, he, by simpa [he] using hfits⟩
  · rintro ⟨e, heq, he, hfits⟩
    refine ⟨[e], Parser.takes_wholeAnnotation.2 ⟨heq, ?_, ?_⟩⟩
    · simpa [he] using hfits
    · simp [atEnd, he]

end DeferFetch
