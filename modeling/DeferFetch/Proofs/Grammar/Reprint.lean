/-
# DeferFetch.Proofs.Grammar.Reprint — files printed, and read again.

A file that was parsed without errors prints as its text, with one exception: of a text that is
nothing but modifiers the file keeps none, and no error says so.
-/
import DeferFetch.Proofs.Grammar.Text
import DeferFetch.Proofs.Lexing.Tiling

namespace DeferFetch

/-! ## Parsed files print as their text -/

theorem Modifier.listTokens_ne_nil {ms : List Modifier} (h : ms ≠ []) : listTokens ms ≠ [] := by
  obtain ⟨m, ms, rfl⟩ := List.exists_cons_of_ne_nil h
  simp [listTokens, Parser.Modifier.tokens_ne_nil m]

/-- A text is not printed without its tokens: each of them has characters of its own. -/
theorem body_eq_nil_of_print {source : String} {file : Option String} {body : List Token} {e : Token}
    (split : tokenize source file = body ++ [e]) (bare : print [e] = source) : body = [] := by
  obtain ⟨body', e', split', -, texts⟩ := exists_body_tokenize source file
  obtain ⟨rfl, -⟩ := List.append_inj' (split.symm.trans split') rfl
  have spelt : spelling body ++ spelling [e] = spelling [e] := by
    rw [← spelling_append, ← toList_print, ← toList_print, ← split, print_tokenize, bare]
  cases body with
  | nil => rfl
  | cons t ts =>
    obtain ⟨-, silent, -⟩ : t.leadingText = "" ∧ t.kind.text = "" ∧ spelling ts = [] := by
      simpa using List.append_left_eq_self.1 spelt
    exact absurd silent (texts t List.mem_cons_self).2

/-- **What parsing loses** — a file that was parsed without errors prints as its text just if it has a
declaration, an import or a stray semicolon, or the text has no token to lose. -/
theorem source_eq_iff {source : String} {file : Option String} {u : CompilationUnit}
    (h : (parseUnit source file).toExcept = .ok u) :
    u.source = source ↔ u.body ≠ [] ∨ tokenize source file = [u.eof] := by
  obtain ⟨rest, takes⟩ := Parser.parse_eq_ok.1 h
  obtain ⟨body, e, tokens, he, plain, -⟩ := legible_tokenize source file
  rcases Parser.compilationUnit_sound takes tokens plain he with ⟨same, -⟩ | ⟨ms, some_ms, same, rfl⟩
  · have kept : u.tokens = tokenize source file := same.symm
    have prints : u.source = source := by rw [CompilationUnit.source, kept, print_tokenize]
    refine iff_of_true prints ?_
    by_cases empty : u.body = []
    · exact .inr (by rw [← kept, u.tokens_eq, empty, List.nil_append])
    · exact .inl empty
  · have lost : Modifier.listTokens ms ≠ [] := Modifier.listTokens_ne_nil some_ms
    have same : tokenize source file = Modifier.listTokens ms ++ [e] := same
    refine iff_of_false (fun prints => ?_) ?_
    · exact lost (body_eq_nil_of_print same prints)
    · rintro (some_body | alone)
      · exact some_body rfl
      · rw [alone] at same
        exact lost (List.append_left_eq_self.1 same.symm)

/-- Between a package and a type, comments and blanks included, nothing is lost. -/
theorem source_of_package_and_type :
    let source := "package a; /* b */\r\n@C class D { }"
    ∃ u, (parseUnit source).toExcept = .ok u ∧ u.body ≠ [] ∧ u.source = source := by
  intro source
  have h : ((parseUnit source).toExcept.toOption.map fun u => u.body.isEmpty) = some false := by
    decide +kernel
  obtain ⟨u, hu, hbody⟩ := exists_of_toOption_map h
  have kept : u.body ≠ [] := by simpa using hbody
  exact ⟨u, hu, kept, (source_eq_iff hu).2 (.inl kept)⟩

/-- An annotation alone is parsed without errors, and the file does not print as it. -/
theorem annotation_alone_is_lost :
    ∃ u, (parseUnit "@A").toExcept = .ok u ∧ u.source ≠ "@A" := by
  have h : ((parseUnit "@A").toExcept.toOption.map CompilationUnit.source) = some "" := by
    decide +kernel
  obtain ⟨u, hu, printed⟩ := exists_of_toOption_map h
  exact ⟨u, hu, by rw [printed]; decide⟩

end DeferFetch
