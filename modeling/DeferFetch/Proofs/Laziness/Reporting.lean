/-
# DeferFetch.Proofs.Laziness.Reporting — what the sites of a run report.

A site holds the annotation as it was and as it is now. Both are texts that were printed with what
precedes the annotation and then trimmed. Trimming takes the white space away and leaves comments, so
the texts are those between the bytes of the site just if only white space precedes the annotation
(`makeLazy_reports`); else both begin with the comments.
-/
import Mathlib.Data.List.TakeWhile
import DeferFetch.Proofs.Laziness.Splice

namespace DeferFetch

/-! ## Trimmed annotations -/

/-- **`t.remarks`** — what precedes the token without the white space that it begins with: nothing, or
the comments before the token and what stands between them and it. -/
def Token.remarks (t : Token) : String := t.trimmed.leadingText

theorem Token.remarks_eq_empty_iff (t : Token) :
    t.remarks = "" ↔ ∀ c ∈ t.leadingText.toList, Text.isBlank c = true := by
  rw [remarks, trimmed, Token.leadingText_synthetic, ← String.toList_eq_nil_iff, String.toList_ofList,
    List.dropWhile_eq_nil_iff]

/-- Remarks are no longer than nothing only if there are none. -/
theorem Token.remarks_append_eq_iff (t : Token) (text : String) :
    t.remarks ++ text = text ↔ ∀ c ∈ t.leadingText.toList, Text.isBlank c = true := by
  rw [← remarks_eq_empty_iff]
  constructor
  · intro same
    have lengths := congrArg (fun s : String => s.toList.length) same
    rw [← String.toList_eq_nil_iff, ← List.length_eq_zero_iff]
    simp only [String.toList_append, List.length_append] at lengths
    omega
  · intro none
    rw [none, String.empty_append]

/-- **Trimming an annotation** leaves the remarks before it. -/
theorem Annotation.trim_source {a : Annotation} {m : Nat} {f : List TokenKind} {tail : List Char}
    (fits : a.Fits m f) (legible : Legible a.tokens tail) :
    Text.trim a.source = a.sigil.remarks ++ a.text := by
  obtain ⟨ts, tokens⟩ := a.tokens_eq_cons
  have valid := fits.plain.valid
  rw [tokens] at legible valid
  rw [source, text, tokens, trim_print legible valid, print_cons, Token.source, List.tail_cons,
    Token.remarks, String.append_assoc]
  rfl

/-! ## Reports -/

/-- What lies within an edit that is added is what was there. -/
theorem Edit.filter_within_last {edits : List Edit} {e : Edit}
    (within : ∀ d ∈ edits, d.within e = true) : (edits ++ [e]).filter (·.within e) = edits := by
  have self : [e].filter (·.within e) = [] := by simp [Edit.within]
  rw [List.filter_append, List.filter_eq_self.2 within, self, List.append_nil]

/-- An edit that is added around another one is not within that. -/
theorem Edit.filter_within_inner {edits : List Edit} {d e : Edit} (within : d.within e = true) :
    (edits ++ [e]).filter (·.within d) = edits.filter (·.within d) := by
  have outside : [e].filter (·.within d) = [] := by
    rw [List.filter_eq_nil_iff, List.forall_mem_singleton]
    simp only [Edit.within, Bool.and_eq_true, decide_eq_true_eq] at within ⊢
    omega
  rw [List.filter_append, outside, List.append_nil]

/-- **`e.Reports i text edits sign`** — the edit is one of a piece of `text`, which begins at byte `i`. It
reports what the edits within it have made of that piece, and its directive, both after the remarks
before the at sign `sign`, with which the piece begins. -/
def Edit.Reports (e : Edit) (i : Nat) (text : String) (edits : List Edit) (sign : Token) : Prop :=
  ∃ kept old rest old', text = kept ++ ("@" ++ old) ++ rest ∧
    e.start = i + kept.utf8ByteSize ∧ e.stop = e.start + ("@" ++ old).utf8ByteSize ∧
    Spliced e.start ("@" ++ old) (outermost (edits.filter (·.within e))) old' ∧
    sign.kind = .at ∧ sign.span.start = e.site.span.start ∧
    e.site.before = sign.remarks ++ old' ∧ e.site.after = sign.remarks ++ e.directive.render

namespace Edit.Reports

variable {e : Edit} {i : Nat} {text : String} {edits others : List Edit} {sign : Token}

/-- Only the edits within count. -/
theorem congr (h : e.Reports i text edits sign)
    (same : others.filter (·.within e) = edits.filter (·.within e)) :
    e.Reports i text others sign := by
  unfold Reports
  rwa [same]

/-- The text may go on to both sides. -/
theorem extend (before after : String) (h : e.Reports (i + before.utf8ByteSize) text edits sign) :
    e.Reports i (before ++ text ++ after) edits sign := by
  obtain ⟨kept, old, rest, old', whole, start, stop, spliced, at_sign, position, reports⟩ := h
  refine ⟨before ++ kept, old, rest ++ after, old', ?_, ?_, stop, spliced, at_sign, position, reports⟩
  · rw [whole]
    simp only [String.append_assoc]
  · rw [start, String.utf8ByteSize_append, Nat.add_assoc]

end Edit.Reports

/-- **`Reported i p edits q`** — the edits make the part `q` of the part `p`, which stands at byte `i`,
and each of them reports what it does. -/
structure Reported (i : Nat) (p : Part) (edits : List Edit) (q : Part) : Prop where
  edited : Edited i (print p.tokens) edits (print q.tokens)
  reports : ∀ e ∈ edits, ∃ sign ∈ p.tokens, e.Reports i (print p.tokens) edits sign

namespace Reported

variable {i : Nat} {p p' q q' : Part} {edits others : List Edit}

theorem plain (i : Nat) (ts : List Token) : Reported i (.plain ts) [] (.plain ts) :=
  ⟨.refl i (print ts), nofun⟩

/-- Parts one after the other are reported on one after the other. -/
protected theorem append (h : Reported i p edits q)
    (h' : Reported (i + (print p.tokens).utf8ByteSize) p' others q') :
    Reported i (p ++ p') (edits ++ others) (q ++ q') := by
  have apart (e : Edit) (he : e ∈ edits) (d : Edit) (hd : d ∈ others) :
      e.within d = false ∧ d.within e = false :=
    Edit.within_eq_false (h.edited.inside e he).2.1 (h'.edited.inside d hd).2.1
      (Nat.le_trans (h.edited.inside e he).2.2 (h'.edited.inside d hd).1)
  refine ⟨?_, List.forall_mem_append.2 ⟨fun e he => ?_, fun e he => ?_⟩⟩
  · rw [Part.tokens_append, Part.tokens_append, print_append, print_append]
    exact h.edited.append h'.edited
  · obtain ⟨sign, mem, reports⟩ := h.reports e he
    refine ⟨sign, List.mem_append_left _ mem, ?_⟩
    have none : others.filter (·.within e) = [] :=
      List.filter_eq_nil_iff.2 fun d hd => Bool.not_eq_true _ ▸ (apart e he d hd).2
    have whole := reports.extend "" (print p'.tokens)
    rw [String.empty_append, ← print_append] at whole
    exact whole.congr (by rw [List.filter_append, none, List.append_nil])
  · obtain ⟨sign, mem, reports⟩ := h'.reports e he
    refine ⟨sign, List.mem_append_right _ mem, ?_⟩
    have none : edits.filter (·.within e) = [] :=
      List.filter_eq_nil_iff.2 fun d hd => Bool.not_eq_true _ ▸ (apart d hd e he).1
    have whole := reports.extend (print p.tokens) ""
    rw [String.append_empty, ← print_append] at whole
    exact whole.congr (by rw [List.filter_append, none, List.nil_append])

end Reported

/-! ## The reports of a run -/

variable {n : Namespace} {symbols : SymbolTable}

/-- **`Reporting symbols n s p q t`** — between the states, attempts have been recorded, and wherever the
part `p` of the file stands, their edits have made the part `q` of it and report that. -/
def Reporting (symbols : SymbolTable) (n : Namespace) (s : Recorded) (p q : Part) (t : Recorded) :
    Prop :=
  ∃ record, t.2 = s.2 ++ record ∧ ∀ i, StandFrom i p.tokens →
    Reported i p (editsOf symbols (.ofNamespace n) record) q

theorem reporting_composes : Composes (Reporting symbols n) where
  plain s ts := ⟨[], (List.append_nil _).symm, fun i _ => .plain i ts⟩
  append h h' := by
    obtain ⟨first, fromS, reported⟩ := h
    obtain ⟨second, fromT, reported'⟩ := h'
    refine ⟨first ++ second, by rw [fromT, fromS, List.append_assoc], fun i stands => ?_⟩
    obtain ⟨here, there⟩ := standFrom_append.1 stands
    rw [editsOf, List.filterMap_append]
    exact (reported i here).append (reported' _ there)

/-- **Trimming a replacement** leaves the directive after the remarks before the old annotation. -/
theorem Renewed.trim_source {scope : Scope} {k : Association} {a c : Annotation} {m : Nat}
    {f : List TokenKind} {tail : List Char} (h : Renewed scope n k a c) (fits : a.Fits m f)
    (legible : Legible a.tokens tail) :
    Text.trim c.source = a.sigil.remarks ++ (directiveFor scope (.ofNamespace n) k a).render := by
  obtain ⟨fits', legible'⟩ := h.keeps fits legible
  have printed := h.source fits legible
  rw [c.source_eq, h.leading] at printed
  have remarks : c.sigil.remarks = a.sigil.remarks := by
    rw [Token.remarks, Token.trimmed, h.leading]
    rfl
  have trimmed := Annotation.trim_source fits' legible'
  rw [trimmed, remarks, (String.append_right_inj _).1 printed]

section Attempt

variable {a : Annotation} {m : Nat} {f : List TokenKind} {tail : List Char}
  {arguments : List Argument} {i : Nat} {edits : List Edit}

/-- Edits of the arguments report the same in the annotation that they stand in. -/
theorem Reported.around (fits : (a.withArguments arguments).Fits m f) (stands : StandFrom i a.tokens)
    (reported : ∀ j, StandFrom j a.inner.tokens →
      Reported j a.inner edits (a.withArguments arguments).inner) :
    ∀ e ∈ edits, ∃ sign ∈ a.tokens, e.Reports i a.source edits sign := by
  obtain ⟨front, after, tokens, -, -⟩ := Annotation.exists_around fits
  unfold Annotation.source
  rw [tokens, ← List.cons_append] at stands ⊢
  rw [standFrom_append, standFrom_append] at stands
  intro e he
  obtain ⟨sign, mem, reports⟩ := (reported _ stands.2.1).reports e he
  refine ⟨sign, List.mem_append_right _ (List.mem_append_left _ mem), ?_⟩
  rw [print_append, print_append, ← String.append_assoc]
  exact reports.extend (print (a.sigil :: front)) (print after)

/-- **One attempt reports** — an attempt on an annotation that has been edited within its span reports
what has become of it, and the edits within it report what they did before. -/
theorem Edited.attempt_reports (plan : ImportPlan) (hm : m ≤ maxNesting)
    (fits : (a.withArguments arguments).Fits m f)
    (legible : Legible (a.withArguments arguments).tokens tail) (stands : StandFrom i a.tokens)
    (edited : Edited (i + a.sigil.leadingText.utf8ByteSize) a.text edits
      (a.withArguments arguments).text)
    (within : ∀ e ∈ edits, a.span.start.offset < e.start ∧ e.stop < a.span.stop.offset)
    (reports : ∀ e ∈ edits, ∃ sign ∈ a.tokens, e.Reports i a.source edits sign) :
    let all := edits ++ (edit? symbols (.ofNamespace n) plan (a.withArguments arguments)).toList
    ∀ e ∈ all, ∃ sign ∈ a.tokens, e.Reports i a.source all sign := by
  have attempted := attempt_cases symbols (.ofNamespace n) plan (a.withArguments arguments)
  have untouched : ∀ e ∈ edits ++ [], ∃ sign ∈ a.tokens, e.Reports i a.source (edits ++ []) sign := by
    rwa [List.append_nil]
  unfold edit?
  generalize DeferFetch.attempt symbols (.ofNamespace n) plan (a.withArguments arguments) = outcome
    at attempted ⊢
  cases attempted with
  | notApplicable => exact untouched
  | failed => exact untouched
  | alreadyLazy => exact untouched
  | @replaced k r matched h _ =>
    let site : Site :=
      ⟨k, (a.withArguments arguments).span, Text.trim (a.withArguments arguments).source,
        Text.trim r.replacement.source⟩
    let e : Edit :=
      ⟨site, directiveFor ⟨symbols, plan.added⟩ (.ofNamespace n) k (a.withArguments arguments)⟩
    have renewed := renewed_of_synthesizeFor hm fits legible h
    obtain ⟨start, stop⟩ := a.span_offsets stands
    have spans : e.site.span = a.span := a.span_withArguments arguments
    have startsAt : e.start = a.span.start.offset := congrArg (·.start.offset) spans
    have stopsAt : e.stop = a.span.stop.offset := congrArg (·.stop.offset) spans
    have inner : ∀ d ∈ edits, d.within e = true := by
      intro d hd
      have := within d hd
      simp only [Edit.within, Bool.and_eq_true, decide_eq_true_eq]
      omega
    show ∀ d ∈ edits ++ [e], ∃ sign ∈ a.tokens, d.Reports i a.source (edits ++ [e]) sign
    refine List.forall_mem_append.2 ⟨fun d hd => ?_, List.forall_mem_singleton.2 ?_⟩
    · obtain ⟨sign, mem, report⟩ := reports d hd
      exact ⟨sign, mem, report.congr (Edit.filter_within_inner (inner d hd))⟩
    · obtain ⟨ts, tokens⟩ := a.tokens_eq_cons
      have own : a.sigil.kind = .at := fits.sigil.2
      have text : a.text = "@" ++ print a.tokens.tail := by
        unfold Annotation.text
        rw [Token.text, own]
        rfl
      have position : a.span.start = e.site.span.start := congrArg Span.start spans.symm
      refine ⟨a.sigil, tokens ▸ List.mem_cons_self, a.sigil.leadingText, print a.tokens.tail, "",
        (a.withArguments arguments).text, ?_, startsAt.trans start, ?_, ?_, own, position,
        Annotation.trim_source fits legible, renewed.trim_source fits legible⟩
      · rw [String.append_empty, ← text, a.source_eq]
      · rw [stopsAt, startsAt, ← text, stop]
      · rw [Edit.filter_within_last inner, ← text, startsAt, start]
        exact edited.spliced

end Attempt

/-- **Runs report** — step by step. -/
theorem visits_reporting (n : Namespace) (symbols : SymbolTable) :
    Visits maxNesting (Reporting symbols n) (recording (attempt symbols (.ofNamespace n))) where
  toComposes := reporting_composes
  keeps := (visits_splices n symbols).keeps
  leading := (visits_splices n symbols).leading
  step {m f tail a arguments s t} hm fits legible inner := by
    obtain ⟨record, fromS, reported⟩ := inner
    rw [run_recording]
    refine ⟨record ++ [(t.1.plan, a.withArguments arguments)],
      by rw [fromS, List.append_assoc], fun i stands => ?_⟩
    obtain ⟨around, within⟩ := Edited.around fits stands fun j there => (reported j there).edited
    have reports := Reported.around fits stands reported
    rw [editsOf_concat]
    exact ⟨around.attempt _ t.1 hm fits legible stands within,
      around.attempt_reports _ hm fits legible stands within reports⟩

/-- **Sites report what they replace** — of a parsed file, each site without another one within it spans a
piece of the text that begins with the at sign of an annotation. It reports that piece and the directive
that takes its place, both after the remarks before the annotation; so it reports no more than these
just if only white space precedes the annotation. -/
theorem makeLazy_reports {source : String} {file : Option String} {u : CompilationUnit}
    (parsed : (parseUnit source file).toExcept = .ok u) (catalog : Catalog) (n : Namespace) :
    let symbols := SymbolTable.ofUnit u catalog
    let edits := editsOf symbols (.ofNamespace n) (attempts (attempt symbols (.ofNamespace n)) u)
    edits.map Edit.site = (makeLazy catalog (.ofNamespace n) u).sites ∧
      (edits ≠ [] →
        Spliced 0 source (outermost edits) (makeLazy catalog (.ofNamespace n) u).unit.source) ∧
      ∀ e ∈ edits, edits.any (·.within e) = false →
        ∃ kept old rest, ∃ sign ∈ tokenize source file,
          source = kept ++ ("@" ++ old) ++ rest ∧ e.start = kept.utf8ByteSize ∧
          e.stop = e.start + ("@" ++ old).utf8ByteSize ∧
          sign.kind = .at ∧ sign.span.start = e.site.span.start ∧
          e.site.before = sign.remarks ++ ("@" ++ old) ∧
          e.site.after = sign.remarks ++ e.directive.render ∧
          (e.site.before = "@" ++ old ∧ e.site.after = e.directive.render ↔
            ∀ c ∈ sign.leadingText.toList, Text.isBlank c = true) := by
  intro symbols edits
  have sites : edits.map Edit.site = (makeLazy catalog (.ofNamespace n) u).sites := by
    rw [makeLazy, (attemptAll_reports _ u).1]
    exact sites_editsOf symbols (.ofNamespace n) _
  obtain ⟨readable, tokens⟩ := parseUnit_readable parsed
  obtain ⟨-, record, recorded, reported⟩ := CompilationUnit.walked (visits_reporting n symbols)
    readable ({ plan := .ofUnit u }, [])
  have same : editsOf symbols (.ofNamespace n) record = edits := (congrArg _ recorded).symm
  rw [same] at reported
  rcases tokens with tokens | bare
  · have reported := reported 0 (show StandFrom 0 u.tokens from tokens ▸ standFrom_tokenize source file)
    have text : print u.part.tokens = source := (congrArg print tokens).trans (print_tokenize source file)
    refine ⟨sites, fun _ => ?_, fun e he alone => ?_⟩
    · have spliced := reported.edited.spliced
      rw [text] at spliced
      rw [makeLazy, attemptAll_eq_recording]
      exact spliced
    · obtain ⟨sign, mem, kept, old, rest, old', whole, start, stop, spliced, own, position, before,
        after⟩ := reported.reports e he
      have none : edits.filter (·.within e) = [] := by
        rw [List.filter_eq_nil_iff]
        rwa [List.any_eq_false] at alone
      -- without edits within it, the piece is reported as it was
      rw [none] at spliced
      obtain rfl : old' = "@" ++ old := spliced
      refine ⟨kept, old, rest, sign, tokens ▸ mem, text.symm.trans whole, ?_, stop, own, position,
        before, after, ?_⟩
      · rw [start, Nat.zero_add]
      · rw [before, after, sign.remarks_append_eq_iff, sign.remarks_append_eq_iff, and_self_iff]
  · -- a file that keeps nothing of its text has no annotation to replace
    have idle : (makeLazy catalog (.ofNamespace n) u).sites = [] :=
      (attemptAll_of_idle fun a ha => by
        rw [CompilationUnit.annotations_of_body_eq_nil bare] at ha
        cases ha).2.2
    have none : edits = [] := List.map_eq_nil_iff.1 (sites.trans idle)
    refine ⟨sites, fun some => absurd none some, fun e he => ?_⟩
    rw [none] at he
    exact absurd he List.not_mem_nil

/-- An annotation after white space, with another one in its arguments. -/
theorem makeLazy_reports_inner :
    let source := "import jakarta.persistence.*;\nclass A \x7b\n\t@OneToOne(c=\n@ManyToOne /* b */) B b;\n\x7d"
    ∃ u, (parseUnit source).toExcept = .ok u ∧
      let symbols := SymbolTable.ofUnit u (.persistence .jakarta)
      let edits := editsOf symbols (.ofNamespace .jakarta)
        (attempts (attempt symbols (.ofNamespace .jakarta)) u)
      ∃ e ∈ edits, edits.any (·.within e) = false ∧
        ∃ kept old rest, ∃ sign ∈ tokenize source,
          source = kept ++ ("@" ++ old) ++ rest ∧ e.start = kept.utf8ByteSize ∧
          e.stop = e.start + ("@" ++ old).utf8ByteSize ∧
          (e.site.before = "@" ++ old ∧ e.site.after = e.directive.render ↔
            ∀ c ∈ sign.leadingText.toList, Text.isBlank c = true) := by
  intro source
  have run : (parseUnit source).toExcept.toOption.map (fun u =>
        let symbols := SymbolTable.ofUnit u (.persistence .jakarta)
        let edits := editsOf symbols (.ofNamespace .jakarta)
          (attempts (attempt symbols (.ofNamespace .jakarta)) u)
        edits.any fun e => !edits.any (·.within e)) = some true := by decide +kernel
  obtain ⟨u, parsed, found⟩ := exists_of_toOption_map run
  obtain ⟨e, he, alone⟩ := List.any_eq_true.1 found
  rw [Bool.not_eq_true'] at alone
  obtain ⟨-, -, reports⟩ := makeLazy_reports parsed (.persistence .jakarta) .jakarta
  obtain ⟨kept, old, rest, sign, mem, text, start, stop, -, -, -, -, exact_iff⟩ := reports e he alone
  exact ⟨u, parsed, e, he, alone, kept, old, rest, sign, mem, text, start, stop, exact_iff⟩

/-- **A comment before an annotation is reported** as if it were a part of the annotation, both of what was
there and of what took its place. -/
theorem makeLazy_reports_remark :
    let source := "import jakarta.persistence.*;\nclass A \x7b\n  /* c */ @OneToOne B b;\n\x7d\n"
    ∃ u, (parseUnit source).toExcept = .ok u ∧
      let symbols := SymbolTable.ofUnit u (.persistence .jakarta)
      let edits := editsOf symbols (.ofNamespace .jakarta)
        (attempts (attempt symbols (.ofNamespace .jakarta)) u)
      ∃ e ∈ edits, edits.any (·.within e) = false ∧ ∃ kept rest,
        source = kept ++ "@OneToOne" ++ rest ∧
        e.start = kept.utf8ByteSize ∧ e.stop = e.start + ("@OneToOne").utf8ByteSize ∧
        e.directive.render = "@OneToOne(fetch = FetchType.LAZY)" ∧
        e.site.before = "/* c */ @OneToOne" ∧
        e.site.after = "/* c */ @OneToOne(fetch = FetchType.LAZY)" := by
  intro source
  have run : (parseUnit source).toExcept.toOption.map (fun u =>
        let symbols := SymbolTable.ofUnit u (.persistence .jakarta)
        let edits := editsOf symbols (.ofNamespace .jakarta)
          (attempts (attempt symbols (.ofNamespace .jakarta)) u)
        edits.any fun e => !edits.any (·.within e) && decide (e.start = 50 ∧ e.stop = 59 ∧
          e.directive.render = "@OneToOne(fetch = FetchType.LAZY)" ∧
          e.site.before = "/* c */ @OneToOne" ∧
          e.site.after = "/* c */ @OneToOne(fetch = FetchType.LAZY)")) = some true := by
    decide +kernel
  obtain ⟨u, parsed, found⟩ := exists_of_toOption_map run
  obtain ⟨e, he, facts⟩ := List.any_eq_true.1 found
  rw [Bool.and_eq_true, Bool.not_eq_true', decide_eq_true_eq] at facts
  obtain ⟨alone, start, stop, rendered, before, after⟩ := facts
  refine ⟨u, parsed, e, he, alone, "import jakarta.persistence.*;\nclass A \x7b\n  /* c */ ",
    " B b;\n\x7d\n", by decide, ?_, ?_, rendered, before, after⟩
  · rw [start]
    decide
  · rw [start, stop]
    decide

end DeferFetch
