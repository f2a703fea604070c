/-
# DeferFetch.Proofs.Laziness.Splice — where a run changes the text of a file.

A run takes a file apart and puts it together again. Of the text, though, it changes nothing but the
annotations that it replaces: each attempt that replaces is an edit of the bytes that the annotation
spans, and an edit within another one is undone by that. So the file prints as its text in which the
outermost edits are made (`makeLazy_splices`).
-/
import DeferFetch.Proofs.Laziness.Attempts
import DeferFetch.Proofs.Lexing.Tiling
import DeferFetch.Proofs.Walk.Isolation

namespace DeferFetch

/-! ## Edits of a text -/

/-- **`Edit`** — the site of a change and the directive that was parsed for it. -/
structure Edit where
  site : Site
  directive : Directive
deriving DecidableEq, Repr

namespace Edit

/-- The byte before which the change begins. -/
def start (e : Edit) : Nat := e.site.span.start.offset

/-- The byte before which the change ends. -/
def stop (e : Edit) : Nat := e.site.span.stop.offset

/-- **`e.within d`** — the edit lies between the first and the last byte of another. -/
def within (e d : Edit) : Bool := d.start < e.start && e.stop < d.stop

/-- Of edits one after the other, neither lies within the other. -/
theorem within_eq_false {e d : Edit} (he : e.start < e.stop) (hd : d.start < d.stop)
    (apart : e.stop ≤ d.start) : e.within d = false ∧ d.within e = false := by
  simp only [within, Bool.and_eq_false_iff, decide_eq_false_iff_not]
  omega

end Edit

/-- **`outermost edits`** — the edits that are within no other. -/
def outermost (edits : List Edit) : List Edit := edits.filter fun e => !edits.any e.within

/-- **`Spliced i text edits text'`** — `text'` is `text`, which begins at byte `i`, with its bytes from the
start to the stop of each edit replaced by the text of the directive. All other bytes are the same, and
the edits come one after the other. -/
def Spliced : Nat → String → List Edit → String → Prop
  | _, text, [], text' => text' = text
  | i, text, e :: edits, text' => ∃ kept old rest rest',
      text = kept ++ old ++ rest ∧ text' = kept ++ e.directive.render ++ rest' ∧
      e.start = i + kept.utf8ByteSize ∧ e.stop = e.start + old.utf8ByteSize ∧
      Spliced e.stop rest edits rest'

theorem Spliced.prepend {i : Nat} {kept text text' : String} {edits : List Edit}
    (h : Spliced (i + kept.utf8ByteSize) text edits text') :
    Spliced i (kept ++ text) edits (kept ++ text') := by
  cases edits with
  | nil => exact congrArg (kept ++ ·) h
  | cons e edits =>
    obtain ⟨more, old, rest, rest', rfl, rfl, start, stop, spliced⟩ := h
    refine ⟨kept ++ more, old, rest, rest', ?_, ?_, ?_, stop, spliced⟩
    · simp only [String.append_assoc]
    · simp only [String.append_assoc]
    · rw [start, String.utf8ByteSize_append, Nat.add_assoc]

theorem Spliced.append {i : Nat} {text text' more more' : String} {edits others : List Edit}
    (h : Spliced i text edits text') (h' : Spliced (i + text.utf8ByteSize) more others more') :
    Spliced i (text ++ more) (edits ++ others) (text' ++ more') := by
  induction edits generalizing i text text' with
  | nil =>
    rw [show text' = text from h]
    exact h'.prepend
  | cons e edits ih =>
    -- the text after an edit goes on into the second one
    obtain ⟨kept, old, rest, rest', rfl, rfl, start, stop, spliced⟩ := h
    refine ⟨kept, old, rest ++ more, rest' ++ more', ?_, ?_, start, stop, ih spliced ?_⟩
    · simp only [String.append_assoc]
    · simp only [String.append_assoc]
    · have here : e.stop + rest.utf8ByteSize = i + (kept ++ old ++ rest).utf8ByteSize := by
        rw [String.utf8ByteSize_append, String.utf8ByteSize_append]
        omega
      rwa [here]

/-- **`Edited i text edits text'`** — every edit is one of some bytes of `text`, which begins at byte `i`,
and the outermost edits make `text'` of it. -/
structure Edited (i : Nat) (text : String) (edits : List Edit) (text' : String) : Prop where
  inside : ∀ e ∈ edits, i ≤ e.start ∧ e.start < e.stop ∧ e.stop ≤ i + text.utf8ByteSize
  spliced : Spliced i text (outermost edits) text'

namespace Edited

variable {i : Nat} {text text' more more' : String} {edits others : List Edit} {e : Edit}

protected theorem refl (i : Nat) (text : String) : Edited i text [] text := ⟨nofun, rfl⟩

/-- Edits of two texts one after the other are within each other only in the same text. -/
theorem outermost_append
    (first : ∀ e ∈ edits, i ≤ e.start ∧ e.start < e.stop ∧ e.stop ≤ i + text.utf8ByteSize)
    (second : ∀ e ∈ others, i + text.utf8ByteSize ≤ e.start ∧ e.start < e.stop) :
    outermost (edits ++ others) = outermost edits ++ outermost others := by
  -- the second text begins where the first one ends, so no edit of one lies within one of the other
  have apart (e : Edit) (he : e ∈ edits) (d : Edit) (hd : d ∈ others) :
      e.within d = false ∧ d.within e = false :=
    Edit.within_eq_false (first e he).2.1 (second d hd).2
      (Nat.le_trans (first e he).2.2 (second d hd).1)
  have none (e : Edit) (he : e ∈ edits) : others.any e.within = false :=
    List.any_eq_false.2 fun d hd => Bool.not_eq_true _ ▸ (apart e he d hd).1
  have none' (e : Edit) (he : e ∈ others) : edits.any e.within = false :=
    List.any_eq_false.2 fun d hd => Bool.not_eq_true _ ▸ (apart d hd e he).2
  unfold outermost
  rw [List.filter_append]
  congr 1
  · refine List.filter_congr fun e he => ?_
    rw [List.any_append, none e he, Bool.or_false]
  · refine List.filter_congr fun e he => ?_
    rw [List.any_append, none' e he, Bool.false_or]

/-- Edits of a text are edits of it behind another one. -/
protected theorem prepend {kept : String} (h : Edited (i + kept.utf8ByteSize) text edits text') :
    Edited i (kept ++ text) edits (kept ++ text') where
  inside e he := by
    have := h.inside e he
    rw [String.utf8ByteSize_append]
    omega
  spliced := h.spliced.prepend

/-- Texts one after the other are edited one after the other. -/
protected theorem append (h : Edited i text edits text')
    (h' : Edited (i + text.utf8ByteSize) more others more') :
    Edited i (text ++ more) (edits ++ others) (text' ++ more') := by
  refine ⟨?_, ?_⟩
  · rw [String.utf8ByteSize_append]
    refine List.forall_mem_append.2 ⟨fun e he => ?_, fun e he => ?_⟩
    · have := h.inside e he
      omega
    · have := h'.inside e he
      omega
  · rw [outermost_append h.inside fun e he => ⟨(h'.inside e he).1, (h'.inside e he).2.1⟩]
    exact h.spliced.append h'.spliced

/-- An edit undoes those that are within it. -/
theorem undo {leading : String} (within : ∀ d ∈ edits, d.within e = true)
    (inside : ∀ d ∈ edits, d.start < d.stop) (start : e.start = i + leading.utf8ByteSize)
    (stop : e.stop = e.start + text.utf8ByteSize) (some_bytes : e.start < e.stop) :
    Edited i (leading ++ text) (edits ++ [e]) (leading ++ e.directive.render) := by
  have total : (leading ++ text).utf8ByteSize = leading.utf8ByteSize + text.utf8ByteSize :=
    String.utf8ByteSize_append
  have bounds (d : Edit) (hd : d ∈ edits) : e.start < d.start ∧ d.start < d.stop ∧ d.stop < e.stop := by
    have lies := within d hd
    simp only [Edit.within, Bool.and_eq_true, decide_eq_true_eq] at lies
    exact ⟨lies.1, inside d hd, lies.2⟩
  have last : outermost (edits ++ [e]) = [e] := by
    -- the last edit is within none, and all others are within it
    have none : (edits ++ [e]).any e.within = false := by
      rw [List.any_eq_false]
      refine List.forall_mem_append.2 ⟨fun d hd => ?_, List.forall_mem_singleton.2 ?_⟩
      · have := bounds d hd
        simp only [Edit.within, Bool.and_eq_true, decide_eq_true_eq]
        omega
      · simp [Edit.within]
    unfold outermost
    rw [List.filter_append, List.filter_eq_nil_iff.2 fun d hd => ?_, List.filter_cons_of_pos,
      List.filter_nil, List.nil_append]
    · rw [none, Bool.not_false]
    · have : (edits ++ [e]).any d.within = true := by
        rw [List.any_append, List.any_cons, within d hd, Bool.true_or, Bool.or_true]
      rw [this, Bool.not_true]
      exact Bool.false_ne_true
  refine ⟨?_, ?_⟩
  · refine List.forall_mem_append.2 ⟨fun d hd => ?_, List.forall_mem_singleton.2 ?_⟩
    · have := bounds d hd
      omega
    · omega
  · rw [last]
    refine ⟨leading, text, "", "", ?_, ?_, start, stop, rfl⟩
    · rw [String.append_empty]
    · rw [String.append_empty]

end Edited

/-! ## Annotations in their places -/

theorem QualifiedName.exists_tokens_last (name : QualifiedName) :
    ∃ ts, name.tokens = ts ++ [name.last] := by
  obtain ⟨first, others⟩ := name
  rcases List.eq_nil_or_concat others with rfl | ⟨front, segment, rfl⟩
  · exact ⟨[], rfl⟩
  · refine ⟨first :: front.flatMap (fun segment => [segment.dot, segment.identifier]) ++
      [segment.dot], ?_⟩
    simp [tokens, last]

namespace Annotation

variable {a : Annotation} {i : Nat}

/-- The last token of an annotation is the one with which its span ends. -/
theorem exists_tokens_last (a : Annotation) :
    ∃ ts t, a.tokens = ts ++ [t] ∧ a.span.stop = t.span.stop := by
  obtain ⟨sigil, name, _ | ⟨opening, arguments, commas, closing⟩⟩ := a
  · obtain ⟨ts, tokens⟩ := name.exists_tokens_last
    refine ⟨sigil :: ts, name.last, ?_, rfl⟩
    simp only [tokens, Annotation.tokens, List.cons_append]
  · refine ⟨sigil :: (name.tokens ++ opening :: Argument.listTokens arguments commas), closing, ?_, rfl⟩
    simp only [List.cons_append, Annotation.tokens, List.append_assoc]

/-- The text of an annotation without what precedes it. -/
def text (a : Annotation) : String := a.sigil.text ++ print a.tokens.tail

theorem source_eq (a : Annotation) : a.source = a.sigil.leadingText ++ a.text := by
  obtain ⟨ts, tokens⟩ := a.tokens_eq_cons
  rw [source, text, tokens, print_cons, Token.source, List.tail_cons, String.append_assoc]

/-- **Annotations span their text.** -/
theorem span_offsets (stands : StandFrom i a.tokens) :
    a.span.start.offset = i + a.sigil.leadingText.utf8ByteSize ∧
      a.span.stop.offset = a.span.start.offset + a.text.utf8ByteSize := by
  have start : a.span.start.offset = i + a.sigil.leadingText.utf8ByteSize := by
    obtain ⟨ts, tokens⟩ := a.tokens_eq_cons
    rw [tokens] at stands
    exact stands.1
  obtain ⟨ts, t, tokens, stop⟩ := a.exists_tokens_last
  rw [tokens, standFrom_append] at stands
  have last : t.span.stop.offset = i + (print ts).utf8ByteSize + t.source.utf8ByteSize := stands.2.2.1
  have whole : a.source.utf8ByteSize = (print ts).utf8ByteSize + t.source.utf8ByteSize := by
    rw [source, tokens, print_append, print_cons, print_nil, String.append_empty,
      String.utf8ByteSize_append]
  rw [source_eq, String.utf8ByteSize_append] at whole
  refine ⟨start, ?_⟩
  rw [start, stop, last]
  omega

/-- The at sign of an annotation is one byte. -/
theorem Fits.utf8ByteSize_sigil {m : Nat} {f : List TokenKind} (fits : a.Fits m f) :
    a.sigil.text.utf8ByteSize = 1 := by
  rw [Token.text, fits.sigil.2]
  rfl

/-- The arguments of an annotation stand between tokens that stay. If there are arguments, then some
tokens come after them. -/
theorem exists_around {m : Nat} {f : List TokenKind} {arguments : List Argument}
    (fits : (a.withArguments arguments).Fits m f) :
    ∃ front after, a.tokens = a.sigil :: (front ++ (a.inner.tokens ++ after)) ∧
      (a.withArguments arguments).tokens =
        a.sigil :: (front ++ ((a.withArguments arguments).inner.tokens ++ after)) ∧
      (a.inner.tokens = [] ∨ 0 < (print after).utf8ByteSize) := by
  obtain ⟨sigil, name, _ | ⟨opening, others, commas, closing⟩⟩ := a
  · refine ⟨name.tokens, [], ?_, ?_, .inl rfl⟩
    · simp [inner, Annotation.tokens]
    · simp [inner, Annotation.tokens, withArguments]
  · have closes : closing.kind = .closing .paren := fits.2.2.2.2.1
    refine ⟨name.tokens ++ [opening], [closing], ?_, ?_, .inr ?_⟩
    · simp [inner, Annotation.tokens, Argument.listPart]
    · simp [inner, Annotation.tokens, withArguments, Argument.listPart]
    · have own : closing.text.utf8ByteSize = 1 := by
        rw [Token.text, closes]
        rfl
      rw [print_cons, Token.source, String.utf8ByteSize_append, String.utf8ByteSize_append, own]
      omega

end Annotation

/-! ## The edits of a run -/

/-- **`edit? symbols targets plan a`** — the edit that an attempt makes: if it replaces the annotation, the
site that it reports and the directive that it has parsed for it. -/
def edit? (symbols : SymbolTable) (targets : Targets) (plan : ImportPlan) (a : Annotation) :
    Option Edit :=
  (attempt symbols targets plan a).site?.map fun site =>
    ⟨site, directiveFor ⟨symbols, plan.added⟩ targets site.association a⟩

/-- **`editsOf symbols targets record`** — the edits that the recorded attempts make, in order. -/
def editsOf (symbols : SymbolTable) (targets : Targets) (record : List (ImportPlan × Annotation)) :
    List Edit :=
  record.filterMap fun (plan, a) => edit? symbols targets plan a

theorem editsOf_concat (symbols : SymbolTable) (targets : Targets)
    (record : List (ImportPlan × Annotation)) (plan : ImportPlan) (a : Annotation) :
    editsOf symbols targets (record ++ [(plan, a)]) =
      editsOf symbols targets record ++ (edit? symbols targets plan a).toList := by
  unfold editsOf
  rw [List.filterMap_append]
  cases edit : edit? symbols targets plan a <;> simp [edit]

/-- The edits are those of the sites that are reported. -/
theorem sites_editsOf (symbols : SymbolTable) (targets : Targets)
    (record : List (ImportPlan × Annotation)) :
    (editsOf symbols targets record).map Edit.site =
      record.filterMap fun (plan, a) => (attempt symbols targets plan a).site? := by
  unfold editsOf edit?
  rw [List.map_filterMap]
  simp only [Option.map_map, Function.comp_def, Option.map_id']

variable {n : Namespace} {symbols : SymbolTable}

/-- **Replacements print as directives** — after what preceded the old annotation. -/
theorem Renewed.source {scope : Scope} {k : Association} {a c : Annotation} {m : Nat}
    {f : List TokenKind} {tail : List Char} (h : Renewed scope n k a c) (fits : a.Fits m f)
    (legible : Legible a.tokens tail) :
    c.source = a.sigil.leadingText ++ (directiveFor scope (.ofNamespace n) k a).render := by
  obtain ⟨others, respaced⟩ := exists_respaced (keptArguments scope (.ofNamespace n) k a)
  have directs := directs_of_fits fits legible respaced
  have same : print c.tokens = print (directiveTree a.sigil.leadingText a.name.dotted
      (fetchReference scope (.ofNamespace n)).text others).tokens := by
    rw [← print_bare, ← Annotation.tokens_mapTokens, h.2 others respaced,
      Annotation.tokens_mapTokens, print_bare]
  unfold Annotation.source
  rw [same, tokens_directiveTree respaced,
    print_directiveTokens _ _ _ directs.detached, render_directiveFor]

/-- **`Splices symbols n s p q t`** — between the states, attempts have been recorded, and wherever the
part `p` of the file stands, their edits have made the part `q` of it. -/
def Splices (symbols : SymbolTable) (n : Namespace) (s : Recorded) (p q : Part) (t : Recorded) : Prop :=
  ∃ record, t.2 = s.2 ++ record ∧ ∀ i, StandFrom i p.tokens →
    Edited i (print p.tokens) (editsOf symbols (.ofNamespace n) record) (print q.tokens)

theorem splices_composes : Composes (Splices symbols n) where
  plain s ts := ⟨[], (List.append_nil _).symm, fun i _ => .refl i (print ts)⟩
  append h h' := by
    obtain ⟨first, fromS, edited⟩ := h
    obtain ⟨second, fromT, edited'⟩ := h'
    refine ⟨first ++ second, by rw [fromT, fromS, List.append_assoc], fun i stands => ?_⟩
    obtain ⟨here, there⟩ := standFrom_append.1 stands
    rw [Part.tokens_append, Part.tokens_append, print_append, print_append, editsOf,
      List.filterMap_append]
    exact (edited i here).append (edited' _ there)

/-- Edits of the arguments are edits of the annotation that they stand in, and they are within its
span. -/
theorem Edited.around {a : Annotation} {m : Nat} {f : List TokenKind} {arguments : List Argument}
    {i : Nat} {edits : List Edit} (fits : (a.withArguments arguments).Fits m f)
    (stands : StandFrom i a.tokens)
    (edited : ∀ j, StandFrom j a.inner.tokens →
      Edited j (print a.inner.tokens) edits (print (a.withArguments arguments).inner.tokens)) :
    Edited (i + a.sigil.leadingText.utf8ByteSize) a.text edits (a.withArguments arguments).text ∧
      ∀ e ∈ edits, a.span.start.offset < e.start ∧ e.stop < a.span.stop.offset := by
  obtain ⟨start, stop⟩ := a.span_offsets stands
  obtain ⟨front, after, tokens, tokens', closes⟩ := Annotation.exists_around fits
  have sign : a.sigil.text.utf8ByteSize = 1 := fits.utf8ByteSize_sigil
  have text : a.text =
      (a.sigil.text ++ print front) ++ (print a.inner.tokens ++ print after) := by
    unfold Annotation.text
    rw [tokens, List.tail_cons, print_append, print_append, String.append_assoc]
  have text' : (a.withArguments arguments).text = (a.sigil.text ++ print front) ++
      (print (a.withArguments arguments).inner.tokens ++ print after) := by
    unfold Annotation.text
    rw [tokens', List.tail_cons, print_append, print_append, String.append_assoc]
    rfl
  -- the arguments begin after the at sign and what comes before the parenthesis, that included
  have inner : Edited (i + a.sigil.leadingText.utf8ByteSize +
      (a.sigil.text ++ print front).utf8ByteSize) (print a.inner.tokens) edits
      (print (a.withArguments arguments).inner.tokens) := by
    rw [tokens, ← List.singleton_append, standFrom_append, standFrom_append, standFrom_append]
      at stands
    have here := edited _ stands.2.2.1
    rwa [print_cons, print_nil, String.append_empty, Token.source, String.utf8ByteSize_append,
      ← Nat.add_assoc, Nat.add_assoc (i + _), ← String.utf8ByteSize_append] at here
  constructor
  · rw [text, text']
    have whole := inner.append (.refl _ (print after))
    rw [List.append_nil] at whole
    exact whole.prepend
  · intro e he
    have inside := inner.inside e he
    have some_text : 0 < (print after).utf8ByteSize := by
      refine closes.resolve_left fun empty => ?_
      rw [empty, print_nil, String.utf8ByteSize_empty] at inside
      omega
    rw [text] at stop
    simp only [String.utf8ByteSize_append, sign] at stop inside
    omega

theorem Annotation.span_withArguments (a : Annotation) (arguments : List Argument) :
    (a.withArguments arguments).span = a.span := by
  obtain ⟨sigil, name, _ | ⟨opening, others, commas, closing⟩⟩ := a
  · rfl
  · rfl

/-- **One attempt splices** — when an annotation has been edited within its span, an attempt on what has
become of it either leaves that, or makes one edit of the whole span. -/
theorem Edited.attempt {a : Annotation} {m : Nat} {f : List TokenKind} {tail : List Char}
    {arguments : List Argument} {i : Nat} {edits : List Edit} (plan : ImportPlan) (s : WalkState)
    (hm : m ≤ maxNesting) (fits : (a.withArguments arguments).Fits m f)
    (legible : Legible (a.withArguments arguments).tokens tail) (stands : StandFrom i a.tokens)
    (edited : Edited (i + a.sigil.leadingText.utf8ByteSize) a.text edits
      (a.withArguments arguments).text)
    (within : ∀ e ∈ edits, a.span.start.offset < e.start ∧ e.stop < a.span.stop.offset) :
    Edited i a.source
      (edits ++ (edit? symbols (.ofNamespace n) plan (a.withArguments arguments)).toList)
      ((DeferFetch.attempt symbols (.ofNamespace n) plan (a.withArguments arguments)).result
        (a.withArguments arguments) s).1.source := by
  have attempted := attempt_cases symbols (.ofNamespace n) plan (a.withArguments arguments)
  have untouched : Edited i a.source (edits ++ []) (a.withArguments arguments).source := by
    rw [List.append_nil, a.source_eq, Annotation.source_eq]
    exact edited.prepend
  unfold edit?
  generalize DeferFetch.attempt symbols (.ofNamespace n) plan (a.withArguments arguments) = outcome
    at attempted ⊢
  cases attempted with
  | notApplicable => exact untouched
  | failed => exact untouched
  | alreadyLazy => exact untouched
  | @replaced k r matched h _ =>
    let site : Site :=
      ⟨k, (a.withArguments arguments).span, Text.trim (a.withArguments arguments).source,
        Text.trim r.replacement.source⟩
    let e : Edit :=
      ⟨site, directiveFor ⟨symbols, plan.added⟩ (.ofNamespace n) k (a.withArguments arguments)⟩
    have printed : r.replacement.source = a.sigil.leadingText ++ e.directive.render :=
      (renewed_of_synthesizeFor hm fits legible h).source fits legible
    -- other arguments do not change the span, which is that in the text
    obtain ⟨start, stop⟩ := a.span_offsets stands
    have startsAt : e.start = a.span.start.offset :=
      congrArg (fun span : Span => span.start.offset) (a.span_withArguments arguments)
    have stopsAt : e.stop = a.span.stop.offset :=
      congrArg (fun span : Span => span.stop.offset) (a.span_withArguments arguments)
    have sign : 0 < a.text.utf8ByteSize := by
      have own : a.sigil.text.utf8ByteSize = 1 := fits.utf8ByteSize_sigil
      unfold Annotation.text
      rw [String.utf8ByteSize_append, own]
      omega
    show Edited i a.source (edits ++ [e]) r.replacement.source
    rw [printed, a.source_eq]
    refine .undo (fun d hd => ?_) (fun d hd => (edited.inside d hd).2.1) (startsAt.trans start) ?_ ?_
    · have := within d hd
      rw [← startsAt, ← stopsAt] at this
      simp only [Edit.within, Bool.and_eq_true, decide_eq_true_eq]
      exact this
    · rw [startsAt, stopsAt]
      exact stop
    · omega

/-- **Runs splice** — step by step. -/
theorem visits_splices (n : Namespace) (symbols : SymbolTable) :
    Visits maxNesting (Splices symbols n) (recording (attempt symbols (.ofNamespace n))) where
  toComposes := splices_composes
  keeps {_ _ _ a} s hm fits legible := by
    rw [run_recording]
    exact (attempt_cases symbols _ s.1.plan a).keeps s.1 hm fits legible
  leading a s := by
    rw [run_recording]
    exact (attempt_cases symbols _ s.1.plan a).leading s.1
  step {m f tail a arguments s t} hm fits legible inner := by
    obtain ⟨record, fromS, edited⟩ := inner
    rw [run_recording]
    refine ⟨record ++ [(t.1.plan, a.withArguments arguments)],
      by rw [fromS, List.append_assoc], fun i stands => ?_⟩
    obtain ⟨around, within⟩ := Edited.around fits stands edited
    rw [editsOf_concat]
    exact around.attempt _ t.1 hm fits legible stands within

/-- A file with no tokens but its end has no annotations. -/
theorem CompilationUnit.annotations_of_body_eq_nil {u : CompilationUnit} (h : u.body = []) :
    u.annotations = [] := by
  obtain ⟨package?, imports, types, eof⟩ := u
  simp only [body, List.append_eq_nil_iff] at h
  obtain ⟨⟨noPackage, -⟩, noTypes⟩ := h
  have types : types = [] := by
    cases types with
    | nil => rfl
    | cons d types =>
      rw [List.flatMap_cons, List.append_eq_nil_iff] at noTypes
      exact absurd noTypes.1 (Parser.TopLevel.tokens_ne_nil d)
  cases package? with
  | none =>
    rw [types]
    rfl
  | some p => simp [PackageDeclaration.tokens] at noPackage

/-- **Runs change the text at their sites only** — when the associations of a parsed file are made lazy
and a site is reported, the file, without the imports that it still needs, prints as its text in which
the bytes that the sites span are replaced by their directives, but for the sites within others. -/
theorem makeLazy_splices {source : String} {file : Option String} {u : CompilationUnit}
    (parsed : (parseUnit source file).toExcept = .ok u) (catalog : Catalog) (n : Namespace)
    (changed : (makeLazy catalog (.ofNamespace n) u).sites ≠ []) :
    let symbols := SymbolTable.ofUnit u catalog
    let edits := editsOf symbols (.ofNamespace n) (attempts (attempt symbols (.ofNamespace n)) u)
    edits.map Edit.site = (makeLazy catalog (.ofNamespace n) u).sites ∧
      Spliced 0 source (outermost edits) (makeLazy catalog (.ofNamespace n) u).unit.source := by
  intro symbols edits
  have sites : edits.map Edit.site = (makeLazy catalog (.ofNamespace n) u).sites := by
    rw [makeLazy, (attemptAll_reports _ u).1]
    exact sites_editsOf symbols (.ofNamespace n) _
  refine ⟨sites, ?_⟩
  obtain ⟨readable, tokens⟩ := parseUnit_readable parsed
  obtain ⟨-, record, recorded, edited⟩ := CompilationUnit.walked (visits_splices n symbols) readable
    ({ plan := .ofUnit u }, [])
  have edited : ∀ i, StandFrom i u.tokens →
      Edited i (print u.tokens) edits (makeLazy catalog (.ofNamespace n) u).unit.source := by
    have record : edits = editsOf symbols (.ofNamespace n) record := congrArg _ recorded
    rw [record, makeLazy, attemptAll_eq_recording]
    exact edited
  rcases tokens with same | bare
  · have whole := (edited 0 (same ▸ standFrom_tokenize source file)).spliced
    rwa [same, print_tokenize] at whole
  · -- a file that keeps nothing of its text has no annotation to replace
    refine absurd (attemptAll_of_idle fun a ha => ?_).2.2 changed
    rw [CompilationUnit.annotations_of_body_eq_nil bare] at ha
    cases ha

/-- Three sites of which one is within another, after a character of two bytes. -/
theorem makeLazy_splices_nested :
    let source := "import jakarta.persistence.*; class A \x7b /* ä */ @OneToOne(c=@ManyToOne /* b */) B b; " ++
      "@ManyToOne C c; \x7d"
    ∃ u, (parseUnit source).toExcept = .ok u ∧
      (makeLazy (.persistence .jakarta) (.ofNamespace .jakarta) u).sites ≠ [] ∧
      let symbols := SymbolTable.ofUnit u (.persistence .jakarta)
      let edits := editsOf symbols (.ofNamespace .jakarta)
        (attempts (attempt symbols (.ofNamespace .jakarta)) u)
      (edits.map Edit.site = (makeLazy (.persistence .jakarta) (.ofNamespace .jakarta) u).sites ∧
        Spliced 0 source (outermost edits)
          (makeLazy (.persistence .jakarta) (.ofNamespace .jakarta) u).unit.source) ∧
      (outermost edits).map (fun e => (e.start, e.stop, e.directive.render)) =
        [(49, 80, "@OneToOne(fetch = FetchType.LAZY, c=@ManyToOne(fetch = FetchType.LAZY))"),
          (86, 96, "@ManyToOne(fetch = FetchType.LAZY)")] := by
  intro source
  have run : (parseUnit source).toExcept.toOption.map (fun u =>
        let symbols := SymbolTable.ofUnit u (.persistence .jakarta)
        (decide ((makeLazy (.persistence .jakarta) (.ofNamespace .jakarta) u).sites ≠ []),
          (outermost (editsOf symbols (.ofNamespace .jakarta)
            (attempts (attempt symbols (.ofNamespace .jakarta)) u))).map
              (fun e => (e.start, e.stop, e.directive.render)))) =
      some (true,
        [(49, 80, "@OneToOne(fetch = FetchType.LAZY, c=@ManyToOne(fetch = FetchType.LAZY))"),
          (86, 96, "@ManyToOne(fetch = FetchType.LAZY)")]) := by decide +kernel
  obtain ⟨u, parsed, found⟩ := exists_of_toOption_map run
  obtain ⟨changed, outer⟩ := Prod.mk.inj found
  have changed := of_decide_eq_true changed
  exact ⟨u, parsed, changed, makeLazy_splices parsed (.persistence .jakarta) .jakarta changed, outer⟩

end DeferFetch
