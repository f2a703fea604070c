/-
# DeferFetch.Proofs.Laziness.Attempts — what a run over a file attempts, and with what success.

Whatever a run has replaced until then, an annotation that it attempts fits and is legible, and only
the fetch modes are planned to be imported. So what is known of a single synthesis holds of every one
that a run attempts (`synthesis_exact`).
-/
import DeferFetch.Proofs.Laziness.Synthesis
import DeferFetch.Proofs.Walk.Trace
import DeferFetch.Proofs.Walk.File

namespace DeferFetch

variable {n : Namespace} {u : CompilationUnit} {symbols : SymbolTable}

/-! ## Tidy replacements -/

/-- The tokens of a replacement are after the trivia that its text had, except the first. -/
theorem tidy_inPlaceOf {a b : Annotation} (ha : ∀ t ∈ a.tokens, t.Tidy) (hb : ∀ t ∈ b.tokens, t.Tidy) :
    ∀ t ∈ (inPlaceOf a b).tokens, t.Tidy := by
  let spanned := b.mapTokens fun t => { t with span := a.span }
  have new : inPlaceOf a b = spanned.withSigil { spanned.sigil with trivia := a.sigil.trivia } := rfl
  rw [new, Annotation.tokens_withSigil]
  refine List.forall_mem_cons.2 ⟨?_, fun t ht => ?_⟩
  · obtain ⟨ts, hts⟩ := a.tokens_eq_cons
    exact ha a.sigil (by simp [hts])
  · have ht := List.mem_of_mem_tail ht
    rw [b.tokens_mapTokens] at ht
    obtain ⟨t, hmem, rfl⟩ := List.mem_map.1 ht
    exact hb t hmem

theorem tidy_of_synthesizeFor {plan : ImportPlan} {k : Association} {a : Annotation} {r : Synthesis}
    (ha : ∀ t ∈ a.tokens, t.Tidy) (h : synthesizeFor symbols (.ofNamespace n) plan k a = .ok r) :
    ∀ t ∈ r.replacement.tokens, t.Tidy := by
  obtain ⟨b, parsed, -, rfl⟩ := synthesizeFor_eq_ok.1 h
  obtain ⟨e, tokens, -⟩ := parseAnnotation_eq_ok.1 parsed
  exact tidy_inPlaceOf ha (tidy_of_tokenize tokens)

/-! ## What holds of every attempt -/

/-- **`Placed a`** — the annotation fits and is legible somewhere in a file, and what stands before
its tokens is as it was read. -/
structure Placed (a : Annotation) : Prop where
  fits : ∃ m f tail, m ≤ maxNesting ∧ a.Fits m f ∧ Legible a.tokens tail
  tidy : ∀ t ∈ a.tokens, t.Tidy

/-- **`Sound n u s`** — no import but that of the fetch modes has been planned, and every annotation
that was attempted was placed. -/
structure Sound (n : Namespace) (u : CompilationUnit) (s : Recorded) : Prop where
  plan : s.1.plan.Reached n u
  record : ∀ entry ∈ s.2, entry.1.Reached n u ∧ Placed entry.2

/-- From sound states, parts of a file that are tidy stay so, and the states stay sound. -/
def KeepsSound (n : Namespace) (u : CompilationUnit) (s : Recorded) (p q : Part) (t : Recorded) : Prop :=
  Sound n u s → TidyBody p.tokens → TidyBody q.tokens ∧ Sound n u t

theorem keepsSound_composes : Composes (KeepsSound n u) where
  plain _ _ := fun sound tidy => ⟨tidy, sound⟩
  append h h' := fun sound tidy => by
    obtain ⟨first, mid⟩ := h sound fun t ht => tidy t (List.mem_append_left _ ht)
    obtain ⟨second, last⟩ := h' mid fun t ht => tidy t (List.mem_append_right _ ht)
    exact ⟨List.forall_mem_append.2 ⟨first, second⟩, last⟩

/-- Legible tokens do not end the text. -/
theorem Legible.kind_ne_eof {ts : List Token} {tail : List Char} (h : Legible ts tail) :
    ∀ t ∈ ts, t.kind ≠ .eof := by
  induction ts with
  | nil => exact nofun
  | cons t ts ih =>
    obtain ⟨-, ⟨c, cs, text, -⟩, rest⟩ := h
    refine List.forall_mem_cons.2 ⟨fun eof => ?_, ih rest⟩
    rw [eof] at text
    cases text

/-- **One attempt** — what it gives fits and is legible in the place of the annotation and stands
after what preceded that. -/
theorem Attempted.keeps {plan : ImportPlan} {a : Annotation} {outcome : Attempt} {m : Nat}
    {f : List TokenKind} {tail : List Char}
    (attempted : Attempted symbols (.ofNamespace n) plan a outcome) (s : WalkState)
    (hm : m ≤ maxNesting) (fits : a.Fits m f) (legible : Legible a.tokens tail) :
    (outcome.result a s).1.Fits m f ∧ Legible (outcome.result a s).1.tokens tail := by
  cases attempted with
  | notApplicable => exact ⟨fits, legible⟩
  | failed => exact ⟨fits, legible⟩
  | alreadyLazy => exact ⟨fits, legible⟩
  | replaced _ h _ => exact (renewed_of_synthesizeFor hm fits legible h).keeps fits legible

theorem Attempted.leading {plan : ImportPlan} {a : Annotation} {outcome : Attempt}
    (attempted : Attempted symbols (.ofNamespace n) plan a outcome) (s : WalkState) :
    (outcome.result a s).1.sigil.leadingText = a.sigil.leadingText := by
  cases attempted with
  | notApplicable => rfl
  | failed => rfl
  | alreadyLazy => rfl
  | replaced _ h _ =>
    obtain ⟨b, -, -, rfl⟩ := synthesizeFor_eq_ok.1 h
    rfl

theorem Attempted.tidy {plan : ImportPlan} {a : Annotation} {outcome : Attempt}
    (attempted : Attempted symbols (.ofNamespace n) plan a outcome) (s : WalkState)
    (tidy : ∀ t ∈ a.tokens, t.Tidy) : ∀ t ∈ (outcome.result a s).1.tokens, t.Tidy := by
  cases attempted with
  | notApplicable => exact tidy
  | failed => exact tidy
  | alreadyLazy => exact tidy
  | replaced _ h _ => exact tidy_of_synthesizeFor tidy h

theorem Attempted.reached {plan : ImportPlan} {a : Annotation} {outcome : Attempt}
    (attempted : Attempted symbols (.ofNamespace n) plan a outcome) {s : WalkState}
    (h : plan.Reached n u) (hs : s.plan.Reached n u) : (outcome.result a s).2.plan.Reached n u := by
  have staged {k : Association} {r : Synthesis}
      (found : synthesizeFor symbols (.ofNamespace n) plan k a = .ok r) : r.plan.Reached n u := by
    obtain ⟨b, -, -, rfl⟩ := synthesizeFor_eq_ok.1 found
    exact reached_staged h
  cases attempted with
  | notApplicable => exact hs
  | failed => exact hs
  | alreadyLazy _ found _ => exact staged found
  | replaced _ found _ => exact staged found

theorem Annotation.inner_tokens_subset (a : Annotation) : ∀ t ∈ a.inner.tokens, t ∈ a.tokens := by
  obtain ⟨sigil, name, _ | ⟨opening, arguments, commas, closing⟩⟩ := a
  · exact nofun
  · intro t ht
    simp only [List.mem_cons, Annotation.tokens, List.mem_append]
    exact .inr (.inr (.inr (.inl ht)))

theorem Annotation.mem_withArguments {a : Annotation} {arguments : List Argument} {t : Token}
    (ht : t ∈ (a.withArguments arguments).tokens) :
    t ∈ a.tokens ∨ t ∈ (a.withArguments arguments).inner.tokens := by
  obtain ⟨sigil, name, _ | ⟨opening, others, commas, closing⟩⟩ := a
  · exact .inl ht
  · simp only [Option.map_some, Annotation.withArguments, Annotation.tokens, List.mem_cons,
      List.mem_append] at ht ⊢
    rcases ht with ht | ht | ht | ht | ht
    · exact .inl (.inl ht)
    · exact .inl (.inr (.inl ht))
    · exact .inl (.inr (.inr (.inl ht)))
    · exact .inr ht
    · exact .inl (.inr (.inr (.inr (.inr ht))))

/-- **Runs stay sound** — step by step. -/
theorem visits_recording (n : Namespace) (u : CompilationUnit) (symbols : SymbolTable) :
    Visits maxNesting (KeepsSound n u) (recording (attempt symbols (.ofNamespace n))) where
  toComposes := keepsSound_composes
  keeps {_ _ _ a} s hm fits legible := by
    rw [run_recording]
    exact (attempt_cases symbols _ s.1.plan a).keeps s.1 hm fits legible
  leading a s := by
    rw [run_recording]
    exact (attempt_cases symbols _ s.1.plan a).leading s.1
  step {m f tail a arguments s t} hm fits legible inner sound tidy := by
    obtain ⟨innerTidy, mid⟩ := inner sound fun t ht => tidy t (a.inner_tokens_subset t ht)
    rw [run_recording]
    have attempted := attempt_cases symbols (.ofNamespace n) t.1.plan (a.withArguments arguments)
    have visited : ∀ t ∈ (a.withArguments arguments).tokens, t.Tidy := fun t ht => by
      have ne := legible.kind_ne_eof t ht
      rcases Annotation.mem_withArguments ht with ht | ht
      · exact tidy t ht ne
      · exact innerTidy t ht ne
    exact ⟨fun t ht _ => attempted.tidy _ visited t ht, attempted.reached mid.plan mid.plan,
      List.forall_mem_append.2 ⟨mid.record, List.forall_mem_singleton.2
        ⟨mid.plan, ⟨⟨m, f, tail, hm, fits, legible⟩, visited⟩⟩⟩⟩

/-- **Every attempt of a run** — every annotation that is attempted is placed, and no import but that
of the fetch modes is ever planned. -/
theorem attempts_sound {source : String} {file : Option String} {symbols : SymbolTable}
    (h : (parseUnit source file).toExcept = .ok u) :
    (∀ plan ∈ plans (attempt symbols (.ofNamespace n)) u, plan.Reached n u) ∧
      ∀ a ∈ (attempts (attempt symbols (.ofNamespace n)) u).map Prod.snd, Placed a := by
  obtain ⟨-, keeps⟩ := CompilationUnit.walked (visits_recording n u symbols)
    (parseUnit_readable h).1 ({ plan := .ofUnit u }, [])
  obtain ⟨final, record⟩ := (keeps ⟨.start n u, nofun⟩ (tidy_of_parseUnit h)).2
  constructor
  · intro plan hplan
    rcases List.mem_append.1 hplan with hplan | hplan
    · obtain ⟨entry, hentry, rfl⟩ := List.mem_map.1 hplan
      exact (record entry hentry).1
    · rw [List.mem_singleton.1 hplan, attemptAll_eq_recording]
      exact final
  · intro a ha
    obtain ⟨entry, hentry, rfl⟩ := List.mem_map.1 ha
    exact (record entry hentry).2

/-! ## What is kept of the arguments -/

/-- **`p.content`** — the argument without its place: the kind, and so the text, of every token, and
what stands before every token but the first. -/
def Argument.content (p : Argument) : Argument × List (List (TriviaKind × String)) :=
  (p.mapTokens Token.stripped, p.tokens.tail.map Token.before)

/-- Arguments with a blank before each of them say what they said. -/
theorem Respaced.content_eq {kept others rest : List Argument} (h : Respaced kept others)
    (same : rest.map (Argument.mapTokens Token.bare) = others.map (Argument.mapTokens Token.bare))
    (tidyKept : ∀ p ∈ kept, ∀ t ∈ p.tokens, t.Tidy) (tidyRest : ∀ p ∈ rest, ∀ t ∈ p.tokens, t.Tidy) :
    rest.map Argument.content = kept.map Argument.content := by
  have tokens : rest.map (fun p => p.tokens.map Token.bare) =
      kept.map fun p => (spaced p.tokens).map Token.bare := by
    have := congrArg (List.map Argument.tokens) same
    simp only [List.map_map, Function.comp_def, Argument.tokens_mapTokens] at this
    have blanks := congrArg (List.map (List.map Token.bare)) h.tokens
    simp only [List.map_map, Function.comp_def] at blanks
    rw [this, blanks]
  have shape : rest.map (Argument.mapTokens Token.stripped) =
      kept.map (Argument.mapTokens Token.stripped) := by
    have := congrArg (List.map (Argument.mapTokens Token.stripped)) same
    rw [Argument.listMap_mapTokens, Argument.listMap_mapTokens] at this
    exact this.trans h.shape
  clear h same
  -- argument by argument: only the blank before the first token of each has changed
  induction rest generalizing kept with
  | nil => rw [List.map_eq_nil_iff.1 tokens.symm]
  | cons p rest ih =>
    cases kept with
    | nil => cases tokens
    | cons q kept =>
      obtain ⟨hp, hrest⟩ := List.forall_mem_cons.1 tidyRest
      obtain ⟨hq, hkept⟩ := List.forall_mem_cons.1 tidyKept
      obtain ⟨tokens, others⟩ := List.cons.inj tokens
      obtain ⟨shape, shapes⟩ := List.cons.inj shape
      have inner : p.tokens.tail.map Token.bare = q.tokens.tail.map Token.bare := by
        have := congrArg List.tail tokens
        cases hq : q.tokens <;> simpa [hq, spaced] using this
      have first : p.content = q.content := Prod.ext shape (before_eq_of_bare
        (fun t ht => hp t (List.mem_of_mem_tail ht)) (fun t ht => hq t (List.mem_of_mem_tail ht)) inner)
      rw [List.map_cons, List.map_cons, first, ih hkept hrest others shapes]

/-! ## Every synthesis of a run -/

/-- **`Substitutes before after targets k a c`** — `c` is what `a` is to be replaced with: it has the
same name, and its arguments are a lazy fetch and then those that are kept of `a`. What the old names
mean is said by `before`, and what the new ones mean by `after`. -/
structure Substitutes (before after : Scope) (targets : Targets) (k : Association)
    (a c : Annotation) : Prop where
  name : c.name.dotted = a.name.dotted
  arguments : ∃ first rest, c.arguments = first :: rest ∧
    isLazyFetch after targets first = true ∧
    first.source = lazyFetchText (fetchReference before targets).text ∧
    rest.map Argument.content = (keptArguments before targets k a).map Argument.content

theorem Argument.isSome_label (p : Argument) : p.label.isSome ↔ p.name? ≠ none := by
  cases h : p.label <;> simp [name?, h]

/-- The arguments of an annotation are among its tokens. -/
theorem Annotation.mem_tokens_of_argument {a : Annotation} {p : Argument} (hp : p ∈ a.arguments)
    {t : Token} (ht : t ∈ p.tokens) : t ∈ a.tokens := by
  have among {arguments : List Argument} {commas : List Token} (hp : p ∈ arguments) :
      t ∈ Argument.listTokens arguments commas := by
    induction arguments generalizing commas with
    | nil => cases hp
    | cons q arguments ih =>
      obtain ⟨label, value⟩ := q
      have rest (hp : p ∈ arguments) : t ∈ Argument.listTokens (⟨label, value⟩ :: arguments) commas := by
        cases commas <;> simp [Argument.listTokens, ih hp]
      rcases List.mem_cons.1 hp with rfl | hp
      · cases commas <;> exact List.mem_append_left _ ht
      · exact rest hp
  obtain ⟨sigil, name, _ | ⟨opening, arguments, commas, closing⟩⟩ := a
  · cases hp
  · exact Annotation.inner_tokens_subset _ t (among hp)

theorem source_lazyArgument (fetchType : String) :
    (lazyArgument fetchType).source = lazyFetchText fetchType := by
  apply String.toList_injective
  rw [Argument.source, toList_print, tokens_lazyArgument, spelling_lazyTokens]

/-- A replacement that is what was meant substitutes for the annotation. -/
theorem substitutes_of_synthesizeFor {plan : ImportPlan} {k : Association} {a : Annotation}
    {r : Synthesis} (placed : Placed a) (reached : plan.Reached n u)
    (apart : (planScope n u (.ofUnit u)).resolveSimple n.text = none)
    (h : synthesizeFor (.ofUnit u (.persistence n)) (.ofNamespace n) plan k a = .ok r) :
    Substitutes (planScope n u plan) (planScope n u r.plan) (.ofNamespace n) k a r.replacement := by
  obtain ⟨m, f, tail, hm, fits, legible⟩ := placed.fits
  have renewed := renewed_of_synthesizeFor hm fits legible h
  obtain ⟨others, respaced⟩ := exists_respaced (keptArguments (planScope n u plan) (.ofNamespace n) k a)
  have meant := renewed.2 others respaced
  obtain ⟨name, arguments⟩ := parts_of_directiveTree meant
  have resolved : (planScope n u r.plan).resolve (fetchReference (planScope n u plan)
      (.ofNamespace n)).text = some n.fetchType := by
    obtain ⟨b, -, -, rfl⟩ := synthesizeFor_eq_ok.1 h
    exact resolve_fetchReference reached apart
  refine ⟨name, ?_⟩
  have tidy := tidy_of_synthesizeFor placed.tidy h
  have first : r.replacement.arguments.head?.any
      (isLazyFetch (planScope n u r.plan) (.ofNamespace n)) = true :=
    (head?_of_directiveTree meant has_lazy).2 resolved
  -- the first argument is that of the directive, the others are those that were kept
  cases parts : r.replacement.arguments with
  | nil => simp [parts] at arguments
  | cons p rest =>
    rw [parts, List.map_cons, List.map_cons] at arguments
    obtain ⟨same, others'⟩ := List.cons.inj arguments
    have within : ∀ q ∈ p :: rest, ∀ t ∈ q.tokens, t.Tidy := fun q hq t ht =>
      tidy t <| Annotation.mem_tokens_of_argument (parts ▸ hq) ht
    refine ⟨p, rest, rfl, by simpa [parts] using first, ?_, ?_⟩
    · have := congrArg Argument.source same
      simp only [Argument.source, Argument.tokens_mapTokens, print_bare] at this
      exact this.trans (source_lazyArgument _)
    · refine respaced.content_eq others' (fun q hq t ht => ?_) fun q hq => within q (.tail _ hq)
      exact placed.tidy t <| Annotation.mem_tokens_of_argument (List.mem_filter.1 hq).1 ht

/-- **Syntheses succeed where they can** — whatever the imports planned in a run over a parsed file
and whatever annotation the run comes to: if the first part of the persistence package is no type in
the file, the synthesis for an association fails just if an argument without a name is kept, and what
it gives otherwise substitutes for the annotation. -/
theorem synthesis_exact {source : String} {file : Option String}
    (parsed : (parseUnit source file).toExcept = .ok u)
    (apart : (u.bareScope (.persistence n)).resolveSimple n.text = none)
    {plan : ImportPlan} {a : Annotation} {k : Association}
    (planned : plan ∈ plans (attempt (.ofUnit u (.persistence n)) (.ofNamespace n)) u)
    (attempted : a ∈ (attempts (attempt (.ofUnit u (.persistence n)) (.ofNamespace n)) u).map Prod.snd)
    (matched : associationOf? (planScope n u plan) (.ofNamespace n) a = some k) :
    ((∃ failure, synthesizeFor (.ofUnit u (.persistence n)) (.ofNamespace n) plan k a =
        .error failure) ↔
      ∃ p ∈ keptArguments (planScope n u plan) (.ofNamespace n) k a, p.name? = none) ∧
    ∀ r, synthesizeFor (.ofUnit u (.persistence n)) (.ofNamespace n) plan k a = .ok r →
      Substitutes (planScope n u plan) (planScope n u r.plan) (.ofNamespace n) k a
        r.replacement := by
  have reached := (attempts_sound parsed).1 plan planned
  have placed := (attempts_sound parsed).2 a attempted
  obtain ⟨m, f, tail, hm, fits, legible⟩ := placed.fits
  refine ⟨⟨?_, ?_⟩, fun r h => substitutes_of_synthesizeFor placed reached apart h⟩
  · rintro ⟨failure, failed⟩
    -- with names for all of them, the synthesis would have succeeded
    refine Classical.byContradiction fun named => ?_
    obtain ⟨r, ok⟩ := exists_synthesizeFor reached apart matched hm fits legible fun p hp =>
      p.isSome_label.2 fun unnamed => named ⟨p, hp, unnamed⟩
    rw [ok] at failed
    cases failed
  · rintro ⟨p, hp, unnamed⟩
    cases h : synthesizeFor (.ofUnit u (.persistence n)) (.ofNamespace n) plan k a with
    | error failure => exact ⟨failure, rfl⟩
    | ok r =>
      exact absurd unnamed (p.isSome_label.1 ((renewed_of_synthesizeFor hm fits legible h).1 p hp))

/-- An eager association, of which the other argument is kept. -/
theorem synthesis_exact_eager :
    let source := "import jakarta.persistence.*; " ++
      "class A \x7b @OneToOne(c=1 /* d */, fetch=FetchType.EAGER) B b; \x7d"
    ∃ (u : CompilationUnit) (plan : ImportPlan) (a : Annotation), (parseUnit source).toExcept = .ok u ∧
      associationOf? (planScope .jakarta u plan) (.ofNamespace .jakarta) a = some .oneToOne ∧
      ((∃ failure, synthesizeFor (.ofUnit u (.persistence .jakarta)) (.ofNamespace .jakarta) plan
          .oneToOne a = .error failure) ↔
        ∃ p ∈ keptArguments (planScope .jakarta u plan) (.ofNamespace .jakarta) .oneToOne a,
          p.name? = none) ∧
      ∀ r, synthesizeFor (.ofUnit u (.persistence .jakarta)) (.ofNamespace .jakarta) plan
          .oneToOne a = .ok r →
        Substitutes (planScope .jakarta u plan) (planScope .jakarta u r.plan)
          (.ofNamespace .jakarta) .oneToOne a r.replacement := by
  intro source
  have run : (parseUnit source).toExcept.toOption.map (fun u =>
      ((u.bareScope (.persistence .jakarta)).resolveSimple (Namespace.text .jakarta),
        (attempts (attempt (.ofUnit u (.persistence .jakarta)) (.ofNamespace .jakarta)) u).map fun entry =>
          associationOf? (planScope .jakarta u entry.1) (.ofNamespace .jakarta) entry.2)) =
      some (none, [some .oneToOne]) := by decide +kernel
  obtain ⟨u, parsed, found⟩ := exists_of_toOption_map run
  obtain ⟨apart, matched⟩ := Prod.mk.inj found
  obtain ⟨⟨plan, a⟩, others, attempted, matched, -⟩ := List.map_eq_cons_iff.1 matched
  have mem : (plan, a) ∈ attempts (attempt (.ofUnit u (.persistence .jakarta))
      (.ofNamespace .jakarta)) u := by
    rw [attempted]
    exact .head _
  exact ⟨u, plan, a, parsed, matched, synthesis_exact parsed apart
    (List.mem_append_left _ (List.mem_map_of_mem mem)) (List.mem_map_of_mem mem) matched⟩

end DeferFetch
