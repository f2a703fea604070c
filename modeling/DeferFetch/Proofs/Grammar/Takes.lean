/-
# DeferFetch.Proofs.Grammar.Takes — runs of a parser that report nothing.

A parse without errors is a run that neither fails nor adds a diagnostic. Such a run splits along the
parser (`takes_bind`): of a sequence each part runs so, and of a repetition each round. A parser is
`Loud` if it never fails in silence; after a loud parser, what was skipped has been reported.
-/
import DeferFetch.Parser.Unit

namespace DeferFetch

/-- The kinds of some tokens. -/
def kinds (ts : List Token) : List TokenKind := ts.map Token.kind

@[simp] theorem kinds_nil : kinds [] = [] := rfl

@[simp] theorem kinds_cons (t : Token) (ts : List Token) : kinds (t :: ts) = t.kind :: kinds ts := rfl

@[simp] theorem kinds_append (ts us : List Token) : kinds (ts ++ us) = kinds ts ++ kinds us :=
  List.map_append

/-- The token stands for a lexical error. -/
def TokenKind.isError : TokenKind → Bool
  | .error _ _ => true
  | _ => false

/-- Just the tokens that stand for lexical errors are reported. -/
theorem Token.diagnostic?_eq_none {t : Token} : t.diagnostic? = none ↔ t.kind.isError = false := by
  unfold Token.diagnostic? TokenKind.isError
  split <;> simp_all

namespace ParserState

/-- **`s.on rest`** — the state after reading, without a report, until `rest` is left. -/
def on (s : ParserState) (rest : List Token) : ParserState :=
  { s with rest, position := s.position + (s.rest.length - rest.length) }

@[simp] theorem on_rest (s : ParserState) (rest : List Token) : (s.on rest).rest = rest := rfl

@[simp] theorem on_self (s : ParserState) : s.on s.rest = s := by simp [on]

/-- Reading on from an intermediate state. -/
theorem on_on {s : ParserState} {mid rest : List Token} (h₁ : mid.length ≤ s.rest.length)
    (h₂ : rest.length ≤ mid.length) : (s.on mid).on rest = s.on rest := by
  simp only [on, mk.injEq, true_and, and_true]
  omega

end ParserState

/-- A state that follows another without a new diagnostic is determined by what is left to read. -/
theorem Follows.eq_on {s t : ParserState} (h : Follows s t) (clean : t.diagnostics = s.diagnostics) :
    t = s.on t.rest := by
  have hp := h.position_add_length
  have hl := h.length_le
  obtain ⟨rest, position, diagnostics⟩ := t
  simp only [ParserState.on, ParserState.mk.injEq, true_and] at *
  exact ⟨by omega, clean⟩

/-- Where nothing is reported in the end, nothing was reported in between. -/
theorem Follows.clean {s t u : ParserState} (h₁ : Follows s t) (h₂ : Follows t u)
    (clean : u.diagnostics = s.diagnostics) :
    t.diagnostics = s.diagnostics ∧ u.diagnostics = t.diagnostics := by
  have h : t.diagnostics = s.diagnostics :=
    (h₁.kept.eq_of_length_le (by rw [← clean]; exact h₂.kept.length_le)).symm
  exact ⟨h, clean.trans h.symm⟩

namespace Parser

variable {α β σ : Type} {s : ParserState} {rest : List Token}

/-! ## Runs that give a result -/

/-- A sequence gives a result if its parts do, one after the other. -/
theorem run_bind_eq_some {p : Parser α} {next : α → Parser β} {b : β} {u : ParserState} :
    (p >>= next).run s = (some b, u) ↔
      ∃ a t, p.run s = (some a, t) ∧ (next a).run t = (some b, u) := by
  constructor
  · intro run
    rw [run_bind] at run
    split at run
    · exact ⟨_, _, ‹_›, run⟩
    · cases run
  · rintro ⟨a, t, first, second⟩
    rw [run_bind, first]
    exact second

/-- A repetition gives a result if its first round stops, or goes on past a token and the others give
one. -/
theorem run_rounds_eq_some {round : σ → Parser (Step α β σ)} {x : σ} {result : List α × β}
    {u : ParserState} :
    (rounds round x).run s = (some result, u) ↔
      (∃ b, result = ([], b) ∧ (round x).run s = (some (.stop b), u)) ∨
      (∃ item next t items b, result = (item.toList ++ items, b) ∧
        (round x).run s = (some (.again item next), t) ∧ s.position < t.position ∧
        (rounds round next).run t = (some (items, b), u)) := by
  change runRounds round x s = _ ↔ _
  constructor
  · intro run
    rw [runRounds] at run
    split at run
    · cases run
    · cases run
      exact .inl ⟨_, rfl, ‹_›⟩
    · rename_i item next t first
      split at run
      · rename_i progress
        rcases others : runRounds round next t with ⟨_ | ⟨items, b⟩, v⟩
        · simp [others] at run
        · simp only [others, Option.map_some] at run
          cases run
          exact .inr ⟨item, next, t, items, b, rfl, first, progress, others⟩
      · cases run
  · rintro (⟨b, rfl, first⟩ | ⟨item, next, t, items, b, rfl, first, progress, others⟩)
    · rw [runRounds]
      split <;> simp_all
    · change runRounds round next t = _ at others
      rw [runRounds]
      split <;> simp_all

/-! ## Runs without a report -/

/-- **`p.Takes s a rest`** — from the state `s`, the parser gives `a`, reports nothing and leaves
`rest`. -/
def Takes (p : Parser α) (s : ParserState) (a : α) (rest : List Token) : Prop :=
  p.run s = (some a, s.on rest)

/-- A run that gives a result and reports nothing. -/
theorem takes_of_run {p : Parser α} {a : α} {t : ParserState} (h : p.run s = (some a, t))
    (clean : t.diagnostics = s.diagnostics) : p.Takes s a t.rest := by
  have follows := p.follows s
  rw [h] at follows
  rw [Takes, h, ← follows.eq_on clean]

/-- What is left is never longer. -/
theorem Takes.length_le {p : Parser α} {a : α} (h : p.Takes s a rest) :
    rest.length ≤ s.rest.length := by
  have := (p.follows s).length_le
  rwa [h] at this

/-- A parser that takes something has one result. -/
theorem Takes.unique {p : Parser α} {a b : α} {rest' : List Token} (h : p.Takes s a rest)
    (h' : p.Takes s b rest') : a = b ∧ rest = rest' := by
  have := h.symm.trans h'
  simp only [Prod.mk.injEq, Option.some.injEq] at this
  exact ⟨this.1, congrArg ParserState.rest this.2⟩

/-- Of two runs, one after the other, that report nothing together, none reports anything. -/
theorem takes_of_runs {p : Parser α} {q : Parser β} {a : α} {b : β} {t : ParserState}
    (hp : p.run s = (some a, t)) (hq : q.run t = (some b, s.on rest)) :
    p.Takes s a t.rest ∧ q.Takes (s.on t.rest) b rest := by
  have follows := p.follows s
  rw [hp] at follows
  have follows' := q.follows t
  rw [hq] at follows'
  obtain ⟨clean, -⟩ := follows.clean follows' rfl
  have first := takes_of_run hp clean
  have back : (s.on t.rest).on rest = s.on rest :=
    ParserState.on_on first.length_le follows'.length_le
  have mid : t = s.on t.rest := follows.eq_on clean
  refine ⟨first, ?_⟩
  rw [Takes, back, ← mid]
  exact hq

/-- And the other way round. -/
theorem Takes.run_after {q : Parser β} {b : β} {mid : List Token} (h : q.Takes (s.on mid) b rest)
    (shorter : mid.length ≤ s.rest.length) : q.run (s.on mid) = (some b, s.on rest) := by
  rw [← ParserState.on_on shorter h.length_le]
  exact h

@[simp] theorem takes_pure {a b : α} : (pure a : Parser α).Takes s b rest ↔ b = a ∧ rest = s.rest := by
  constructor
  · intro h
    simp only [Takes, run_pure, Prod.mk.injEq, Option.some.injEq] at h
    exact ⟨h.1.symm, by rw [h.2, ParserState.on_rest]⟩
  · rintro ⟨rfl, rfl⟩
    rw [Takes, run_pure, ParserState.on_self]

/-- One parser after the other. -/
@[simp] theorem takes_bind {p : Parser α} {next : α → Parser β} {b : β} :
    (p >>= next).Takes s b rest ↔
      ∃ a mid, p.Takes s a mid ∧ (next a).Takes (s.on mid) b rest := by
  constructor
  · intro h
    obtain ⟨a, t, hp, hn⟩ := run_bind_eq_some.1 h
    exact ⟨a, t.rest, takes_of_runs hp hn⟩
  · rintro ⟨a, mid, hp, hn⟩
    exact run_bind_eq_some.2 ⟨a, _, hp, hn.run_after hp.length_le⟩

/-- Looking ahead reads nothing. -/
@[simp] theorem takes_ahead {ks : List TokenKind} :
    ahead.Takes s ks rest ↔ ks = (kinds s.rest).take 3 ∧ rest = s.rest := by
  constructor
  · intro h
    simp only [Takes, ahead, Prod.mk.injEq, Option.some.injEq] at h
    exact ⟨by rw [← h.1, List.map_take, kinds], (congrArg ParserState.rest h.2).symm⟩
  · rintro ⟨rfl, rfl⟩
    simp [Takes, ahead, List.map_take, kinds]

@[simp] theorem takes_peek {t? : Option Token} :
    peek.Takes s t? rest ↔ t? = s.rest.head? ∧ rest = s.rest := by
  constructor
  · intro h
    simp only [Takes, peek, Prod.mk.injEq, Option.some.injEq] at h
    exact ⟨h.1.symm, (congrArg ParserState.rest h.2).symm⟩
  · rintro ⟨rfl, rfl⟩
    simp [Takes, peek]

/-- Looking at the kinds of the tokens ahead, and then going on. -/
theorem takes_ahead_bind {next : List TokenKind → Parser β} {b : β} :
    (ahead >>= next).Takes s b rest ↔ (next ((kinds s.rest).take 3)).Takes s b rest := by
  simp [and_assoc]

/-- A report is a report. -/
@[simp] theorem not_takes_report {e : SyntaxError} {u : Unit} : ¬ (report e).Takes s u rest := by
  intro h
  have := congrArg (fun r => r.2.diagnostics.length) h
  simp [report, ParserState.report, ParserState.on] at this

/-- A failure gives no result. -/
@[simp] theorem not_takes_fail {e : SyntaxError} {a : α} : ¬ (fail e).Takes s a rest := nofun

@[simp] theorem not_takes_unexpected {e : Expectation} {a : α} :
    ¬ (unexpected e).Takes s a rest := nofun

/-- One token, which must not stand for a lexical error. -/
@[simp] theorem takes_token {t : Token} :
    token.Takes s t rest ↔ s.rest = t :: rest ∧ t.kind.isError = false := by
  rcases s with ⟨_ | ⟨u, us⟩, position, diagnostics⟩
  · simp [Takes, token]
  · simp only [Takes, token, ParserState.consume, ParserState.on, Prod.mk.injEq,
      Option.some.injEq, ParserState.mk.injEq, List.take_succ_cons, List.take_zero, List.drop_succ_cons,
      List.drop_zero, List.filterMap_cons, List.filterMap_nil, List.cons.injEq]
    constructor
    · rintro ⟨rfl, rfl, -, h⟩
      refine ⟨⟨rfl, rfl⟩, Token.diagnostic?_eq_none.1 ?_⟩
      cases hd : u.diagnostic? with
      | none => rfl
      | some d => simp [hd] at h
    · rintro ⟨⟨rfl, rfl⟩, h⟩
      simp [Token.diagnostic?_eq_none.2 h]

/-- Either of two parsers. -/
@[simp] theorem takes_ite {c : Prop} [Decidable c] {p q : Parser α} {a : α} :
    (if c then p else q).Takes s a rest ↔ (c ∧ p.Takes s a rest) ∨ (¬ c ∧ q.Takes s a rest) := by
  by_cases h : c <;> simp [h]

/-- A token of a fitting kind. -/
@[simp] theorem takes_expect {fits : TokenKind → Bool} {expected : Expectation} {t : Token} :
    (expect fits expected).Takes s t rest ↔
      s.rest = t :: rest ∧ fits t.kind = true ∧ t.kind.isError = false := by
  rw [expect, takes_ahead_bind, takes_ite, takes_token]
  cases h : s.rest with
  | nil => simp
  | cons u us =>
    simp only [not_takes_unexpected, and_false, or_false, kinds_cons, List.take_succ_cons,
      List.head?_cons, Option.any_some, List.cons.injEq]
    constructor
    · rintro ⟨hf, ⟨rfl, rfl⟩, he⟩
      exact ⟨⟨rfl, rfl⟩, hf, he⟩
    · rintro ⟨⟨rfl, rfl⟩, hf, he⟩
      exact ⟨hf, ⟨rfl, rfl⟩, he⟩

/-! ## Loud parsers -/

/-- **`p.Loud`** — the parser reports something whenever it fails. -/
def Loud (p : Parser α) : Prop :=
  ∀ s t, p.run s = (none, t) → s.diagnostics.length < t.diagnostics.length

namespace Loud

protected theorem pure (a : α) : Loud (pure a : Parser α) := nofun

protected theorem ahead : Loud ahead := nofun

protected theorem peek : Loud peek := nofun

protected theorem report (e : SyntaxError) : Loud (report e) := nofun

protected theorem fail (e : SyntaxError) : Loud (fail e : Parser α) := by
  rintro s t ⟨⟩
  simp [ParserState.report]

protected theorem unexpected (e : Expectation) : Loud (unexpected e : Parser α) := .fail _

protected theorem token : Loud token := by
  rintro ⟨_ | ⟨u, us⟩, position, diagnostics⟩ t h
  · cases h
    simp [ParserState.report]
  · cases h

protected theorem orSkip (p : Parser α) (count : List Token → Nat) : Loud (p.orSkip count) := by
  intro s t h
  simp only [orSkip] at h
  split at h <;> cases h

protected theorem bind {p : Parser α} {next : α → Parser β} (hp : Loud p)
    (hn : ∀ a, Loud (next a)) : Loud (p >>= next) := by
  intro s t h
  rw [run_bind] at h
  split at h
  · rename_i a u hu
    have kept := (p.follows s).kept.length_le
    rw [hu] at kept
    exact Nat.lt_of_le_of_lt kept (hn a u t h)
  · rename_i u hu
    cases h
    exact hp s t hu

protected theorem ite {c : Prop} [Decidable c] {p q : Parser α} (hp : c → Loud p)
    (hq : ¬ c → Loud q) : Loud (if c then p else q) := by
  by_cases h : c
  · simpa only [h, if_true] using hp h
  · simpa only [h, if_false] using hq h

protected theorem expect (fits : TokenKind → Bool) (expected : Expectation) :
    Loud (expect fits expected) :=
  .bind .ahead fun _ => .ite (fun _ => .token) fun _ => .unexpected _

/-- Failing in silence means reporting nothing. -/
theorem not_silent {p : Parser α} (hp : Loud p) {t : ParserState} (h : p.run s = (none, t)) :
    t.diagnostics ≠ s.diagnostics := by
  intro clean
  have := hp s t h
  rw [clean] at this
  exact Nat.lt_irrefl _ this

end Loud

/-- A loud parser that may be skipped has not been skipped if nothing was reported. -/
theorem takes_orSkip {p : Parser α} (hp : Loud p) {count : List Token → Nat} {a? : Option α} :
    (p.orSkip count).Takes s a? rest ↔ ∃ a, a? = some a ∧ p.Takes s a rest := by
  constructor
  · intro h
    simp only [Takes, orSkip] at h
    split at h
    · rename_i a t ht
      simp only [Prod.mk.injEq, Option.some.injEq] at h
      obtain ⟨rfl, rfl⟩ := h
      exact ⟨a, rfl, ht⟩
    · rename_i t ht
      simp only [Prod.mk.injEq] at h
      have follows := p.follows s
      rw [ht] at follows
      have clean := follows.clean (.consume t (count t.rest)) (by rw [h.2]; rfl)
      exact absurd clean.1 (hp.not_silent ht)
  · rintro ⟨a, rfl, h⟩
    simp only [Takes] at h ⊢
    simp only [orSkip, h]

/-! ## Repetitions -/

/-- **`Steady round`** — a round that goes on without a report has read a token and found an
item. -/
def Steady (round : σ → Parser (Step α β σ)) : Prop :=
  ∀ a s item next rest, (round a).Takes s (.again item next) rest →
    item.isSome ∧ rest.length < s.rest.length

variable {round : σ → Parser (Step α β σ)} {a : σ} {b : β}

/-- A repetition, unfolded once. -/
theorem takes_rounds {result : List α × β} :
    (rounds round a).Takes s result rest ↔
      (∃ b, result = ([], b) ∧ (round a).Takes s (.stop b) rest) ∨
      (∃ item next mid items b, result = (item.toList ++ items, b) ∧
        (round a).Takes s (.again item next) mid ∧ mid.length < s.rest.length ∧
        (rounds round next).Takes (s.on mid) (items, b) rest) := by
  constructor
  · intro h
    obtain ⟨b, rfl, hr⟩ | ⟨item, next, t, items, b, rfl, hr, progress, hrs⟩ :=
      run_rounds_eq_some.1 h
    · exact .inl ⟨b, rfl, hr⟩
    · have follows := (round a).follows s
      rw [hr] at follows
      obtain ⟨first, others⟩ := takes_of_runs hr hrs
      exact .inr ⟨item, next, t.rest, items, b, rfl, first, follows.length_lt progress, others⟩
  · rintro (⟨b, rfl, hr⟩ | ⟨item, next, mid, items, b, rfl, hr, shorter, hrs⟩)
    · exact run_rounds_eq_some.2 (.inl ⟨b, rfl, hr⟩)
    · -- what is left has become shorter by what was read
      have progress : s.position < (s.on mid).position := by
        simp only [ParserState.on]
        omega
      exact run_rounds_eq_some.2 (.inr ⟨item, next, s.on mid, items, b, rfl, hr, progress,
        hrs.run_after hr.length_le⟩)

/-- A repetition without items. -/
theorem takes_rounds_nil (steady : Steady round) :
    (rounds round a).Takes s ([], b) rest ↔ (round a).Takes s (.stop b) rest := by
  rw [takes_rounds]
  constructor
  · rintro (⟨b, h, hr⟩ | ⟨item, next, mid, items, b', h, hr, -, -⟩)
    · cases h
      exact hr
    · obtain ⟨hi, -⟩ := steady _ _ _ _ _ hr
      cases item with
      | none => cases hi
      | some x => cases h
  · exact fun h => .inl ⟨b, rfl, h⟩

/-- A repetition with a first item. -/
theorem takes_rounds_cons (steady : Steady round) {x : α} {xs : List α} :
    (rounds round a).Takes s (x :: xs, b) rest ↔
      ∃ next mid, (round a).Takes s (.again (some x) next) mid ∧
        (rounds round next).Takes (s.on mid) (xs, b) rest := by
  rw [takes_rounds]
  constructor
  · rintro (⟨b, h, hr⟩ | ⟨item, next, mid, items, b', h, hr, -, hrs⟩)
    · cases h
    · obtain ⟨hi, -⟩ := steady _ _ _ _ _ hr
      cases item with
      | none => cases hi
      | some y =>
        cases h
        exact ⟨next, mid, hr, hrs⟩
  · rintro ⟨next, mid, hr, hrs⟩
    exact .inr ⟨some x, next, mid, xs, b, rfl, hr, (steady _ _ _ _ _ hr).2, hrs⟩

/-- A repetition of loud rounds is loud. -/
theorem Loud.rounds (loud : ∀ a, Loud (round a)) (steady : Steady round) :
    Loud (rounds round a) := by
  intro s
  show ∀ t, runRounds round a s = (none, t) → _
  fun_induction runRounds round a s with
  | case1 a s t h =>
    rintro u ⟨⟩
    exact loud a s t h
  | case2 => exact nofun
  | case3 a s item next t h progress _ _ result u hu ih =>
    intro v hv
    have kept := ((round a).follows s).kept.length_le
    rw [h] at kept
    cases result with
    | none =>
      cases hv
      exact Nat.lt_of_le_of_lt kept (ih u hu)
    | some r => cases hv
  | case4 a s item next t h stuck =>
    rintro u ⟨⟩
    have follows := (round a).follows s
    rw [h] at follows
    -- a round that reports nothing has read something
    refine Nat.lt_of_le_of_ne follows.kept.length_le fun hlen => ?_
    have clean := (follows.kept.eq_of_length hlen).symm
    have hr := takes_of_run h clean
    have hp := follows.position_add_length
    have := (steady _ _ _ _ _ hr).2
    exact stuck (by simp only at hp; omega)

/-! ## What parsers read -/

/-- **`p.Reads tokens fits`** — without a report, the parser reads just the tokens of those results
that fit before what is left. -/
def Reads (p : Parser α) (tokens : α → List Token) (fits : α → List TokenKind → Prop) : Prop :=
  ∀ s a rest, p.Takes s a rest ↔ s.rest = tokens a ++ rest ∧ fits a (kinds rest)

/-- **`p.Exact tokens fits`** — the parser reads just that, and whatever else happens is reported. -/
structure Exact (p : Parser α) (tokens : α → List Token) (fits : α → List TokenKind → Prop) :
    Prop where
  reads : p.Reads tokens fits
  loud : p.Loud

/-- **`RoundReads round tokens fits next last ends`** — a round that goes on, from `x`, has read an
item that fits and goes on from `next x item`; one that stops with `b` has read `last b`. -/
def RoundReads (round : σ → Parser (Step α β σ)) (tokens : α → List Token)
    (fits : σ → α → List TokenKind → Prop) (next : σ → α → σ) (last : β → List Token)
    (ends : σ → β → List TokenKind → Prop) : Prop :=
  ∀ x s rest,
    (∀ item y, (round x).Takes s (.again item y) rest ↔
      ∃ a, item = some a ∧ y = next x a ∧ s.rest = tokens a ++ rest ∧ fits x a (kinds rest)) ∧
    (∀ b, (round x).Takes s (.stop b) rest ↔ s.rest = last b ++ rest ∧ ends x b (kinds rest))

/-- **`chain tokens fits next x items f`** — each of the items fits before the ones after it and
`f`. -/
def chain (tokens : α → List Token) (fits : σ → α → List TokenKind → Prop) (next : σ → α → σ) :
    σ → List α → List TokenKind → Prop
  | _, [], _ => True
  | x, a :: as, f =>
    fits x a (kinds (as.flatMap tokens) ++ f) ∧ chain tokens fits next (next x a) as f

/-- Where the condition on an item depends on nothing else, it holds of each of them. -/
theorem chain_const {tokens : α → List Token} {good : α → Prop} {next : σ → α → σ} {x : σ}
    {as : List α} {f : List TokenKind} :
    chain tokens (fun _ a _ => good a) next x as f ↔ ∀ a ∈ as, good a := by
  induction as generalizing x with
  | nil => simp [chain]
  | cons a as ih => simp [chain, ih]

namespace RoundReads

variable {tokens : α → List Token} {fits : σ → α → List TokenKind → Prop} {next : σ → α → σ}
  {last : β → List Token} {ends : σ → β → List TokenKind → Prop}

/-- Rounds that read something are steady. -/
theorem steady (h : RoundReads round tokens fits next last ends)
    (nonempty : ∀ x a f, fits x a f → tokens a ≠ []) :
    Steady round := by
  intro x s item y rest hr
  obtain ⟨a, rfl, -, hs, hf⟩ := ((h x s rest).1 item y).1 hr
  refine ⟨rfl, ?_⟩
  have := List.length_pos_iff.2 (nonempty x a _ hf)
  rw [hs, List.length_append]
  omega

/-- **Repetitions** — the items and what the last round read, one after the other. -/
theorem takes_rounds (h : RoundReads round tokens fits next last ends)
    (nonempty : ∀ x a f, fits x a f → tokens a ≠ []) {x : σ} {items : List α} {b : β} :
    (rounds round x).Takes s (items, b) rest ↔
      s.rest = items.flatMap tokens ++ (last b ++ rest) ∧
        chain tokens fits next x items (kinds (last b ++ rest)) ∧
        ends (items.foldl next x) b (kinds rest) := by
  have steady := h.steady nonempty
  induction items generalizing x s with
  | nil =>
    rw [takes_rounds_nil steady, (h x s rest).2]
    simp [chain]
  | cons a as ih =>
    rw [takes_rounds_cons steady]
    constructor
    · rintro ⟨y, mid, hr, hrs⟩
      obtain ⟨a', ha, rfl, hs, hf⟩ := ((h x s mid).1 _ _).1 hr
      cases ha
      obtain ⟨hmid, hc, he⟩ := ih.1 hrs
      rw [ParserState.on_rest] at hmid
      subst hmid
      refine ⟨by rw [hs, List.flatMap_cons, List.append_assoc], ⟨?_, hc⟩, he⟩
      rwa [kinds_append] at hf
    · rintro ⟨hs, ⟨hf, hc⟩, he⟩
      refine ⟨next x a, as.flatMap tokens ++ (last b ++ rest), ?_, ih.2 ⟨rfl, hc, he⟩⟩
      refine ((h x s _).1 _ _).2 ⟨a, rfl, rfl, ?_, ?_⟩
      · rw [hs, List.flatMap_cons, List.append_assoc]
      · rwa [kinds_append]

end RoundReads

end Parser

/-! ## Three kinds ahead are enough -/

section Ahead

variable (ks : List TokenKind)

@[simp] theorem head?_take_three : (ks.take 3).head? = ks.head? := by cases ks <;> rfl

@[simp] theorem atEnd_take : atEnd (ks.take 3) = atEnd ks := by cases ks <;> rfl

@[simp] theorem atOpening_take : atOpening (ks.take 3) = atOpening ks := by cases ks <;> rfl

@[simp] theorem atClosing_take : atClosing (ks.take 3) = atClosing ks := by cases ks <;> rfl

@[simp] theorem atKind_take (k : TokenKind) : atKind k (ks.take 3) = atKind k ks := by
  cases ks <;> rfl

@[simp] theorem atAnnotation_take : atAnnotation (ks.take 3) = atAnnotation ks := by
  match ks with
  | [] | [_] => rfl
  | k :: l :: ks => cases k <;> first | rfl | (cases l <;> rfl)

@[simp] theorem atTypeWord_take : atTypeWord (ks.take 3) = atTypeWord ks := by
  match ks with
  | [] | [_] | [_, _] => rfl
  | k :: l :: m :: ks => cases k <;> first | rfl | (cases l <;> rfl)

@[simp] theorem atSealed_take : atSealed (ks.take 3) = atSealed ks := by
  match ks with
  | [] | [_] => rfl
  | k :: l :: ks => cases k <;> rfl

@[simp] theorem atNonSealed_take : atNonSealed (ks.take 3) = atNonSealed ks := by
  match ks with
  | [] | [_] | [_, _] => rfl
  | k :: l :: m :: ks => cases k <;> first | rfl | (cases l <;> first | rfl | (cases m <;> rfl))

@[simp] theorem atWildcard_take : atWildcard (ks.take 3) = atWildcard ks := by
  match ks with
  | [] | [_] => rfl
  | k :: l :: ks => cases k <;> first | rfl | (cases l <;> rfl)

@[simp] theorem atSegment_take : atSegment (ks.take 3) = atSegment ks := by
  match ks with
  | [] | [_] => rfl
  | k :: l :: ks => cases k <;> first | rfl | (cases l <;> rfl)

@[simp] theorem atLabel_take : atLabel (ks.take 3) = atLabel ks := by
  match ks with
  | [] | [_] => rfl
  | k :: l :: ks => cases k <;> first | rfl | (cases l <;> rfl)

end Ahead

end DeferFetch
