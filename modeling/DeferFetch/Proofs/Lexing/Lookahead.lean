/-
# DeferFetch.Proofs.Lexing.Lookahead — a stream of tokens as the list of those that are left.

What a stream answers depends on nothing but the tokens that are left, wherever they are: it is what
that list would answer (`Lookahead.answers_eq`). Looking ahead leaves the list as it is and consuming
takes its first token away, so the tokens come out in order, none is lost and none is made up
(`Lookahead.refines_list`). A parser therefore decides on what the stream shows
(`Parser.run_ahead_of_over`).
-/
import DeferFetch.Token.Lookahead
import DeferFetch.Parser.Basic
import DeferFetch.Parser.Lookahead

namespace DeferFetch

namespace Lookahead

/-! ## Drawing tokens -/

/-- The first `n` of the remaining tokens are in the buffer after filling it up to `n`. -/
theorem getElem?_buffer_fill (s : Lookahead) {i n : Nat} (h : i < n) :
    (s.fill n).buffer[i]? = s.remaining[i]? := by
  rw [fill, remaining, List.getElem?_append, List.getElem?_append, List.getElem?_take]
  split
  · rfl
  · rw [if_pos (by omega)]

/-! ## Calls -/

/-- **`Call`** — what can be asked of a stream. -/
inductive Call where
  | peek
  | peekNth (n : Nat)
  | peekKindNth (n : Nat)
  | isAtEnd
  | consume
deriving DecidableEq, Repr

/-- **`Answer`** — what comes back: a token, its kind, or yes or no. -/
inductive Answer where
  | token (token : Option Token)
  | kind (kind : Option TokenKind)
  | flag (flag : Bool)
deriving DecidableEq, Repr

/-- **`s.call c`** — the answer to a call, and the stream after it. -/
def call (s : Lookahead) : Call → Answer × Lookahead
  | .peek => s.peek.map .token id
  | .peekNth n => (s.peekNth n).map .token id
  | .peekKindNth n => (s.peekKindNth n).map .kind id
  | .isAtEnd => s.isAtEnd.map .flag id
  | .consume => s.consume.map .token id

/-- The stream after some calls. -/
def after (s : Lookahead) (calls : List Call) : Lookahead := calls.foldl (fun s c => (s.call c).2) s

/-- The answers to some calls, one after another. -/
def answers (s : Lookahead) : List Call → List Answer
  | [] => []
  | c :: calls => (s.call c).1 :: (s.call c).2.answers calls

/-- **`s.taken calls`** — what those of the calls gave that take a token out of the stream. -/
def taken (s : Lookahead) : List Call → List (Option Token)
  | [] => []
  | c :: calls =>
    let later := (s.call c).2.taken calls
    if c = .consume then s.consume.1 :: later else later

/-! ## The same calls on a list -/

/-- The answer that a list of tokens gives to a call. -/
def Call.answerOn (ts : List Token) : Call → Answer
  | .peek => .token ts.head?
  | .peekNth n => .token ts[n]?
  | .peekKindNth n => .kind (ts[n]?.map Token.kind)
  | .isAtEnd => .flag (atEnd (ts.map Token.kind))
  | .consume => .token ts.head?

/-- What a call leaves of a list of tokens. -/
def Call.leaves (c : Call) (ts : List Token) : List Token := if c = .consume then ts.tail else ts

/-- The answers that a list of tokens gives to some calls, one after another. -/
def answersOn (ts : List Token) : List Call → List Answer
  | [] => []
  | c :: calls => c.answerOn ts :: answersOn (c.leaves ts) calls

/-! ## One call -/

theorem peekNth_eq (s : Lookahead) (n : Nat) : (s.peekNth n).1 = s.remaining[n]? :=
  s.getElem?_buffer_fill (Nat.lt_succ_self n)

theorem peek_eq (s : Lookahead) : s.peek.1 = s.remaining.head? := by
  rw [peek, peekNth_eq, List.head?_eq_getElem?]

theorem peekKindNth_eq (s : Lookahead) (n : Nat) :
    (s.peekKindNth n).1 = s.remaining[n]?.map Token.kind :=
  congrArg (Option.map Token.kind) (s.peekNth_eq n)

theorem isAtEnd_eq (s : Lookahead) : s.isAtEnd.1 = atEnd (s.remaining.map Token.kind) := by
  show s.peek.1.all (·.kind = .eof) = _
  rw [peek_eq]
  cases s.remaining <;> rfl

theorem consume_eq (s : Lookahead) : s.consume.1 = s.remaining.head? := by
  show (s.fill 1).buffer.head? = _
  rw [List.head?_eq_getElem?, List.head?_eq_getElem?, getElem?_buffer_fill s Nat.zero_lt_one]

/-- Filling the buffer for one token leaves it empty only if no token is left. -/
theorem remaining_consume (s : Lookahead) : s.consume.2.remaining = s.remaining.tail := by
  obtain ⟨_ | ⟨t, buffer⟩, source⟩ := s
  · cases source <;> rfl
  · simp [consume, fill, remaining]

/-- A stream answers a call as the list of the tokens that are left does. -/
theorem call_eq (s : Lookahead) (c : Call) : (s.call c).1 = c.answerOn s.remaining := by
  cases c with
  | peek => exact congrArg Answer.token s.peek_eq
  | peekNth n => exact congrArg Answer.token (s.peekNth_eq n)
  | peekKindNth n => exact congrArg Answer.kind (s.peekKindNth_eq n)
  | isAtEnd => exact congrArg Answer.flag s.isAtEnd_eq
  | consume => exact congrArg Answer.token s.consume_eq

/-- Of the tokens that are left, a call takes the first one or none. -/
theorem remaining_call (s : Lookahead) (c : Call) :
    (s.call c).2.remaining = c.leaves s.remaining := by
  cases c with
  | consume => exact s.remaining_consume
  | _ => exact s.remaining_fill _

/-! ## A series of calls -/

theorem after_cons (s : Lookahead) (c : Call) (calls : List Call) :
    s.after (c :: calls) = (s.call c).2.after calls := rfl

/-- The calls that take a token out are what counts for the tokens that are left. -/
theorem remaining_after (s : Lookahead) (calls : List Call) :
    (s.after calls).remaining = s.remaining.drop (calls.count .consume) := by
  induction calls generalizing s with
  | nil => rfl
  | cons c calls ih =>
    rw [after_cons, ih, remaining_call, Call.leaves, List.count_cons]
    by_cases h : c = .consume <;> simp [h, List.drop_tail]

/-- A stream answers a series of calls as the list of the tokens that are left does. -/
theorem answers_eq (s : Lookahead) (calls : List Call) :
    s.answers calls = answersOn s.remaining calls := by
  induction calls generalizing s with
  | nil => rfl
  | cons c calls ih => rw [answers, answersOn, ih, call_eq, remaining_call]

/-- The tokens come out one by one in order, and after the last one none comes out any more. -/
theorem taken_eq (s : Lookahead) (calls : List Call) :
    s.taken calls = (List.range (calls.count .consume)).map (s.remaining[·]?) := by
  induction calls generalizing s with
  | nil => rfl
  | cons c calls ih =>
    rw [taken, ih, remaining_call, Call.leaves]
    by_cases h : c = .consume
    · -- the first token is out, and those after it stand at one index more
      subst h
      simp [List.range_succ_eq_map, consume_eq, List.head?_eq_getElem?]
    · simp [h]

/-- Reading a list index by index, past its end or not, gives a first part of it. -/
theorem filterMap_getElem?_range (ts : List Token) (k : Nat) :
    ((List.range k).map (ts[·]?)).filterMap id = ts.take k := by
  induction k with
  | zero => rfl
  | succ k ih =>
    rw [List.range_succ, List.map_append, List.filterMap_append, ih, List.take_add_one]
    cases h : ts[k]? <;> simp [h]

/-- What was taken out, then what is in the buffer and in the source, are the tokens that were left. -/
theorem taken_append_remaining (s : Lookahead) (calls : List Call) :
    (s.taken calls).filterMap id ++ (s.after calls).remaining = s.remaining := by
  rw [taken_eq, filterMap_getElem?_range, remaining_after, List.take_append_drop]

/-- After looking ahead, the rest of the calls have the answers that they had without it. -/
theorem answers_call_of_ne_consume (s : Lookahead) {c : Call} (h : c ≠ .consume) (later : List Call) :
    (s.call c).2.answers later = s.answers later := by
  rw [answers_eq, answers_eq, remaining_call, Call.leaves, if_neg h]

/-- The token `n` places ahead comes out once `n` others have. -/
theorem consume_after_peekNth (s : Lookahead) {n : Nat} {between : List Call}
    (h : between.count .consume = n) :
    ((s.peekNth n).2.after between).consume.1 = (s.peekNth n).1 := by
  have kept : (s.peekNth n).2.remaining = s.remaining := s.remaining_fill _
  rw [consume_eq, remaining_after, kept, h, List.head?_drop, peekNth_eq]

/-! ## A stream from its beginning -/

/-- **`reached ts calls`** — a stream over the tokens `ts` after some calls. -/
def reached (ts : List Token) (calls : List Call) : Lookahead :=
  after { source := ts } calls

/-- **`Refines ts calls`** — what a stream over the tokens `ts` gave in a series of calls, and what it
gives after them, is what `ts` as a plain list says. -/
structure Refines (ts : List Token) (calls : List Call) : Prop where
  /-- Each call had the answer of the list. -/
  answered : answers { source := ts } calls = answersOn ts calls
  /-- The calls that take a token out gave one token of the list after another, and then none. -/
  inOrder : taken { source := ts } calls = (List.range (calls.count .consume)).map (ts[·]?)
  /-- The tokens taken, then those in the buffer and then those in the source are the list. -/
  parts : (taken { source := ts } calls).filterMap id ++ (reached ts calls).buffer
    ++ (reached ts calls).source = ts
  /-- The token `n` places ahead is the one that comes out after `n` others, whatever is asked
  between. -/
  ahead : ∀ (n : Nat) (between : List Call), between.count .consume = n →
    ((reached ts calls).peekNth n).1 = (((reached ts calls).peekNth n).2.after between).consume.1
  /-- Looking ahead in any way changes no later answer. -/
  unchanged : ∀ look : Call, look ≠ .consume → ∀ later : List Call,
    ((reached ts calls).call look).2.answers later = (reached ts calls).answers later
  /-- The stream is at its end just if what would come out next is nothing or the token that ends the
  text. -/
  ended : (reached ts calls).isAtEnd.1 = true ↔
    ∀ t ∈ (reached ts calls).consume.1, t.kind = .eof

/-- **A stream refines the list of its tokens.** -/
theorem refines_list (ts : List Token) (calls : List Call) : Refines ts calls where
  answered := answers_eq _ calls
  inOrder := taken_eq _ calls
  parts := by
    rw [List.append_assoc]
    exact taken_append_remaining { source := ts } calls
  ahead _ _ h := (consume_after_peekNth _ h).symm
  unchanged _ h later := answers_call_of_ne_consume _ h later
  ended := by
    rw [isAtEnd_eq, consume_eq]
    cases (reached ts calls).remaining <;> simp [atEnd]

end Lookahead

/-! ## What a parser decides on -/

/-- **`p.Over s`** — what the parser has still to read is what the stream has left. -/
def ParserState.Over (p : ParserState) (s : Lookahead) : Prop := p.rest = s.remaining

variable {p : ParserState} {s : Lookahead}

/-- The kinds that a parser decides on are those of the tokens that the stream shows ahead. -/
theorem Parser.run_ahead_of_over (h : p.Over s) :
    Parser.ahead.run p = (some ((List.range 3).filterMap fun n => (s.peekKindNth n).1), p) := by
  have kinds (ts : List Token) :
      (ts.take 3).map Token.kind = (List.range 3).filterMap fun n => ts[n]?.map Token.kind := by
    rcases ts with _ | ⟨a, _ | ⟨b, _ | ⟨c, ts⟩⟩⟩ <;> rfl
  simp only [Parser.ahead, kinds, show p.rest = s.remaining from h, Lookahead.peekKindNth_eq]

/-- A parser reads the token that the stream gives out, and goes on with the rest of the stream. -/
theorem Parser.run_token_of_over (h : p.Over s) :
    (Parser.token.run p).1 = s.consume.1 ∧ (Parser.token.run p).2.Over s.consume.2 := by
  unfold ParserState.Over at h ⊢
  rw [Lookahead.consume_eq, Lookahead.remaining_consume, ← h]
  obtain ⟨_ | ⟨t, ts⟩, position, diagnostics⟩ := p <;> exact ⟨rfl, rfl⟩

end DeferFetch
