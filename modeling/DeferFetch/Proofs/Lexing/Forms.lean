/-
# DeferFetch.Proofs.Lexing.Forms — the forms of a lexeme.

How a lexeme is recognised depends on the character that it begins with and on one or two after it.
`Scanned` says so with one constructor for each form: every lexeme has one (`scanned_scan`), and it tells
what is scanned (`Scanned.eq`). Laws of the scanner are proved by cases on the form of a lexeme.
-/
import DeferFetch.Token.Lexer

namespace DeferFetch

/-! ## Characters without a form of their own -/

/-- **`Unmarked c cs`** — what begins with `c` when `cs` follows is a number, a word or an operator. -/
structure Unmarked (c : Char) (cs : List Char) : Prop where
  blank : isJavaBlank c = false
  comment : c = '/' → cs.head? ≠ some '/' ∧ cs.head? ≠ some '*'
  separator : separatorKind? c = none
  mark : c ∉ [':', '=', '.', '"', '\'']

/-- The characters that some other lexeme begins with. -/
def firstMarks : List Char :=
  [' ', '\t', '\n', '\r', '\x0c', '\ufeff', '/', '(', ')', '\x7b', '\x7d', '[', ']', ';', ',', '@', '?',
    '<', '>', ':', '=', '.', '"', '\'']

/-- What can be tested holds of everything in a list if it does by testing one after the other. -/
theorem forall_of_all {α : Type} {p : α → Prop} [DecidablePred p] {l : List α}
    (h : l.all (fun a => decide (p a)) = true) : ∀ a ∈ l, p a := by
  simpa using h

/-- A class that holds none of them. -/
theorem Unmarked.of_class {p : Char → Bool} (hp : ∀ d ∈ firstMarks, p d = false) {c : Char} (hc : p c = true)
    (cs : List Char) : Unmarked c cs := by
  have other : c ∉ firstMarks := by
    intro marked
    rw [hp c marked] at hc
    cases hc
  have separator : separatorKind? c = none := by
    unfold separatorKind?
    split <;> first | rfl | exact absurd (by decide) other
  simp only [firstMarks, List.mem_cons, List.not_mem_nil, or_false, not_or] at other
  exact ⟨by simp [isJavaBlank, other], fun slash => by simp [other] at slash, separator, by simp [other]⟩

theorem Unmarked.of_isDigit {c : Char} (h : Text.isDigit c = true) (cs : List Char) : Unmarked c cs :=
  .of_class (forall_of_all (by decide)) h cs

theorem Unmarked.of_isIdentifierStart {c : Char} (h : isIdentifierStart c = true) (cs : List Char) :
    Unmarked c cs :=
  .of_class (forall_of_all (by decide +kernel)) h cs

/-- No identifier begins with a digit. -/
theorem isDigit_of_isIdentifierStart {c : Char} (h : isIdentifierStart c = true) :
    Text.isDigit c = false := by
  cases hd : Text.isDigit c with
  | false => rfl
  | true =>
    have le : c.toNat ≤ 57 := by
      simp only [Text.isDigit, Bool.and_eq_true, decide_eq_true_eq] at hd
      exact hd.2
    have special : c ≠ '_' ∧ c ≠ '$' := by
      constructor <;> rintro rfl <;> exact absurd hd (by decide)
    have early : Text.covers Text.alphabeticRanges c.toNat = false := by
      rw [Text.alphabeticRanges, Text.covers, if_pos (by omega)]
    simp [isIdentifierStart, special, Text.isAlphabetic, early] at h

/-! ## The forms -/

/-- **`Scanned c cs s`** — `s` is the lexeme that begins with `c` when `cs` follows, in one of the forms
that a lexeme can have. -/
inductive Scanned (c : Char) (cs : List Char) : Scan cs → Prop
  | blank (blank : isJavaBlank c = true) : Scanned c cs ⟨.trivia .blank, .takeWhile isJavaBlank cs⟩
  | lineComment (first : c = '/') (next : cs.head? = some '/') :
      Scanned c cs ⟨.trivia .lineComment, .takeWhile (!isLineEnd ·) cs⟩
  | blockComment (first : c = '/') (next : cs.head? = some '*') : Scanned c cs (.blockComment cs)
  | separator {kind : TokenKind} (known : separatorKind? c = some kind) :
      Scanned c cs ⟨.token kind, .empty cs⟩
  | doubleColon (first : c = ':') (next : cs.head? = some ':') :
      Scanned c cs ⟨.token .doubleColon, .first 1 cs⟩
  | colon (first : c = ':') (alone : cs.head? ≠ some ':') : Scanned c cs ⟨.token .colon, .empty cs⟩
  | equality (first : c = '=') (next : cs.head? = some '=') :
      Scanned c cs (.spelled c .operator (.first 1 cs))
  | equals (first : c = '=') (alone : cs.head? ≠ some '=') : Scanned c cs ⟨.token .equals, .empty cs⟩
  | fraction (first : c = '.') (digit : cs.head?.any Text.isDigit = true) : Scanned c cs (.number c cs)
  | ellipsis (first : c = '.') (dots : ['.', '.'] <+: cs) : Scanned c cs ⟨.token .ellipsis, .first 2 cs⟩
  | dot (first : c = '.') (digit : cs.head?.any Text.isDigit = false) (dots : ¬ ['.', '.'] <+: cs) :
      Scanned c cs ⟨.token .dot, .empty cs⟩
  | string (first : c = '"') : Scanned c cs (.string cs)
  | character (first : c = '\'') :
      Scanned c cs (.literal c .character .unterminatedCharacter (throughQuote c cs))
  | number (digit : Text.isDigit c = true) : Scanned c cs (.number c cs)
  | word (start : isIdentifierStart c = true) :
      Scanned c cs (.spelled c wordKind (.takeWhile isIdentifierPart cs))
  | operator (unmarked : Unmarked c cs) (digit : Text.isDigit c = false)
      (start : isIdentifierStart c = false) : Scanned c cs (.operator c cs)

/-- Every lexeme has a form. -/
theorem scanned_scan (c : Char) (cs : List Char) : Scanned c cs (scan c cs) := by
  -- the tests of the scanner one after the other; what is left has failed them all
  unfold scan
  by_cases blank : isJavaBlank c = true
  · rw [if_pos blank]
    exact .blank blank
  rw [if_neg blank]
  by_cases line : (c = '/' && cs.head? = some '/') = true
  · rw [if_pos line]
    simp only [Bool.and_eq_true, decide_eq_true_eq] at line
    exact .lineComment line.1 line.2
  rw [if_neg line]
  by_cases block : (c = '/' && cs.head? = some '*') = true
  · rw [if_pos block]
    simp only [Bool.and_eq_true, decide_eq_true_eq] at block
    exact .blockComment block.1 block.2
  rw [if_neg block]
  cases separator : separatorKind? c with
  | some kind => exact .separator separator
  | none =>
  by_cases colon : c = ':'
  · simp only [if_pos colon]
    split
    · exact .doubleColon colon ‹_›
    · exact .colon colon ‹_›
  by_cases equals : c = '='
  · simp only [if_neg colon, if_pos equals]
    split
    · exact .equality equals ‹_›
    · exact .equals equals ‹_›
  by_cases dot : c = '.'
  · simp only [if_neg colon, if_neg equals, if_pos dot]
    split
    · exact .fraction dot ‹_›
    split
    · exact .ellipsis dot (List.isPrefixOf_iff_prefix.1 ‹_›)
    · exact .dot dot (Bool.eq_false_iff.2 ‹_›) (mt List.isPrefixOf_iff_prefix.2 ‹_›)
  by_cases string : c = '"'
  · simp only [if_neg colon, if_neg equals, if_neg dot, if_pos string]
    exact .string string
  by_cases character : c = '\''
  · simp only [if_neg colon, if_neg equals, if_neg dot, if_neg string, if_pos character]
    exact .character character
  simp only [if_neg colon, if_neg equals, if_neg dot, if_neg string, if_neg character]
  split
  · exact .number ‹_›
  rename_i digit
  split
  · exact .word ‹_›
  rename_i start
  simp only [Bool.and_eq_true, decide_eq_true_eq, not_and] at line block
  exact .operator ⟨Bool.eq_false_iff.2 blank, fun slash => ⟨line slash, block slash⟩, separator,
    by simp [colon, equals, dot, string, character]⟩ (Bool.eq_false_iff.2 digit) (Bool.eq_false_iff.2 start)

/-- What has none of the other forms is a number, a word or an operator. -/
theorem Unmarked.scan_eq {c : Char} {cs : List Char} (h : Unmarked c cs) :
    scan c cs = if Text.isDigit c then .number c cs
      else if isIdentifierStart c then .spelled c wordKind (.takeWhile isIdentifierPart cs)
      else .operator c cs := by
  obtain ⟨blank, comment, separator, mark⟩ := h
  simp only [List.mem_cons, List.not_mem_nil, or_false, not_or] at mark
  obtain ⟨colon, equals, dot, string, character⟩ := mark
  have line : ¬ (c = '/' && cs.head? = some '/') = true := by
    simp only [Bool.and_eq_true, decide_eq_true_eq, not_and]
    exact fun slash => (comment slash).1
  have block : ¬ (c = '/' && cs.head? = some '*') = true := by
    simp only [Bool.and_eq_true, decide_eq_true_eq, not_and]
    exact fun slash => (comment slash).2
  simp only [scan, blank, line, block, separator, colon, equals, dot, string, character,
    Bool.false_eq_true, if_false]

/-- A lexeme of a given form is what is scanned. -/
theorem Scanned.eq {c : Char} {cs : List Char} {s : Scan cs} (h : Scanned c cs s) : scan c cs = s := by
  cases h with
  | blank blank => rw [scan, if_pos blank]
  | lineComment first next =>
    subst first
    simp [scan, isJavaBlank, next]
  | blockComment first next =>
    subst first
    simp [scan, isJavaBlank, next]
  | separator known =>
    have blank : isJavaBlank c = false := by
      cases blank : isJavaBlank c with
      | false => rfl
      | true =>
        simp only [isJavaBlank, Bool.or_eq_true, decide_eq_true_eq] at blank
        rcases blank with ((((rfl | rfl) | rfl) | rfl) | rfl) | rfl <;> cases known
    have slash : c ≠ '/' := by
      rintro rfl
      cases known
    simp [scan, blank, slash, known]
  | doubleColon first next =>
    subst first
    simp [scan, isJavaBlank, separatorKind?, next]
  | colon first alone =>
    subst first
    simp [scan, isJavaBlank, separatorKind?, alone]
  | equality first next =>
    subst first
    simp [scan, isJavaBlank, separatorKind?, next]
  | equals first alone =>
    subst first
    simp [scan, isJavaBlank, separatorKind?, alone]
  | fraction first digit =>
    subst first
    simp [scan, isJavaBlank, separatorKind?, digit]
  | ellipsis first dots =>
    obtain ⟨more, rfl⟩ := dots
    subst first
    have digit : Text.isDigit '.' = false := by decide
    simp [scan, isJavaBlank, separatorKind?, digit]
  | dot first digit dots =>
    subst first
    simp [scan, isJavaBlank, separatorKind?, digit, dots]
  | string first =>
    subst first
    simp [scan, isJavaBlank, separatorKind?]
  | character first =>
    subst first
    simp [scan, isJavaBlank, separatorKind?]
  | number digit => rw [(Unmarked.of_isDigit digit cs).scan_eq, if_pos digit]
  | word start =>
    simp only [(Unmarked.of_isIdentifierStart start cs).scan_eq, isDigit_of_isIdentifierStart start,
      start, Bool.false_eq_true, if_false, if_true]
  | operator unmarked digit start =>
    simp only [unmarked.scan_eq, digit, start, Bool.false_eq_true, if_false]

end DeferFetch
