/-
# DeferFetch.Proofs.Diagnostic.Snippets — which line a snippet shows.

Lines are counted in two ways. To a position, carriage returns end lines as well as line feeds do; a
snippet takes its line from the text cut at line feeds alone. So a snippet shows the line that its span
begins on as long as every carriage return up to the end of that line stands before a line feed
(`excerpt_shows`). Each one that stands alone before the span moves the snippet one line further down.
-/
import Mathlib.Data.List.TakeWhile
import DeferFetch.Diagnostic.Render
import DeferFetch.Proofs.Grammar.Located
import DeferFetch.Proofs.Lexing.Places
import DeferFetch.Proofs.Naming.Dotted

namespace DeferFetch

/-! ## Where reports point -/

/-- **`p.Splits before after`** — the position is between two pieces of a text, and not between the two
characters of one line end. -/
structure Position.Splits (p : Position) (before after : String) : Prop where
  offset : p.offset = before.utf8ByteSize
  line : p.line = lineEnds before.toList
  column : p.column = (lastLine before.toList).length
  apart : before.toList.getLast? = some '\r' → after.toList.head? ≠ some '\n'

/-- **`p.Between source`** — the position is somewhere in the text, but within no line end. -/
def Position.Between (p : Position) (source : String) : Prop :=
  ∃ before after, source = before ++ after ∧ p.Splits before after

/-- A position is in one place of a text. -/
theorem Position.Splits.unique {p : Position} {before after before' after' : String}
    (h : p.Splits before after) (h' : p.Splits before' after')
    (same : before ++ after = before' ++ after') : before = before' ∧ after = after' := by
  have size : before.utf8ByteSize = before'.utf8ByteSize := h.offset.symm.trans h'.offset
  -- what one of them has more than the other is empty
  have more {a b : String} {cs : List Char} (ext : a.toList = b.toList ++ cs)
      (size : a.utf8ByteSize = b.utf8ByteSize) : cs = [] := by
    have longer : a = b ++ String.ofList cs := by
      rw [← String.toList_inj, ext, String.toList_append, String.toList_ofList]
    rw [longer, String.utf8ByteSize_append] at size
    have empty : String.ofList cs = "" := String.utf8ByteSize_eq_zero_iff.1 (by omega)
    simpa using congrArg String.toList empty
  rw [← String.toList_inj, String.toList_append, String.toList_append] at same
  obtain ⟨cs, ext, rest⟩ | ⟨cs, ext, rest⟩ := List.append_eq_append_iff.1 same
  · obtain rfl := more ext size.symm
    exact ⟨String.toList_inj.1 (by simp [ext]), String.toList_inj.1 (by simp [rest])⟩
  · obtain rfl := more ext size
    exact ⟨String.toList_inj.1 (by simp [ext]), String.toList_inj.1 (by simp [rest])⟩

/-- A line feed is blank, so no token begins with it. -/
theorem scan_token_ne_feed {c : Char} {cs : List Char} {k : TokenKind}
    (h : (scan c cs).kind = .token k) : c ≠ '\n' := by
  rintro rfl
  rw [(Scanned.blank (by decide)).eq] at h
  cases h

/-- The lexemes that become tokens begin with a character other than a line feed. -/
theorem lexemes_begin (cs : List Char) :
    ∀ l ∈ lexemes cs, ∀ k, l.kind = .token k → ∃ c more, l.text = c :: more ∧ c ≠ '\n' := by
  fun_induction lexemes cs with
  | case1 => exact fun l hl => absurd hl List.not_mem_nil
  | case2 c cs scanned ih =>
    refine List.forall_mem_cons.2 ⟨fun k hk => ?_, ih⟩
    exact ⟨c, _, rfl, scan_token_ne_feed hk⟩

/-- Assembled tokens begin between two pieces of the text. -/
theorem assemble_between (file : Option String) {k : Cursor} {passed : List Char} (h : k.After passed)
    (pending : List Trivia) {ls : List Lexeme}
    (begins : ∀ l ∈ ls, ∀ k, l.kind = .token k → ∃ c more, l.text = c :: more ∧ c ≠ '\n') :
    ∀ t ∈ assemble file k pending ls, t.span.start.Between (String.ofList passed ++ lexemeText ls) := by
  have splits {after : String} (apart : after.toList.head? ≠ some '\n') {k : Cursor}
      {passed : List Char} (h : k.After passed) : k.position.Splits (String.ofList passed) after :=
    ⟨h.position.offset, h.position.line, h.position.column, fun _ => apart⟩
  induction ls generalizing k passed pending with
  | nil =>
    intro t ht
    obtain rfl := List.mem_singleton.1 ht
    exact ⟨_, _, rfl, splits (by simp [lexemeText]) h⟩
  | cons l ls ih =>
    obtain ⟨hl, hls⟩ := List.forall_mem_cons.1 begins
    have whole : String.ofList passed ++ lexemeText (l :: ls) =
        String.ofList (passed ++ l.text) ++ lexemeText ls := by
      rw [lexemeText_cons, String.ofList_append, String.append_assoc]
    obtain ⟨kind | kind, text⟩ := l
    · rw [whole]
      exact ih (h.advance text) _ hls
    · refine List.forall_mem_cons.2 ⟨?_, ?_⟩
      · obtain ⟨c, more, rfl, feed⟩ := hl kind rfl
        refine ⟨_, _, rfl, splits ?_ h⟩
        rw [lexemeText_cons, String.toList_append, String.toList_ofList]
        exact fun head => feed (Option.some.inj head)
      · rw [whole]
        exact ih (h.advance text) [] hls

/-- **Reports point between pieces of the text** — all that is pointed at begins at a place whose line and
column are told by the text before it, and not within a line end. -/
theorem parseUnit_between (source : String) (file : Option String) :
    ∀ d ∈ (parseUnit source file).diagnostics, d.Located (·.Between source) := by
  have origin : Position.Between {} source :=
    ⟨"", source, String.empty_append.symm, rfl, rfl, rfl, nofun⟩
  have tokens : ∀ t ∈ tokenize source file, t.span.start.Between source := by
    have splits := assemble_between file .start [] (lexemes_begin source.toList)
    rwa [lexemeText_lexemes, String.ofList_nil, String.empty_append] at splits
  exact @parseUnit_located (·.Between source) origin source file tokens

/-! ## Carriage returns -/

/-- **`loneReturns cs`** — how many carriage returns there are that no line feed follows. -/
def loneReturns : List Char → Nat
  | [] => 0
  | c :: cs => loneReturns cs + if c = '\r' ∧ cs.head? ≠ some '\n' then 1 else 0

/-- **Line ends** are the line feeds and the carriage returns that stand alone. -/
theorem lineEnds_eq (cs : List Char) : lineEnds cs = cs.count '\n' + loneReturns cs := by
  induction cs with
  | nil => rfl
  | cons c cs ih =>
    rw [lineEnds_cons, loneReturns, ih, List.count_cons]
    by_cases feed : c = '\n'
    · simp [feed, isLineEnd]
      omega
    · by_cases ret : c = '\r'
      · by_cases head : cs.head? = some '\n'
        · simp [ret, head]
        · simp [ret, head, isLineEnd]
          omega
      · simp [feed, ret, isLineEnd]

theorem loneReturns_of_append {as bs : List Char} (h : loneReturns (as ++ bs) = 0) :
    loneReturns bs = 0 := by
  induction as with
  | nil => exact h
  | cons a as ih =>
    rw [List.cons_append, loneReturns] at h
    exact ih (by omega)

/-- Without lone carriage returns, each one stands before a line feed. -/
theorem head?_of_loneReturns {as bs : List Char} (h : loneReturns (as ++ '\r' :: bs) = 0) :
    bs.head? = some '\n' := by
  have alone := loneReturns_of_append h
  rw [loneReturns] at alone
  refine Decidable.byContradiction fun head => ?_
  rw [if_pos ⟨rfl, head⟩] at alone
  omega

/-- A carriage return that stands before a line feed does so within the first part of the text, unless
the text is cut between them. -/
theorem loneReturns_left {as bs : List Char} (h : loneReturns (as ++ bs) = 0)
    (apart : as.getLast? = some '\r' → bs.head? ≠ some '\n') : loneReturns as = 0 := by
  induction as with
  | nil => rfl
  | cons a as ih =>
    cases as with
    | nil =>
      have last : a ≠ '\r' := by
        rintro rfl
        have lone : loneReturns ([] ++ '\r' :: bs) = 0 := h
        exact apart rfl (head?_of_loneReturns lone)
      simp [loneReturns, last]
    | cons e as =>
      rw [List.getLast?_cons_cons] at apart
      rw [List.cons_append, loneReturns, List.cons_append, List.head?_cons] at h
      rw [loneReturns, ih (by rw [List.cons_append]; omega) apart, List.head?_cons]
      omega

/-! ## Lines -/

/-- The characters up to the first line feed, that included. -/
def throughFeed : List Char → List Char
  | [] => []
  | c :: cs => if c = '\n' then [c] else c :: throughFeed cs

theorem throughFeed_append {as : List Char} (h : '\n' ∉ as) (bs : List Char) :
    throughFeed (as ++ bs) = as ++ throughFeed bs := by
  induction as with
  | nil => rfl
  | cons a as ih =>
    rw [List.mem_cons, not_or] at h
    rw [List.cons_append, throughFeed, if_neg (Ne.symm h.1), ih h.2, List.cons_append]

theorem throughFeed_of_not_mem {cs : List Char} (h : '\n' ∉ cs) : throughFeed cs = cs := by
  simpa [throughFeed] using throughFeed_append h []

theorem head?_throughFeed (cs : List Char) : (throughFeed cs).head? = cs.head? := by
  cases cs with
  | nil => rfl
  | cons c cs =>
    rw [throughFeed]
    split <;> rfl

/-- A line is all of the text, or it comes after a line end. -/
theorem exists_lastLine (cs : List Char) :
    lastLine cs = cs ∨ ∃ earlier c, isLineEnd c = true ∧ cs = earlier ++ c :: lastLine cs := by
  have whole : cs = (cs.reverse.dropWhile (!isLineEnd ·)).reverse ++ lastLine cs := by
    rw [lastLine, ← List.reverse_append, List.takeWhile_append_dropWhile, List.reverse_reverse]
  cases hd : cs.reverse.dropWhile (!isLineEnd ·) with
  | nil =>
    rw [hd] at whole
    exact .inl whole.symm
  | cons c rest =>
    have ends := List.head?_dropWhile_not (!isLineEnd ·) cs.reverse
    rw [hd] at ends whole
    rw [List.reverse_cons, List.append_assoc, List.singleton_append] at whole
    exact .inr ⟨_, c, by simpa using ends, whole⟩

theorem not_isLineEnd_of_lastLine {cs : List Char} : ∀ c ∈ lastLine cs, isLineEnd c = false := by
  intro c hc
  have inner := List.all_eq_true.1 (List.all_takeWhile (l := cs.reverse) (p := (!isLineEnd ·))) c
  simpa using inner (List.mem_reverse.1 hc)

/-- A line without the carriage return that belongs to the line feed after it. -/
def withoutReturn (line : List Char) : List Char :=
  if line.getLast? = some '\r' then line.dropLast else line

/-- The lines up to a line feed, and those after it. -/
theorem lines_append_feed (xs ys : List Char) :
    Text.lines (String.ofList (xs ++ '\n' :: ys)) =
      ((Text.piecesBy '\n' xs).1 :: (Text.piecesBy '\n' xs).2).map
          (fun line => String.ofList (withoutReturn line)) ++ Text.lines (String.ofList ys) := by
  simp only [Text.lines, String.toList_ofList, piecesBy_append]
  rw [← List.cons_append, List.dropLast_append_of_ne_nil (List.cons_ne_nil _ _), List.getLast?_append,
    List.getLast?_eq_some_getLast (List.cons_ne_nil (Text.piecesBy '\n' ys).1 _), Option.some_or]
  simp [withoutReturn, Function.comp_def]

theorem length_piecesBy (sep : Char) (xs : List Char) :
    (Text.piecesBy sep xs).2.length = xs.count sep := by
  induction xs with
  | nil => rfl
  | cons x xs ih =>
    rw [Text.piecesBy, List.count_cons, ← ih]
    by_cases h : x = sep <;> simp [h]

/-- Lines are numbered by the line feeds before them. -/
theorem getElem?_lines_append_feed (xs ys : List Char) (n : Nat) :
    (Text.lines (String.ofList (xs ++ '\n' :: ys)))[xs.count '\n' + 1 + n]? =
      (Text.lines (String.ofList ys))[n]? := by
  have passed : (((Text.piecesBy '\n' xs).1 :: (Text.piecesBy '\n' xs).2).map
      fun line => String.ofList (withoutReturn line)).length = xs.count '\n' + 1 := by
    rw [List.length_map, List.length_cons, length_piecesBy]
  rw [lines_append_feed, ← passed, List.getElem?_append_right (Nat.le_add_right _ _),
    Nat.add_sub_cancel_left]

/-- **The first line** ends where a position says that it does, if its carriage returns stand before a
line feed. -/
theorem getElem?_lines_zero {cs : List Char} (h : loneReturns (throughFeed cs) = 0) {line : String}
    (hl : (Text.lines (String.ofList cs))[0]? = some line) :
    line = String.ofList (cs.takeWhile (!isLineEnd ·)) := by
  have inner {cs : List Char} (feed : '\n' ∉ cs) (ret : '\r' ∉ cs) :
      ∀ c ∈ cs, (!isLineEnd c) = true := fun c hc => by
    have := ne_of_mem_of_not_mem hc feed
    have := ne_of_mem_of_not_mem hc ret
    simp_all [isLineEnd]
  by_cases feed : '\n' ∈ cs
  · obtain ⟨first, more, rfl, hfirst⟩ := List.eq_append_cons_of_mem feed
    rw [throughFeed_append hfirst] at h
    rw [lines_append_feed, piecesBy_of_not_mem hfirst] at hl
    obtain rfl : String.ofList (withoutReturn first) = line := by simpa using hl
    by_cases ret : '\r' ∈ first
    · -- the line feed comes right after the first carriage return
      obtain ⟨line, last, rfl, hline⟩ := List.eq_append_cons_of_mem ret
      rw [List.append_assoc, List.cons_append] at h
      have next := head?_of_loneReturns h
      obtain rfl : last = [] := by
        cases last with
        | nil => rfl
        | cons c last => simp_all
      rw [List.append_assoc, List.takeWhile_append_of_pos (inner (by simp_all) hline)]
      simp [withoutReturn, isLineEnd]
    · rw [List.takeWhile_append_of_pos (inner hfirst ret)]
      have last : first.getLast? ≠ some '\r' := fun last => ret (List.mem_of_getLast? last)
      simp [withoutReturn, last, isLineEnd]
  · rw [throughFeed_of_not_mem feed] at h
    have ret : '\r' ∉ cs := fun ret => by
      obtain ⟨line, last, rfl, -⟩ := List.eq_append_cons_of_mem ret
      have next := head?_of_loneReturns h
      exact feed (List.mem_append_right _ (List.mem_cons_of_mem _ (List.mem_of_mem_head? next)))
    rw [List.takeWhile_eq_self_iff.2 (inner feed ret)]
    simp only [Text.lines, String.toList_ofList, piecesBy_of_not_mem feed] at hl
    cases cs <;> simp_all

/-- **The line of a place** — a text cut at its line feeds has, under the number of the line ends before
a place, the line of that place, if each carriage return up to the end of the line stands before a line
feed. -/
theorem getElem?_lines_lineEnds {before after : List Char}
    (apart : before.getLast? = some '\r' → after.head? ≠ some '\n')
    (h : loneReturns (before ++ throughFeed after) = 0) {line : String}
    (hl : (Text.lines (String.ofList (before ++ after)))[lineEnds before]? = some line) :
    line = String.ofList (lastLine before ++ after.takeWhile (!isLineEnd ·)) := by
  have inner : ∀ c ∈ lastLine before, isLineEnd c = false := not_isLineEnd_of_lastLine
  have feed : '\n' ∉ lastLine before := fun feed => absurd (inner _ feed) (by decide)
  -- past the line feeds, the line is the first one of what remains
  have own : loneReturns (throughFeed (lastLine before ++ after)) = 0 →
      (Text.lines (String.ofList (lastLine before ++ after)))[0]? = some line →
      line = String.ofList (lastLine before ++ after.takeWhile (!isLineEnd ·)) := fun h hl => by
    rw [getElem?_lines_zero h hl, List.takeWhile_append_of_pos fun c hc => by simp [inner c hc]]
  rw [throughFeed_append feed] at own
  rw [← head?_throughFeed] at apart
  have lone := loneReturns_left h apart
  rw [lineEnds_eq, lone] at hl
  obtain first | ⟨earlier, c, ends, whole⟩ := exists_lastLine before
  · rw [first] at own feed
    rw [List.count_eq_zero.2 feed] at hl
    rw [first]
    exact own h hl
  · -- the line end is a line feed: none comes right after it, so a carriage return would stand alone
    generalize lastLine before = last at whole feed own ⊢
    subst whole
    rw [List.append_assoc, List.cons_append] at h hl
    by_cases ret : c = '\r'
    · subst ret
      have next := head?_of_loneReturns h
      cases last with
      | nil => exact absurd next (apart (by simp))
      | cons d last =>
        obtain rfl : d = '\n' := by simpa using next
        exact absurd List.mem_cons_self feed
    · obtain rfl : c = '\n' := by simpa [isLineEnd, ret] using ends
      rw [List.count_append, List.count_cons_self, List.count_eq_zero.2 feed, Nat.zero_add, Nat.add_zero,
        ← Nat.add_zero (_ + 1), getElem?_lines_append_feed] at hl
      have rest := loneReturns_of_append h
      rw [loneReturns] at rest
      exact own (by omega) hl

/-! ## Snippets -/

/-- **`Shows shown number line column`** — what is shown is the line behind its number, between a gutter
line and carets. The first caret stands under the character of the line at the column. -/
def Shows (shown : String) (number : Nat) (line : String) (column : Nat) : Prop :=
  ∃ width carets, (padLeft width (toString number)).length = width ∧ 0 < carets ∧
    shown = blanks width ++ " |\n"
      ++ padLeft width (toString number) ++ " | " ++ line ++ "\n"
      ++ blanks width ++ " | " ++ blanks column ++ String.ofList (List.replicate carets '^') ++ "\n"

theorem length_padLeft {n : Nat} {s : String} (h : s.length ≤ n) : (padLeft n s).length = n := by
  rw [padLeft, blanks, String.length_append, String.length_ofList, List.length_replicate]
  omega

theorem Span.underline_pos (span : Span) (line : String) : 0 < span.underline line :=
  Nat.le_max_right _ _

/-- A snippet shows a line of the text cut at its line feeds. -/
theorem shows_of_snippet {source shown : String} {span : Span} (h : snippet source span = some shown) :
    ∃ line, (Text.lines source)[span.start.line]? = some line ∧
      Shows shown (span.start.line + 1) line span.start.column := by
  obtain ⟨line, hline, rfl⟩ := Option.map_eq_some_iff.1 h
  refine ⟨line, hline, max (toString (span.start.line + 1)).length 2, span.underline line,
    length_padLeft (Nat.le_max_left _ _), span.underline_pos line, ?_⟩
  simp only [String.append_assoc]

/-- **Snippets show the lines that they point at** — everything that a report points at begins between
two pieces of the source. If its snippet is not empty, it shows a line under the number of the line ends
before it, with the carets at the column. The line is found by counting line feeds; each lone carriage
return before it counts as one more. It is the line around that place if there is no lone carriage return
up to its end. -/
theorem excerpt_shows (source : String) (file : Option String) :
    ∀ d ∈ (parseUnit source file).diagnostics, ∀ span ∈ d.spans,
      ∃ before after, source = before ++ after ∧ span.start.Splits before after ∧
        (Diagnostic.excerpt (some source) (some span) ≠ "" →
          ∃ line, (Text.lines source)[before.toList.count '\n' + loneReturns before.toList]? = some line ∧
            Shows (Diagnostic.excerpt (some source) (some span)) (lineEnds before.toList + 1) line
              (lastLine before.toList).length ∧
            (loneReturns (before.toList ++ throughFeed after.toList) = 0 →
              line = String.ofList
                (lastLine before.toList ++ after.toList.takeWhile (!isLineEnd ·)))) := by
  intro d hd span hs
  obtain ⟨before, after, rfl, splits⟩ := parseUnit_between source file d hd span hs
  refine ⟨before, after, rfl, splits, fun printed => ?_⟩
  cases h : snippet (before ++ after) span with
  | none => exact absurd (by simp [Diagnostic.excerpt, h]) printed
  | some shown =>
    obtain ⟨line, found, shows⟩ := shows_of_snippet h
    have excerpt : Diagnostic.excerpt (some (before ++ after)) (some span) = shown := by
      simp [Diagnostic.excerpt, h]
    rw [splits.line] at found shows
    rw [splits.column] at shows
    refine ⟨line, lineEnds_eq _ ▸ found, excerpt ▸ shows, fun lone => ?_⟩
    refine getElem?_lines_lineEnds splits.apart lone ?_
    rwa [← String.toList_append, String.ofList_toList]

/-- The note to an error at the end of the text, where carriage returns stand before line feeds. -/
theorem excerpt_shows_note :
    let source := "class A \x7b\r\n  int x = (1;\r\n"
    ∃ d ∈ (parseUnit source none).diagnostics, ∃ span ∈ d.spans,
      d.span.start.line = 2 ∧
        Shows (Diagnostic.excerpt (some source) (some span)) 2 "  int x = (1;" 10 := by
  intro source
  have run : (parseUnit source none).diagnostics.any (fun d =>
      d.spans.any fun span => decide (d.span.start.line = 2 ∧ span.start = ⟨1, 10, some 10, 21⟩ ∧
        Diagnostic.excerpt (some source) (some span) ≠ "")) = true := by
    decide +kernel
  obtain ⟨d, hd, points⟩ := List.any_eq_true.1 run
  obtain ⟨span, hs, facts⟩ := List.any_eq_true.1 points
  obtain ⟨ending, start, printed⟩ := of_decide_eq_true facts
  obtain ⟨before, after, whole, splits, shown⟩ := excerpt_shows _ none d hd span hs
  have place : span.start.Splits "class A \x7b\r\n  int x = " "(1;\r\n" :=
    start ▸ ⟨by decide, by decide, by decide, by decide⟩
  obtain ⟨rfl, rfl⟩ := splits.unique place (whole.symm.trans (by decide))
  obtain ⟨line, -, shows, exact⟩ := shown printed
  obtain rfl := exact (by decide)
  exact ⟨d, hd, span, hs, ending, shows⟩

/-- **After a lone carriage return a snippet shows another line** than that of the character that the
report is about. -/
theorem excerpt_shows_next_line :
    let source := "\r)\nclass B \x7b\x7d\n"
    ∃ d ∈ (parseUnit source none).diagnostics,
      d.span.start.Splits "\r" ")\nclass B \x7b\x7d\n" ∧
        Diagnostic.excerpt (some source) (some d.span) ≠ "" ∧
        ∀ number column, ¬ Shows (Diagnostic.excerpt (some source) (some d.span)) number
          (String.ofList (lastLine ("\r").toList ++
            (")\nclass B \x7b\x7d\n").toList.takeWhile (!isLineEnd ·))) column := by
  intro source
  have run : (parseUnit source none).diagnostics.any (fun d =>
      decide (d.span.start = ⟨1, 0, some 0, 1⟩ ∧
        Diagnostic.excerpt (some source) (some d.span) =
          "   |\n 2 | class B \x7b\x7d\n   | ^\n")) = true := by
    decide +kernel
  obtain ⟨d, hd, facts⟩ := List.any_eq_true.1 run
  obtain ⟨start, excerpt⟩ := of_decide_eq_true facts
  refine ⟨d, hd, start ▸ ⟨by decide, by decide, by decide, by decide⟩, ?_, ?_⟩
  · rw [excerpt]
    decide
  · rw [excerpt]
    rintro number column ⟨width, carets, -, -, shown⟩
    -- the line is a closing parenthesis, and none is shown
    have bracket : ')' ∈ ("   |\n 2 | class B \x7b\x7d\n   | ^\n").toList := by
      rw [shown]
      simp [String.toList_append, lastLine, isLineEnd]
    exact absurd bracket (by decide)

end DeferFetch
