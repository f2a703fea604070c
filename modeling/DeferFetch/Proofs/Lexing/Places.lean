/-
# DeferFetch.Proofs.Lexing.Places — what a position says about the text before it.

A cursor keeps the line and the columns up to date character by character, with a flag for the carriage
return that may go on into a line feed. Nothing of that history matters in the end: every position in a
text is a function of the text before it. The line counts the line ends there, and the columns measure
what comes after the last of them.
-/
import DeferFetch.Proofs.Lexing.Tiling

namespace DeferFetch

/-! ## Lines of a text -/

/-- **`lineEnds cs`** — how many line ends there are: line feeds and carriage returns, where one of
each in a row is a single line end. -/
def lineEnds : List Char → Nat
  | '\r' :: '\n' :: cs => lineEnds cs + 1
  | c :: cs => if isLineEnd c then lineEnds cs + 1 else lineEnds cs
  | [] => 0

/-- **`lastLine cs`** — the characters after the last line end. -/
def lastLine (cs : List Char) : List Char := (cs.reverse.takeWhile (!isLineEnd ·)).reverse

/-- **`utf16 cs`** — the characters in UTF-16: a code point beyond the first plane takes two units,
which share its bits without the offset of the plane. -/
def utf16 (cs : List Char) : List Nat :=
  cs.flatMap fun c =>
    if c.toNat < 0x10000 then [c.toNat]
    else [0xD800 + (c.toNat - 0x10000) / 0x400, 0xDC00 + (c.toNat - 0x10000) % 0x400]

/-- A carriage return before a line feed leaves it to that to end the line. -/
theorem lineEnds_cons (c : Char) (cs : List Char) :
    lineEnds (c :: cs) =
      lineEnds cs + if isLineEnd c && !(c = '\r' && cs.head? = some '\n') then 1 else 0 := by
  by_cases pair : c = '\r' ∧ cs.head? = some '\n'
  · obtain ⟨rfl, feed⟩ := pair
    obtain ⟨cs, rfl⟩ := List.head?_eq_some_iff.1 feed
    simp [lineEnds, isLineEnd]
  · have apart : ∀ more, c = '\r' → cs = '\n' :: more → False := by
      rintro more rfl rfl
      exact pair ⟨rfl, rfl⟩
    rw [lineEnds.eq_2 c cs apart]
    cases isLineEnd c <;> simp [pair]

/-- A line feed after a carriage return ends no second line. -/
theorem lineEnds_concat (cs : List Char) (c : Char) :
    lineEnds (cs ++ [c]) =
      lineEnds cs + if isLineEnd c && !(c = '\n' && cs.getLast? = some '\r') then 1 else 0 := by
  induction cs with
  | nil => simp [lineEnds_cons, lineEnds]
  | cons d cs ih =>
    rw [List.cons_append, lineEnds_cons, lineEnds_cons d, ih]
    cases cs with
    | nil =>
      -- whichever of the two characters of a pair ends the line, one of them does
      by_cases pair : d = '\r' ∧ c = '\n'
      · simp [pair, isLineEnd, lineEnds]
      · simp only [not_and] at pair
        by_cases hd : d = '\r' <;> simp [hd, pair, lineEnds, Nat.add_comm]
    | cons e cs =>
      rw [List.getLast?_cons_cons, List.cons_append, List.head?_cons, List.head?_cons]
      omega

theorem lastLine_concat (cs : List Char) (c : Char) :
    lastLine (cs ++ [c]) = if isLineEnd c then [] else lastLine cs ++ [c] := by
  unfold lastLine
  rw [List.reverse_append, List.reverse_singleton, List.singleton_append, List.takeWhile_cons]
  cases isLineEnd c <;> simp

theorem length_utf16_concat (cs : List Char) (c : Char) :
    (utf16 (cs ++ [c])).length = (utf16 cs).length + Text.units16 c := by
  unfold utf16 Text.units16
  rw [List.flatMap_append, List.length_append, List.flatMap_singleton]
  split <;> rfl

/-! ## Cursors -/

/-- **`k.After passed`** — the cursor stands where one comes to from the beginning of a text by passing
the characters `passed`. -/
structure Cursor.After (k : Cursor) (passed : List Char) : Prop where
  line : k.line = lineEnds passed
  column : k.column = (lastLine passed).length
  column16 : k.column16 = (utf16 (lastLine passed)).length
  offset : k.offset = (String.ofList passed).utf8ByteSize
  afterReturn : k.afterReturn = decide (passed.getLast? = some '\r')

namespace Cursor.After

variable {k : Cursor} {passed : List Char}

/-- A new cursor has passed nothing. -/
theorem start : ({} : Cursor).After [] := ⟨rfl, rfl, rfl, rfl, rfl⟩

/-- One more character has as many bytes more as it has itself. -/
theorem bytes_concat (h : k.After passed) (c : Char) :
    k.offset + c.utf8Size = (String.ofList (passed ++ [c])).utf8ByteSize := by
  rw [String.ofList_append, String.utf8ByteSize_append, ← h.offset]
  show _ = k.offset + (String.singleton c).utf8ByteSize
  rw [String.utf8ByteSize_singleton]

/-- A line end begins a new line, unless it is the line feed of a pair. -/
theorem newLine (h : k.After passed) {c : Char} (ends : isLineEnd c = true)
    (alone : ¬ (c = '\n' ∧ passed.getLast? = some '\r')) :
    Cursor.After ⟨k.line + 1, 0, 0, k.offset + c.utf8Size, c = '\r'⟩ (passed ++ [c]) where
  line := by
    show k.line + 1 = _
    rw [lineEnds_concat, ends, h.line]
    simp [alone]
  column := by
    rw [lastLine_concat, ends]
    rfl
  column16 := by
    rw [lastLine_concat, ends]
    rfl
  offset := h.bytes_concat c
  afterReturn := by simp

/-- The line feed of a pair stays on the line that the carriage return has begun, at its start. -/
theorem sameLine (h : k.After passed) (returned : passed.getLast? = some '\r') :
    Cursor.After ⟨k.line, k.column, k.column16, k.offset + '\n'.utf8Size, false⟩ (passed ++ ['\n']) := by
  obtain ⟨earlier, rfl⟩ := List.getLast?_eq_some_iff.1 returned
  have empty : lastLine (earlier ++ ['\r']) = [] := lastLine_concat earlier '\r'
  have column := h.column
  have column16 := h.column16
  rw [empty] at column column16
  refine ⟨?_, ?_, ?_, h.bytes_concat '\n', ?_⟩
  · rw [lineEnds_concat, returned]
    exact h.line
  · rw [lastLine_concat]
    exact column
  · rw [lastLine_concat]
    exact column16
  · simp

/-- Any other character comes to the end of the line. -/
theorem onLine (h : k.After passed) {c : Char} (inner : isLineEnd c = false) :
    Cursor.After ⟨k.line, k.column + 1, k.column16 + Text.units16 c, k.offset + c.utf8Size, false⟩
      (passed ++ [c]) where
  line := by
    rw [lineEnds_concat, inner]
    exact h.line
  column := by simp [lastLine_concat, inner, h.column]
  column16 := by simp [lastLine_concat, inner, h.column16, length_utf16_concat]
  offset := h.bytes_concat c
  afterReturn := by
    have : c ≠ '\r' := by
      rintro rfl
      cases inner
    simp [this]

/-- **One character more** — passing a character keeps the cursor a function of what it has passed. -/
theorem step (h : k.After passed) (c : Char) : (k.step c).After (passed ++ [c]) := by
  unfold Cursor.step
  split
  · rename_i feed
    subst feed
    have flag := h.afterReturn
    split
    · rename_i after
      exact h.sameLine (of_decide_eq_true (flag.symm.trans after))
    · rename_i after
      have fresh : passed.getLast? ≠ some '\r' :=
        of_decide_eq_false (flag.symm.trans (Bool.eq_false_iff.2 after))
      exact h.newLine rfl fun pair => fresh pair.2
  · rename_i feed
    split
    · rename_i ret
      subst ret
      exact h.newLine rfl fun pair => feed pair.1
    · rename_i ret
      exact h.onLine (by simp [isLineEnd, feed, ret])

/-- **Several characters more** — so does passing several of them. -/
theorem advance (h : k.After passed) (cs : List Char) : (k.advance cs).After (passed ++ cs) := by
  induction cs generalizing k passed with
  | nil =>
    rw [List.append_nil]
    exact h
  | cons c cs ih =>
    have next := ih (h.step c)
    rwa [List.append_assoc] at next

end Cursor.After

/-! ## Positions in a text -/

/-- **`p.After before`** — the position is right behind the text `before`, from which it can be told. -/
structure Position.After (p : Position) (before : String) : Prop where
  offset : p.offset = before.utf8ByteSize
  line : p.line = lineEnds before.toList
  column : p.column = (lastLine before.toList).length
  column16 : p.column16 = some (utf16 (lastLine before.toList)).length

/-- The place of a cursor is behind what it has passed. -/
theorem Cursor.After.position {k : Cursor} {passed : List Char} (h : k.After passed) :
    k.position.After (String.ofList passed) where
  offset := h.offset
  line := by rw [String.toList_ofList]; exact h.line
  column := by rw [String.toList_ofList]; exact h.column
  column16 := by rw [String.toList_ofList]; exact congrArg some h.column16

/-- **`p.Within source`** — the position is somewhere in the text, between two of its characters or at
an end, and behind what comes before. -/
def Position.Within (p : Position) (source : String) : Prop :=
  ∃ before after, source = before ++ after ∧ p.After before

/-- Lexemes that are placed from a cursor on begin and end within the text. -/
theorem placed_within (file : Option String) {k : Cursor} {passed : List Char} (h : k.After passed)
    (ls : List Lexeme) :
    ∀ piece ∈ placed file k ls,
      piece.span.start.Within (String.ofList passed ++ lexemeText ls) ∧
        piece.span.stop.Within (String.ofList passed ++ lexemeText ls) := by
  induction ls generalizing k passed with
  | nil =>
    intro piece hpiece
    obtain rfl := List.mem_singleton.1 hpiece
    exact ⟨⟨_, _, rfl, h.position⟩, ⟨_, _, rfl, h.position⟩⟩
  | cons l ls ih =>
    have next := h.advance l.text
    have whole : String.ofList passed ++ lexemeText (l :: ls) =
        String.ofList (passed ++ l.text) ++ lexemeText ls := by
      rw [lexemeText_cons, String.ofList_append, String.append_assoc]
    refine List.forall_mem_cons.2 ⟨⟨⟨_, _, rfl, h.position⟩, ?_⟩, ?_⟩
    · exact ⟨_, _, whole, next.position⟩
    · rw [whole]
      exact ih next

/-- **Positions are functions of what comes before** — wherever a token or a piece of trivia of a text
begins or ends, the text splits there between two characters. The line counts the line ends before the
place, and the columns are the characters and the UTF-16 code units after the last of them. -/
theorem tokenize_places (source : String) (file : Option String) :
    ∀ piece ∈ pieces (tokenize source file),
      piece.span.start.Within source ∧ piece.span.stop.Within source := by
  have within := placed_within file .start (lexemes source.toList)
  rwa [lexemeText_lexemes, String.ofList_nil, String.empty_append, ← pieces_tokenize] at within

deriving instance DecidableEq for Piece

/-- A token on the second line, which begins after a pair, with a character of two units before it. -/
theorem tokenize_places_second_line :
    (⟨"x", ⟨⟨1, 4, some 5, 13⟩, ⟨1, 5, some 6, 14⟩, none⟩⟩ : Piece) ∈
        pieces (tokenize "a //\r\n\"𝄞\" x") ∧
      Position.Within ⟨1, 4, some 5, 13⟩ "a //\r\n\"𝄞\" x" ∧
      Position.Within ⟨1, 5, some 6, 14⟩ "a //\r\n\"𝄞\" x" := by
  have here : (⟨"x", ⟨⟨1, 4, some 5, 13⟩, ⟨1, 5, some 6, 14⟩, none⟩⟩ : Piece) ∈
      pieces (tokenize "a //\r\n\"𝄞\" x") := by
    decide +kernel
  exact ⟨here, tokenize_places _ none _ here⟩

end DeferFetch
