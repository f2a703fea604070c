/-
# DeferFetch.Proofs.Lexing.Tiling — the pieces of a text and where they stand.

The trivia and the tokens of a text, in order, are its pieces. They tile the text: the first begins
at its beginning, each begins where the one before it ends, the last ends at its end, and the text at
the span of each is the text of the piece. What is proved here of the tokens that lexemes are
assembled to follows the cursor from one lexeme to the next.
-/
import DeferFetch.Proofs.Lexing.Reading

namespace DeferFetch

/-! ## Pieces -/

/-- **`Piece`** — a piece of trivia or a token, as far as its place in a text goes. -/
structure Piece where
  text : String
  span : Span

/-- **`t.pieces`** — the trivia before a token, and then the token. -/
def Token.pieces (t : Token) : List Piece :=
  t.trivia.map (fun trivia => ⟨trivia.text, trivia.span⟩) ++ [⟨t.text, t.span⟩]

/-- The pieces of several tokens in order. -/
def pieces (ts : List Token) : List Piece := ts.flatMap Token.pieces

/-- **`Tiles start ps stop`** — the bytes of the pieces follow each other from `start` to `stop`. -/
def Tiles : Nat → List Piece → Nat → Prop
  | start, [], stop => start = stop
  | start, p :: ps, stop => p.span.start.offset = start ∧ Tiles p.span.stop.offset ps stop

/-- **`p.StandsIn source`** — the text at the span of the piece is the text of the piece. -/
def Piece.StandsIn (source : String) (p : Piece) : Prop :=
  ∃ before after, source = before ++ p.text ++ after ∧
    p.span.start.offset = before.utf8ByteSize ∧
    p.span.stop.offset = (before ++ p.text).utf8ByteSize

/-! ## Lexemes in their places -/

/-- Passing some characters moves a cursor on by their bytes. -/
theorem Cursor.advance_offset (k : Cursor) (cs : List Char) :
    (k.advance cs).offset = k.offset + (String.ofList cs).utf8ByteSize := by
  induction cs generalizing k with
  | nil => simp
  | cons c cs ih =>
    have hcons : String.ofList (c :: cs) = String.singleton c ++ String.ofList cs :=
      String.toList_injective (by simp)
    rw [Cursor.advance_cons, ih, Cursor.step_offset, hcons, String.utf8ByteSize_append,
      String.utf8ByteSize_singleton, Nat.add_assoc]

/-- **`placed file k ls`** — the pieces that lexemes become when the first of them stands at `k`; the
last piece is the empty one at the end. -/
def placed (file : Option String) : Cursor → List Lexeme → List Piece
  | k, [] => [⟨"", k.spanTo k file⟩]
  | k, l :: ls =>
    let next := k.advance l.text
    ⟨String.ofList l.text, k.spanTo next file⟩ :: placed file next ls

/-- **`l.Spelled`** — a lexeme that is a token has the text of that. -/
def Lexeme.Spelled (l : Lexeme) : Prop := ∀ kind, l.kind = .token kind → kind.text.toList = l.text

/-- The lexemes of a text are spelled as their tokens are. -/
theorem spelled_lexemes (cs : List Char) : ∀ l ∈ lexemes cs, l.Spelled := by
  fun_induction lexemes cs with
  | case1 => exact List.forall_mem_nil _
  | case2 c cs scanned ih =>
    refine List.forall_mem_cons.2 ⟨fun kind hk => ?_, ih⟩
    exact scan_text c cs kind hk

/-- The pieces of assembled tokens are the lexemes in their places, after the trivia that waited. -/
theorem pieces_assemble {ls : List Lexeme} (h : ∀ l ∈ ls, l.Spelled) (file : Option String)
    (k : Cursor) (pending : List Trivia) :
    pieces (assemble file k pending ls) =
      pending.map (fun trivia => ⟨trivia.text, trivia.span⟩) ++ placed file k ls := by
  induction ls generalizing k pending with
  | nil => simp [assemble, pieces, Token.pieces, placed, Token.text, TokenKind.text]
  | cons l ls ih =>
    obtain ⟨hl, hls⟩ := List.forall_mem_cons.1 h
    obtain ⟨kind | kind, text⟩ := l
    · rw [assemble, ih hls, placed]
      simp
    · have hkind : kind.text.toList = text := hl kind rfl
      have htext : kind.text = String.ofList text := by rw [← hkind, String.ofList_toList]
      have more := ih hls (k.advance text) []
      simp only [pieces] at more
      rw [assemble, pieces, List.flatMap_cons, more, placed]
      simp [Token.pieces, Token.text, htext]

/-- The text of several lexemes. -/
def lexemeText (ls : List Lexeme) : String := String.ofList (ls.flatMap Lexeme.text)

theorem lexemeText_cons (l : Lexeme) (ls : List Lexeme) :
    lexemeText (l :: ls) = String.ofList l.text ++ lexemeText ls := by
  simp [lexemeText]

/-- Placed lexemes tile the text from the cursor on. -/
theorem placed_tiles (file : Option String) (k : Cursor) (ls : List Lexeme) :
    Tiles k.offset (placed file k ls) (k.offset + (lexemeText ls).utf8ByteSize) := by
  induction ls generalizing k with
  | nil => exact ⟨rfl, rfl⟩
  | cons l ls ih =>
    have next := ih (k.advance l.text)
    rw [Cursor.advance_offset] at next
    rw [lexemeText_cons, String.utf8ByteSize_append, ← Nat.add_assoc]
    refine ⟨rfl, ?_⟩
    show Tiles (k.advance l.text).offset _ _
    rw [Cursor.advance_offset]
    exact next

/-- Placed lexemes stand in the text, when the text before the cursor is `before`. -/
theorem placed_standsIn (file : Option String) {k : Cursor} {before : String}
    (hk : k.offset = before.utf8ByteSize) (ls : List Lexeme) :
    ∀ p ∈ placed file k ls, p.StandsIn (before ++ lexemeText ls) := by
  induction ls generalizing k before with
  | nil =>
    intro p hp
    obtain rfl := List.mem_singleton.1 hp
    exact ⟨before, "", by simp [lexemeText], hk, hk.trans (by simp)⟩
  | cons l ls ih =>
    have hnext : (k.advance l.text).offset = (before ++ String.ofList l.text).utf8ByteSize := by
      rw [Cursor.advance_offset, hk, String.utf8ByteSize_append]
    rw [lexemeText_cons, ← String.append_assoc]
    exact List.forall_mem_cons.2 ⟨⟨before, lexemeText ls, rfl, hk, hnext⟩, ih hnext⟩

/-! ## Tokens of a text -/

/-- A token that can be read has a text. -/
theorem Legible.text_ne_empty {ts : List Token} {tail : List Char} (h : Legible ts tail) :
    ∀ t ∈ ts, t.text ≠ "" := by
  induction ts with
  | nil => exact List.forall_mem_nil _
  | cons t ts ih =>
    obtain ⟨-, ⟨c, cs, htext, -⟩, hmore⟩ := h
    refine List.forall_mem_cons.2 ⟨fun hempty => ?_, ih hmore⟩
    rw [show t.kind.text = "" from hempty] at htext
    cases htext

/-- **Nothing is lost** — the tokens of a text print as the text. -/
theorem print_tokenize (source : String) (file : Option String) :
    print (tokenize source file) = source := by
  obtain ⟨body, e, htokens, he, -, -, -, hspell⟩ := legible_tokenize source file
  refine String.toList_injective ?_
  rw [htokens, toList_print, spelling_append, spelling_cons, he, ← hspell]
  simp [TokenKind.text]

theorem lexemeText_lexemes (source : String) : lexemeText (lexemes source.toList) = source := by
  rw [lexemeText, lexemes_flatten, String.ofList_toList]

/-- The pieces of a text are its lexemes, placed from the beginning on. -/
theorem pieces_tokenize (source : String) (file : Option String) :
    pieces (tokenize source file) = placed file {} (lexemes source.toList) :=
  pieces_assemble (spelled_lexemes source.toList) file {} []

/-- The last token of a text ends it, and all others have a text of their own. -/
theorem exists_body_tokenize (source : String) (file : Option String) :
    ∃ body e, tokenize source file = body ++ [e] ∧ e.kind = .eof ∧
      ∀ t ∈ body, t.kind ≠ .eof ∧ t.text ≠ "" := by
  obtain ⟨body, e, htokens, he, hbody, hlegible, -⟩ := legible_tokenize source file
  exact ⟨body, e, htokens, he, fun t ht => ⟨hbody t ht, hlegible.text_ne_empty t ht⟩⟩

theorem tiles_tokenize (source : String) (file : Option String) :
    Tiles 0 (pieces (tokenize source file)) source.utf8ByteSize := by
  have tiles := placed_tiles file {} (lexemes source.toList)
  rwa [lexemeText_lexemes, show ({} : Cursor).offset = 0 from rfl, Nat.zero_add, ← pieces_tokenize]
    at tiles

theorem standsIn_tokenize (source : String) (file : Option String) :
    ∀ p ∈ pieces (tokenize source file), p.StandsIn source := by
  have stands := @placed_standsIn file {} "" rfl (lexemes source.toList)
  rwa [lexemeText_lexemes, String.empty_append, ← pieces_tokenize] at stands

/-- **The tokens of a text tile it** — there are finitely many; the last one, and no other, ends the
text, and all others have a text of their own. Trivia and tokens follow each other without a gap from
the first byte to the last, the text at the span of each is its own, and together they are the
text. -/
theorem tokenize_tiles (source : String) (file : Option String) :
    (∃ body e, tokenize source file = body ++ [e] ∧ e.kind = .eof ∧
      ∀ t ∈ body, t.kind ≠ .eof ∧ t.text ≠ "") ∧
    Tiles 0 (pieces (tokenize source file)) source.utf8ByteSize ∧
    (∀ p ∈ pieces (tokenize source file), p.StandsIn source) ∧
    String.join ((pieces (tokenize source file)).map Piece.text) = source := by
  have hjoin : String.join ((pieces (tokenize source file)).map Piece.text) =
      print (tokenize source file) := by
    refine String.toList_injective ?_
    simp [pieces, Token.pieces, print, Token.source, Token.leadingText, String.toList_join,
      List.flatMap_map, List.map_flatMap, List.flatMap_assoc]
  refine ⟨exists_body_tokenize source file, tiles_tokenize source file, standsIn_tokenize source file,
    ?_⟩
  rw [hjoin, print_tokenize]

/-! ## Tokens by their bytes -/

@[simp] theorem print_nil : print [] = "" := rfl

@[simp] theorem print_cons (t : Token) (ts : List Token) : print (t :: ts) = t.source ++ print ts := by
  unfold print
  rw [List.map_cons, String.join_cons]

@[simp] theorem print_append (ts us : List Token) : print (ts ++ us) = print ts ++ print us := by
  unfold print
  rw [List.map_append, String.join_append]

/-- **`StandFrom i ts`** — what precedes the tokens and the tokens themselves follow each other from byte
`i` on, and each token spans its own text. -/
def StandFrom : Nat → List Token → Prop
  | _, [] => True
  | i, t :: ts =>
    t.span.start.offset = i + t.leadingText.utf8ByteSize ∧
      t.span.stop.offset = i + t.source.utf8ByteSize ∧
      StandFrom (i + t.source.utf8ByteSize) ts

theorem standFrom_append {i : Nat} {ts us : List Token} :
    StandFrom i (ts ++ us) ↔ StandFrom i ts ∧ StandFrom (i + (print ts).utf8ByteSize) us := by
  induction ts generalizing i with
  | nil => simp [StandFrom]
  | cons t ts ih =>
    rw [List.cons_append, StandFrom, StandFrom, ih, print_cons, String.utf8ByteSize_append,
      Nat.add_assoc, and_assoc, and_assoc]

theorem tiles_append {i j : Nat} {ps qs : List Piece} :
    Tiles i (ps ++ qs) j ↔ ∃ k, Tiles i ps k ∧ Tiles k qs j := by
  induction ps generalizing i with
  | nil => simp [Tiles]
  | cons p ps ih =>
    rw [List.cons_append, Tiles, ih]
    simp only [Tiles, and_assoc, exists_and_left]

/-- **`p.Sized`** — the span of a piece has as many bytes as its text. -/
def Piece.Sized (p : Piece) : Prop :=
  p.span.stop.offset = p.span.start.offset + p.text.utf8ByteSize

theorem Piece.StandsIn.sized {source : String} {p : Piece} (h : p.StandsIn source) : p.Sized := by
  obtain ⟨before, after, -, start, stop⟩ := h
  rw [Sized, stop, start, String.utf8ByteSize_append]

/-- Pieces that tile some bytes have the texts of these bytes. -/
theorem Tiles.size {i j : Nat} {ps : List Piece} (h : Tiles i ps j) (sized : ∀ p ∈ ps, p.Sized) :
    j = i + (String.join (ps.map Piece.text)).utf8ByteSize := by
  induction ps generalizing i with
  | nil =>
    show j = i + 0
    exact h.symm
  | cons p ps ih =>
    obtain ⟨start, rest⟩ := h
    obtain ⟨hp, hps⟩ := List.forall_mem_cons.1 sized
    have hp : p.span.stop.offset = i + p.text.utf8ByteSize := start ▸ hp
    rw [ih rest hps, hp, List.map_cons, String.join_cons, String.utf8ByteSize_append, Nat.add_assoc]

/-- Tokens whose pieces tile some bytes stand there. -/
theorem standFrom_of_tiles {i j : Nat} {ts : List Token} (h : Tiles i (pieces ts) j)
    (sized : ∀ p ∈ pieces ts, p.Sized) : StandFrom i ts := by
  induction ts generalizing i with
  | nil => trivial
  | cons t ts ih =>
    rw [pieces, List.flatMap_cons, Token.pieces] at h sized
    obtain ⟨k, own, rest⟩ := tiles_append.1 h
    obtain ⟨m, before, start, stop⟩ := tiles_append.1 own
    obtain ⟨ownSized, restSized⟩ := List.forall_mem_append.1 sized
    obtain ⟨beforeSized, itselfSized⟩ := List.forall_mem_append.1 ownSized
    have leading : m = i + t.leadingText.utf8ByteSize := by
      have := before.size beforeSized
      rwa [List.map_map] at this
    have itself : t.span.stop.offset = t.span.start.offset + t.text.utf8ByteSize :=
      itselfSized _ (List.mem_singleton.2 rfl)
    have start : t.span.start.offset = m := start
    have stop : t.span.stop.offset = k := stop
    have source : t.source.utf8ByteSize = t.leadingText.utf8ByteSize + t.text.utf8ByteSize :=
      String.utf8ByteSize_append ..
    refine ⟨by omega, by omega, ?_⟩
    have next : k = i + t.source.utf8ByteSize := by omega
    rw [← next]
    exact ih rest restSized

/-- The tokens of a text stand from its beginning on. -/
theorem standFrom_tokenize (source : String) (file : Option String) :
    StandFrom 0 (tokenize source file) :=
  standFrom_of_tiles (tiles_tokenize source file) fun p hp => (standsIn_tokenize source file p hp).sized

end DeferFetch
