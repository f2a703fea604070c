/-
# DeferFetch.Proofs.Lexing.Trim — trimming the text of tokens.

Cutting the blanks off both ends of a piece of source cuts no token and no comment: what goes are
blanks before the first token. The blanks that are cut are those of Unicode, which are not those
between tokens; but no token begins or ends with one of either kind.
-/
import DeferFetch.Proofs.Lexing.Words
import DeferFetch.Proofs.Grammar.Takes

namespace DeferFetch

/-! ## Characters -/

/-- A character that is covered lies in one of the ranges. -/
theorem exists_range_of_covers {ranges : List Text.CodeRange} {n : Nat}
    (h : Text.covers ranges n = true) : ∃ r ∈ ranges, r.1 ≤ n ∧ n ≤ r.2 := by
  induction ranges with
  | nil => cases h
  | cons r ranges ih =>
    obtain ⟨low, high⟩ := r
    rw [Text.covers] at h
    split at h
    · cases h
    · rename_i hlow
      split at h
      · rename_i hhigh
        exact ⟨_, List.mem_cons_self, Nat.le_of_not_lt hlow, hhigh⟩
      · obtain ⟨r, hr, hn⟩ := ih h
        exact ⟨r, List.mem_cons_of_mem _ hr, hn⟩

/-- White space is a barrier. -/
theorem IsBarrier.of_isBlank {c : Char} (h : Text.isBlank c = true) : IsBarrier c := by
  have listed : Text.whiteSpaceRanges.all (fun r =>
      (List.range' r.1 (r.2 + 1 - r.1)).all fun n => barriers.any fun d => d.toNat = n) = true := by
    decide
  obtain ⟨r, hr, hlow, hhigh⟩ := exists_range_of_covers h
  have hn := List.all_eq_true.1 (List.all_eq_true.1 listed r hr) c.toNat
    (List.mem_range'_1.2 ⟨hlow, by omega⟩)
  obtain ⟨d, hd, heq⟩ := List.any_eq_true.1 hn
  rw [← Char.toNat_inj.1 (of_decide_eq_true heq)]
  exact hd

/-- **`Solid cs`** — the characters neither begin nor end with white space. -/
def Solid (cs : List Char) : Prop :=
  (∀ d, cs.head? = some d → Text.isBlank d = false) ∧
    ∀ d, cs.getLast? = some d → Text.isBlank d = false

theorem Solid.of_clear {cs : List Char} (h : ∀ d ∈ cs, ¬ EndsToken d) : Solid cs := by
  have clear {d : Char} (hd : d ∈ cs) : Text.isBlank d = false := by
    cases hb : Text.isBlank d with
    | false => rfl
    | true => exact absurd (IsBarrier.of_isBlank hb).endsToken (h d hd)
  exact ⟨fun d hd => clear (List.mem_of_mem_head? hd), fun d hd => clear (List.mem_of_mem_getLast? hd)⟩

/-! ## What is scanned -/

/-- A cut that stops at barriers takes none. -/
theorem StopsAtBarriers.clear {cut : (cs : List Char) → Cut cs} (h : StopsAtBarriers cut)
    (cs : List Char) : ∀ d ∈ (cut cs).taken, ¬ EndsToken d := by
  intro d hd ends
  obtain ⟨before, after, hsplit⟩ := List.append_of_mem hd
  have whole : cs = before ++ d :: (after ++ (cut cs).rest) := by
    rw [← List.cons_append, ← List.append_assoc, ← hsplit, (cut cs).whole]
  obtain ⟨taken, ys, stops⟩ := h before
  obtain ⟨ht, hr⟩ := stops d (after ++ (cut cs).rest) ends
  rw [← whole] at ht hr
  have whole' := (cut cs).whole
  rw [ht, hr] at whole'
  have lengths := congrArg List.length (whole'.trans whole)
  have taken_length := congrArg List.length (ht.symm.trans hsplit)
  simp only [List.length_append, List.length_cons] at lengths taken_length
  omega

/-- The text of a scanned token, unless that is an error. -/
def Scan.Solid (c : Char) {cs : List Char} (s : Scan cs) : Prop :=
  ∀ k, s.kind = .token k → k.isError = false → DeferFetch.Solid (c :: s.cut.taken)

namespace Scan.Solid

theorem trivia {c : Char} {cs : List Char} {kind : TriviaKind} {cut : Cut cs} :
    Scan.Solid c ⟨.trivia kind, cut⟩ := fun _ h => by cases h

/-- What ends no token consists of no white space. -/
theorem of_clear {c : Char} {cs : List Char} {s : Scan cs} (hc : ¬ EndsToken c)
    (h : ∀ d ∈ s.cut.taken, ¬ EndsToken d) : s.Solid c :=
  fun _ _ _ => .of_clear (List.forall_mem_cons.2 ⟨hc, h⟩)

theorem number {c : Char} {cs : List Char} (hc : ¬ EndsToken c) : Scan.Solid c (.number c cs) := by
  have stops : StopsAtBarriers fun cs => (scanNumber c cs).2 := fun xs =>
    (scanNumber_stops c xs).choose_spec.2
  exact of_clear hc (stops.clear cs)

/-- A closed literal on one line ends in its quote. -/
theorem getLast?_throughQuote {quote : Char} {cs : List Char}
    (closed : (throughQuote quote cs).1 = true) :
    (throughQuote quote cs).2.taken.getLast? = some quote := by
  fun_induction throughQuote quote cs with
  | case1 => simp at closed
  | case2 => simp at closed
  | case3 c cs hc ok cut hr ih =>
    rw [hr] at ih
    simp [Cut.cons, List.getLast?_cons, ih closed]
  | case4 => simp at closed
  | case5 cs _ hl => simp [Cut.cons, Cut.empty]
  | case6 c cs hesc hc hne ok cut hr ih =>
    rw [hr] at ih
    simp [Cut.cons, List.getLast?_cons, ih closed]

/-- A closed text block ends in a quote. -/
theorem getLast?_throughTripleQuote {cs : List Char} (closed : (throughTripleQuote cs).1 = true) :
    (throughTripleQuote cs).2.taken.getLast? = some '"' := by
  fun_induction throughTripleQuote cs with
  | case1 => simp at closed
  | case2 c cs ok cut hr ih =>
    rw [hr] at ih
    simp [Cut.cons, List.getLast?_cons, ih closed]
  | case3 => simp [Cut.cons, Cut.empty]
  | case4 c cs _ _ ok cut hr ih =>
    rw [hr] at ih
    simp [Cut.cons, List.getLast?_cons, ih closed]

/-- A literal between quotes, unless it is not closed. -/
theorem literal {quote : Char} (hq : Text.isBlank quote = false) {cs : List Char}
    {kind : String → TokenKind} {cause : LexicalError} {scanned : Bool × Cut cs}
    (h : scanned.1 = true → scanned.2.taken.getLast? = some quote) :
    Scan.Solid quote (.literal quote kind cause scanned) := by
  intro k hk valid
  cases closed : scanned.1 with
  | false =>
    simp only [Scan.literal, Scan.spelled, closed] at hk
    cases hk
    cases valid
  | true =>
    refine ⟨fun d hd => ?_, fun d hd => ?_⟩
    · cases hd
      exact hq
    · have last : (quote :: scanned.2.taken).getLast? = some quote := by
        simp [List.getLast?_cons, h closed]
      rw [show (Scan.literal quote kind cause scanned).cut.taken = scanned.2.taken from rfl, last] at hd
      cases hd
      exact hq

theorem string {cs : List Char} : Scan.Solid '"' (.string cs) := by
  have quote : Text.isBlank '"' = false := by decide
  unfold Scan.string
  split
  · rename_i body
    refine literal quote fun closed => ?_
    simp [Cut.cons, List.getLast?_cons, getLast?_throughTripleQuote closed]
  · exact literal quote getLast?_throughQuote

theorem operator {c : Char} {cs : List Char} : Scan.Solid c (.operator c cs) := by
  unfold Scan.operator
  split
  · rename_i op hop
    have solid : ∀ op ∈ operators, op ≠ [] ∧ op.head?.any Text.isBlank = false ∧
        op.getLast?.any Text.isBlank = false := forall_of_all (by decide)
    obtain ⟨ne, first, last⟩ := solid op (List.mem_of_find?_eq_some hop)
    have found : op.isPrefixOf (c :: cs) = true :=
      List.find?_some (p := fun op : List Char => op.isPrefixOf (c :: cs)) hop
    obtain ⟨rest, hrest⟩ := List.isPrefixOf_iff_prefix.1 found
    cases op with
    | nil => exact absurd rfl ne
    | cons d op =>
      obtain ⟨rfl, rfl⟩ := List.cons.inj hrest
      intro k _ _
      have taken : (Scan.spelled d TokenKind.operator
          (Cut.first ((d :: op).length - 1) (op ++ rest))).cut.taken = op := by
        simp [Scan.spelled, Cut.first]
      have ends {e : Option Char} (he : e.any Text.isBlank = false) :
          ∀ b, e = some b → Text.isBlank b = false := by
        rintro b rfl
        exact he
      exact Eq.mpr (congrArg (fun cs => DeferFetch.Solid (d :: cs)) taken) ⟨ends first, ends last⟩
  · intro k hk valid
    cases hk
    cases valid

end Scan.Solid

/-- The text of a separator is its character, which is no white space. -/
theorem separatorKind?_solid {c : Char} {k : TokenKind} (h : separatorKind? c = some k) :
    Text.isBlank c = false := by
  have listed : ∀ d ∈ ['(', ')', '\x7b', '\x7d', '[', ']', ';', ',', '@', '?', '<', '>'],
      Text.isBlank d = false := forall_of_all (by decide)
  unfold separatorKind? at h
  split at h <;> first | exact listed _ (by decide) | cases h

/-- A token of one character. -/
theorem Scan.Solid.one {c : Char} (h : Text.isBlank c = false) {cs : List Char} {k : TokenKind} :
    Scan.Solid c (⟨.token k, .empty cs⟩ : Scan cs) := by
  intro _ _ _
  refine ⟨fun d hd => ?_, fun d hd => ?_⟩
  · cases hd
    exact h
  · cases hd
    exact h

/-- **Tokens are solid** — no token begins or ends with white space. -/
theorem scan_solid (c : Char) (cs : List Char) : (scan c cs).Solid c := by
  have mark : ∀ d ∈ [':', '=', '.', '\''], Text.isBlank d = false := forall_of_all (by decide)
  -- a mark that is repeated, or followed by itself
  have repeated {d : Char} (hd : Text.isBlank d = false) {n : Nat} {k : TokenKind}
      (h : ∀ e ∈ cs.take n, e = d) : Scan.Solid d (⟨.token k, .first n cs⟩ : Scan cs) := by
    intro _ _ _
    refine ⟨fun e he => ?_, fun e he => ?_⟩
    · cases he
      exact hd
    · rcases List.mem_cons.1 (List.mem_of_mem_getLast? he) with rfl | he
      · exact hd
      · rw [h e he]
        exact hd
  have single {d : Char} (h : cs.head? = some d) : ∀ e ∈ cs.take 1, e = d := by
    rw [List.take_one, h]
    simp
  have scanned := scanned_scan c cs
  generalize scan c cs = s at scanned ⊢
  cases scanned with
  | blank | lineComment => exact .trivia
  | blockComment =>
    intro k hk valid
    obtain ⟨raw, cause, rfl⟩ := Scan.blockComment_kind hk
    cases valid
  | separator known => exact .one (separatorKind?_solid known)
  | doubleColon first next =>
    subst first
    exact repeated (mark _ (by decide)) (single next)
  | equality first next =>
    subst first
    intro k hk valid
    exact repeated (k := k) (mark _ (by decide)) (single next) k rfl valid
  | colon first | equals first | dot first =>
    subst first
    exact .one (mark _ (by decide))
  | fraction first =>
    subst first
    exact .number (by decide)
  | ellipsis first dots =>
    obtain ⟨rest, rfl⟩ := dots
    subst first
    refine repeated (mark _ (by decide)) ?_
    simp
  | string first =>
    subst first
    exact .string
  | character first =>
    subst first
    exact .literal (mark _ (by decide)) Scan.Solid.getLast?_throughQuote
  | number digit =>
    refine .number fun ends => ?_
    rw [ends.inert.2.2.2.2.2] at digit
    cases digit
  | word start =>
    refine .of_clear (fun ends => ?_) ((StopsAtBarriers.takeWhile fun d hd => hd.inert.1).clear cs)
    rw [ends.inert.2.1] at start
    cases start
  | operator => exact .operator

/-- Trimming keeps the text of a token. -/
theorem TokenKind.ReadsBefore.solid {k : TokenKind} {rest : List Char} (h : k.ReadsBefore rest)
    (valid : k.isError = false) : Solid k.text.toList := by
  obtain ⟨c, cs, ht, hk⟩ := h
  have := scan_solid c (cs ++ rest) k hk valid
  rwa [TokenKind.ReadsBefore.taken ht hk, ← ht] at this

/-! ## Trimming gaps -/

/-- A gap that does not begin with a blank begins with a comment. -/
theorem Gap.head_eq_slash {c : Char} {cs : List Char} (h : Gap (c :: cs))
    (hc : isJavaBlank c = false) : c = '/' := by
  have sign : BeginsToken '@' [] := ⟨.at, by decide⟩
  obtain ⟨ls, hls, hlex⟩ := h '@' [] sign
  rw [List.cons_append, lexemes_cons] at hlex
  cases ls with
  | nil =>
    have texts := congrArg (List.flatMap Lexeme.text) hlex
    rw [← lexemes_cons, List.nil_append, lexemes_flatten, lexemes_flatten] at texts
    have := congrArg List.length texts
    simp at this
  | cons l ls =>
    obtain ⟨rfl, -⟩ := List.cons.inj hlex
    have trivia := hls _ List.mem_cons_self
    unfold Lexeme.isTrivia at trivia
    split at trivia
    · rename_i kind hkind
      rcases scan_trivia hkind with ⟨-, hb, -⟩ | ⟨-, hs, -⟩ | ⟨-, hs, -⟩
      · rw [hc] at hb
        cases hb
      · exact hs
      · exact hs
    · cases trivia

/-- A closed comment ends in a slash. -/
theorem getLast?_throughCommentEnd {cs : List Char} {cut : Cut cs}
    (closed : throughCommentEnd cs = some cut) : cut.taken.getLast? = some '/' := by
  fun_induction throughCommentEnd cs with
  | case1 => cases closed
  | case2 cs =>
    cases closed
    rfl
  | case3 c cs _ ih =>
    obtain ⟨cut, found, rfl⟩ := Option.map_eq_some_iff.1 closed
    simp [Cut.cons, List.getLast?_cons, ih found]

/-- Trivia right before a token end in a blank or a slash. -/
theorem endsToken_of_scan_trivia {x c d : Char} {taken cs : List Char} {kind : TriviaKind}
    (token : BeginsToken c cs) (hk : (scan x (taken ++ c :: cs)).kind = .trivia kind)
    (ht : (scan x (taken ++ c :: cs)).cut.taken = taken) (last : (x :: taken).getLast? = some d) :
    EndsToken d := by
  rcases scan_trivia hk with ⟨-, hx, hw⟩ | ⟨-, -, -, hw⟩ | ⟨-, -, body, cut, -, closed, hw⟩
  · obtain ⟨blanks, -⟩ := head?_of_takeWhile (ht.symm.trans hw) rfl
    have all : ∀ b ∈ x :: taken, isJavaBlank b = true := List.forall_mem_cons.2 ⟨hx, blanks⟩
    exact (IsBarrier.of_isJavaBlank (all d (List.mem_of_getLast? last))).endsToken
  · -- a comment on one line ends before a line end, which begins no token
    obtain ⟨-, next⟩ := head?_of_takeWhile (ht.symm.trans hw) rfl
    have lineEnd := next c rfl
    have blank := token.not_trivia.1
    simp only [Bool.not_eq_false', isLineEnd, Bool.or_eq_true, decide_eq_true_eq] at lineEnd
    rcases lineEnd with rfl | rfl <;> simp [isJavaBlank] at blank
  · rw [← ht, hw, List.getLast?_cons_cons, List.getLast?_cons, getLast?_throughCommentEnd closed] at last
    cases last
    decide

/-- **A gap ends in a blank or a slash**, if there is anything in it. -/
theorem Gap.endsToken_last {xs : List Char} (h : Gap xs) {d : Char} (last : xs.getLast? = some d) :
    EndsToken d := by
  have sign : BeginsToken '@' [] := ⟨.at, by decide⟩
  obtain ⟨ls, hls, read⟩ := h '@' [] sign
  clear h
  induction ls generalizing xs with
  | nil =>
    have := congrArg (List.flatMap Lexeme.text) read
    rw [List.nil_append, lexemes_flatten, lexemes_flatten] at this
    rw [List.append_left_eq_self.1 this] at last
    cases last
  | cons l ls ih =>
    obtain ⟨x, ys, rfl⟩ : ∃ x ys, xs = x :: ys := by
      cases xs with
      | nil => cases last
      | cons x ys => exact ⟨x, ys, rfl⟩
    rw [List.cons_append, lexemes_cons, List.cons_append] at read
    obtain ⟨rfl, rest⟩ := List.cons.inj read
    obtain ⟨trivia, hls⟩ := List.forall_mem_cons.1 hls
    obtain ⟨kind, hk⟩ : ∃ kind, (scan x (ys ++ ['@'])).kind = .trivia kind := by
      unfold Lexeme.isTrivia at trivia
      split at trivia
      · rename_i kind hk
        exact ⟨kind, hk⟩
      · cases trivia
    -- the first piece, the others, and the token
    have others : (scan x (ys ++ ['@'])).cut.rest = ls.flatMap Lexeme.text ++ ['@'] := by
      have := congrArg (List.flatMap Lexeme.text) rest
      rwa [List.flatMap_append, lexemes_flatten, lexemes_flatten] at this
    have whole : ys = (scan x (ys ++ ['@'])).cut.taken ++ ls.flatMap Lexeme.text := by
      have := (scan x (ys ++ ['@'])).cut.whole
      rw [others, ← List.append_assoc] at this
      exact (List.append_cancel_right this).symm
    cases hz : (ls.flatMap Lexeme.text).getLast? with
    | none =>
      rw [List.getLast?_eq_none_iff] at hz
      rw [hz, List.append_nil] at whole
      exact endsToken_of_scan_trivia sign hk whole.symm last
    | some e =>
      rw [whole, List.getLast?_cons, List.getLast?_append, hz] at last
      cases last
      exact ih hz hls (by rw [← others]; exact rest)

/-- What is left of a gap when it is trimmed. -/
theorem Gap.dropWhile_isBlank {xs : List Char} (h : Gap xs) : Gap (xs.dropWhile Text.isBlank) := by
  have inner := h.dropWhile_blank
  have split := List.takeWhile_append_dropWhile (p := isJavaBlank) (l := xs)
  have blanks : ∀ b ∈ xs.takeWhile isJavaBlank, isJavaBlank b = true := fun b hb =>
    List.all_eq_true.1 List.all_takeWhile b hb
  have stays : (xs.dropWhile isJavaBlank).dropWhile Text.isBlank = xs.dropWhile isJavaBlank := by
    cases hz : xs.dropWhile isJavaBlank with
    | nil => rfl
    | cons c cs =>
      have hc : isJavaBlank c = false := by
        simpa [hz] using List.head?_dropWhile_not isJavaBlank xs
      rw [hz] at inner
      obtain rfl := inner.head_eq_slash hc
      have slash : Text.isBlank '/' = false := by decide
      simp [slash]
  have whole : xs.dropWhile Text.isBlank =
      (xs.takeWhile isJavaBlank).dropWhile Text.isBlank ++ xs.dropWhile isJavaBlank := by
    conv => lhs; rw [← split]
    rw [List.dropWhile_append]
    split
    · rename_i h
      rw [List.isEmpty_iff.1 h, List.nil_append, stays]
    · rfl
  rw [whole]
  exact inner.blanks_append fun b hb => blanks b ((List.dropWhile_sublist _).subset hb)

/-! ## Trimming tokens -/

/-- **`t.trimmed`** — the token without the white space that begins what stands before it. -/
def Token.trimmed (t : Token) : Token :=
  .synthetic t.kind (String.ofList (t.leadingText.toList.dropWhile Text.isBlank))

/-- Nothing is cut off the end of a text that does not end with white space. -/
theorem dropBlankEnd_of_solid {cs : List Char}
    (h : ∀ d, cs.getLast? = some d → Text.isBlank d = false) : Text.dropBlankEnd cs = cs := by
  have keep : cs.reverse.dropWhile Text.isBlank = cs.reverse := by
    cases hr : cs.reverse with
    | nil => rfl
    | cons d ds =>
      have last : cs.getLast? = some d := by rw [List.getLast?_eq_head?_reverse, hr]; rfl
      simp [h d last]
  rw [Text.dropBlankEnd, keep, List.reverse_reverse]

/-- The last character of some tokens is the last one of the last token. -/
theorem Legible.getLast?_spelling {ts : List Token} {tail : List Char} (h : Legible ts tail)
    (valid : ∀ t ∈ ts, t.kind.isError = false) :
    ∀ d, (spelling ts).getLast? = some d → Text.isBlank d = false := by
  induction ts with
  | nil => exact fun d hd => by cases hd
  | cons t ts ih =>
    obtain ⟨-, hread, hmore⟩ := h
    obtain ⟨ht, hts⟩ := List.forall_mem_cons.1 valid
    obtain ⟨c, cs, htext, -⟩ := hread.begins
    intro d hd
    rw [spelling_cons, ← List.append_assoc, List.getLast?_append] at hd
    cases hs : (spelling ts).getLast? with
    | some e =>
      rw [hs] at hd
      cases hd
      exact ih hmore hts d hs
    | none =>
      have last : t.kind.text.toList.getLast? = some d := by
        rw [hs, List.getLast?_append, Option.none_or] at hd
        rw [htext] at hd ⊢
        simpa [List.getLast?_cons] using hd
      exact (hread.solid ht).2 d last

theorem Legible.trimmed {t : Token} {ts : List Token} {tail : List Char}
    (h : Legible (t :: ts) tail) : Legible (t.trimmed :: ts) tail := by
  obtain ⟨gap, read, others⟩ := h
  refine ⟨?_, read, others⟩
  simpa [Token.trimmed] using gap.dropWhile_isBlank

/-- **Trimming tokens** — the text of some tokens, trimmed, is that of the same tokens without the
white space before the first one. -/
theorem trim_print {t : Token} {ts : List Token} {tail : List Char} (h : Legible (t :: ts) tail)
    (valid : ∀ u ∈ t :: ts, u.kind.isError = false) :
    Text.trim (print (t :: ts)) = print (t.trimmed :: ts) := by
  obtain ⟨c, cs, htext, -⟩ := h.2.1.begins
  have hc : Text.isBlank c = false :=
    (h.2.1.solid (valid t List.mem_cons_self)).1 c (by rw [htext]; rfl)
  have start : (spelling (t :: ts)).dropWhile Text.isBlank = spelling (t.trimmed :: ts) := by
    rw [spelling_cons, spelling_cons, List.dropWhile_append]
    split
    · rename_i hnil
      simp [Token.trimmed, List.isEmpty_iff.1 hnil, htext, hc]
    · simp [Token.trimmed]
  have solid : ∀ d, (spelling (t.trimmed :: ts)).getLast? = some d → Text.isBlank d = false :=
    h.trimmed.getLast?_spelling fun u hu => by
      rcases List.mem_cons.1 hu with rfl | hu
      · exact valid t List.mem_cons_self
      · exact valid u (List.mem_cons_of_mem _ hu)
  rw [Text.trim, toList_print, start, dropBlankEnd_of_solid solid, ← toList_print,
    String.ofList_toList]

end DeferFetch
