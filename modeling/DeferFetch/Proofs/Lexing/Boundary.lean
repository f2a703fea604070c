/-
# DeferFetch.Proofs.Lexing.Boundary — where tokens end.

No token goes on past a blank, a comma, a semicolon, a parenthesis or an at sign, and none that has
begun goes on into a comment. So how the characters before such a barrier are scanned does not
depend on what comes after it (`scan_congr`). Literals need no barrier: a closed one depends on its
own characters alone.
-/
import DeferFetch.Proofs.Lexing.Forms

namespace DeferFetch

/-! ## Barriers -/

/-- The characters that end every token before them: those that Java or Unicode takes for white
space, and five separators. -/
def barriers : List Char :=
  [' ', '\t', '\n', '\r', '\x0b', '\x0c', '\x85', '\xa0', '\u1680', '\u2000', '\u2001', '\u2002',
    '\u2003', '\u2004', '\u2005', '\u2006', '\u2007', '\u2008', '\u2009', '\u200a', '\u2028',
    '\u2029', '\u202f', '\u205f', '\u3000', '\ufeff', '@', ',', ';', '(', ')']

/-- **`IsBarrier c`** — no token goes on past `c`. -/
def IsBarrier (c : Char) : Prop := c ∈ barriers

/-- **`EndsToken c`** — a token that ends before `c` ends there whatever else follows: `c` is a
barrier, or the slash that opens a comment. -/
def EndsToken (c : Char) : Prop := c ∈ '/' :: barriers

instance (c : Char) : Decidable (IsBarrier c) := inferInstanceAs (Decidable (c ∈ barriers))

instance (c : Char) : Decidable (EndsToken c) := inferInstanceAs (Decidable (c ∈ '/' :: barriers))

theorem IsBarrier.endsToken {c : Char} (h : IsBarrier c) : EndsToken c := List.mem_cons_of_mem _ h

theorem IsBarrier.ne_slash {c : Char} (h : IsBarrier c) : c ≠ '/' := by
  rintro rfl
  exact absurd h (by decide)

/-- A blank is a barrier. -/
theorem IsBarrier.of_isJavaBlank {c : Char} (h : isJavaBlank c = true) : IsBarrier c := by
  simp only [isJavaBlank, Bool.or_eq_true, decide_eq_true_eq] at h
  rcases h with ((((rfl | rfl) | rfl) | rfl) | rfl) | rfl <;> decide

/-- What a character that ends tokens is not. -/
theorem EndsToken.inert {c : Char} (h : EndsToken c) :
    isIdentifierPart c = false ∧ isIdentifierStart c = false ∧ isDigitPart c = false ∧
      isHexPart c = false ∧ isBinaryPart c = false ∧ Text.isDigit c = false := by
  revert c
  show ∀ c ∈ '/' :: barriers, _
  refine forall_of_all ?_
  decide +kernel

/-- A character that ends tokens is none of the signs that may continue one. -/
theorem EndsToken.ne_sign {c : Char} (h : EndsToken c) :
    c ∉ ['.', '+', '-', '=', '>', '&', '|', ':', '*', 'e', 'E', 'p', 'P', 'x', 'X', 'b', 'B', 'l',
      'L', 'f', 'F', 'd', 'D'] := by
  revert c
  show ∀ c ∈ '/' :: barriers, _
  refine forall_of_all ?_
  decide

/-! ## Cuts that respect barriers -/

/-- **`StopsWithin xs cut`** — after `xs` and a character that ends tokens, a cut takes no more than
`xs`, and what it takes does not depend on that character or on what follows it. -/
def StopsWithin (xs : List Char) (cut : (cs : List Char) → Cut cs) : Prop :=
  ∃ taken ys, ∀ d zs, EndsToken d →
    (cut (xs ++ d :: zs)).taken = taken ∧ (cut (xs ++ d :: zs)).rest = ys ++ d :: zs

/-- **`StopsAtBarriers cut`** — a cut never takes a character that ends tokens. -/
def StopsAtBarriers (cut : (cs : List Char) → Cut cs) : Prop := ∀ xs, StopsWithin xs cut

namespace StopsAtBarriers

protected theorem empty : StopsAtBarriers Cut.empty :=
  fun xs => ⟨[], xs, fun _ _ _ => ⟨rfl, rfl⟩⟩

/-- Characters of a class that holds none that end tokens. -/
protected theorem takeWhile {p : Char → Bool} (hp : ∀ d, EndsToken d → p d = false) :
    StopsAtBarriers (Cut.takeWhile p) := by
  intro xs
  refine ⟨xs.takeWhile p, xs.dropWhile p, fun d zs hd => ?_⟩
  induction xs with
  | nil => simp [Cut.takeWhile, hp d hd]
  | cons x xs ih =>
    simp only [Cut.takeWhile] at ih ⊢
    by_cases hx : p x <;> simp [hx, ih]

/-- A cut that decides by the first character `c` whether to take it and go on with another cut. -/
theorem of_cons {cut : (cs : List Char) → Cut cs} (go : Char → Bool)
    {next : (cs : List Char) → Cut cs} (hn : StopsAtBarriers next)
    (hgo : ∀ d, EndsToken d → go d = false)
    (hcut : ∀ c cs, cut (c :: cs) = if go c then (next cs).cons c else .empty _) :
    StopsAtBarriers cut := by
  rintro (_ | ⟨c, xs⟩)
  · refine ⟨[], [], fun d zs hd => ?_⟩
    simp [hcut, hgo d hd, Cut.empty]
  · obtain ⟨t, ys, h⟩ := hn xs
    by_cases hc : go c
    · refine ⟨c :: t, ys, fun d zs hd => ?_⟩
      obtain ⟨ht, hr⟩ := h d zs hd
      simp [hcut, hc, Cut.cons, ht, hr]
    · exact ⟨[], c :: xs, fun d zs hd => by simp [hcut, hc, Cut.empty]⟩

end StopsAtBarriers

/-- One cut after another. -/
theorem StopsWithin.andThen {xs : List Char} {cut next : (cs : List Char) → Cut cs}
    (hc : StopsWithin xs cut) (hn : StopsAtBarriers next) :
    StopsWithin xs fun cs => (cut cs).andThen next := by
  obtain ⟨t₁, ys, h₁⟩ := hc
  obtain ⟨t₂, ws, h₂⟩ := hn ys
  refine ⟨t₁ ++ t₂, ws, fun d zs hd => ?_⟩
  obtain ⟨ht, hr⟩ := h₁ d zs hd
  obtain ⟨ht', hr'⟩ := h₂ d zs hd
  simp only [Cut.andThen]
  rw [ht, hr, ht', hr']
  exact ⟨rfl, rfl⟩

/-! ## The parts of a number -/

theorem suffixPart_stops : StopsAtBarriers suffixPart := by
  refine .of_cons (fun c => c = 'l' || c = 'L' || isFloatSuffix c) .empty (fun d hd => ?_) ?_
  · have := hd.ne_sign
    simp_all [isFloatSuffix]
  · intro c cs
    rfl

theorem signedDigits_stops : StopsAtBarriers signedDigits := by
  have digits : StopsAtBarriers (Cut.takeWhile isDigitPart) := .takeWhile fun d hd => hd.inert.2.2.1
  rintro (_ | ⟨c, xs⟩)
  · refine ⟨[], [], fun d zs hd => ?_⟩
    have hsign := hd.ne_sign
    have hdigit := hd.inert.2.2.1
    simp_all [signedDigits, Cut.takeWhile]
  · by_cases hc : c = '+' ∨ c = '-'
    · obtain ⟨t, ys, h⟩ := digits xs
      refine ⟨c :: t, ys, fun d zs hd => ?_⟩
      obtain ⟨ht, hr⟩ := h d zs hd
      simp [signedDigits, hc, Cut.cons, ht, hr]
    · obtain ⟨t, ys, h⟩ := digits (c :: xs)
      refine ⟨t, ys, fun d zs hd => ?_⟩
      obtain ⟨ht, hr⟩ := h d zs hd
      simp only [List.cons_append] at ht hr
      simp [signedDigits, hc, ht, hr]

/-- Whether signed digits begin shows before the next character that ends tokens. -/
theorem beginsSignedDigits_congr (xs : List Char) {d d' : Char} (zs zs' : List Char)
    (hd : EndsToken d) (hd' : EndsToken d') :
    beginsSignedDigits (xs ++ d :: zs) = beginsSignedDigits (xs ++ d' :: zs') := by
  have digit := hd.inert.2.2.2.2.2
  have digit' := hd'.inert.2.2.2.2.2
  have sign := hd.ne_sign
  have sign' := hd'.ne_sign
  rcases xs with _ | ⟨a, _ | ⟨b, xs⟩⟩
  · cases zs <;> cases zs' <;> simp_all [beginsSignedDigits]
  · simp_all [beginsSignedDigits]
  · rfl

theorem exponentPart_stops : StopsAtBarriers exponentPart := by
  rintro (_ | ⟨c, xs⟩)
  · refine ⟨[], [], fun d zs hd => ?_⟩
    have := hd.ne_sign
    simp_all [exponentPart, Cut.empty]
  · obtain ⟨t, ys, h⟩ := signedDigits_stops xs
    by_cases hc : ((c = 'e' || c = 'E') && beginsSignedDigits (xs ++ [' '])) = true
    · refine ⟨c :: t, ys, fun d zs hd => ?_⟩
      obtain ⟨ht, hr⟩ := h d zs hd
      rw [← beginsSignedDigits_congr xs zs [] hd (by decide)] at hc
      simp only [List.cons_append, exponentPart, hc, if_true, Cut.cons, ht, hr, and_self]
    · refine ⟨[], c :: xs, fun d zs hd => ?_⟩
      rw [← beginsSignedDigits_congr xs zs [] hd (by decide)] at hc
      simp [exponentPart, hc, Cut.empty]

theorem hexExponentPart_stops : StopsAtBarriers hexExponentPart := by
  refine .of_cons (fun c => c = 'p' || c = 'P') signedDigits_stops (fun d hd => ?_) ?_
  · have := hd.ne_sign
    simp_all
  · intro c cs
    rfl

/-- Whether a fraction begins shows before the next character that ends tokens. -/
theorem beginsFraction_congr (xs : List Char) {d d' : Char} (zs zs' : List Char)
    (hd : EndsToken d) (hd' : EndsToken d') :
    beginsFraction (xs ++ d :: zs) = beginsFraction (xs ++ d' :: zs') := by
  cases xs with
  | nil =>
    have sign := hd.ne_sign
    have sign' := hd'.ne_sign
    have start := hd.inert.2.1
    have start' := hd'.inert.2.1
    simp_all [beginsFraction]
  | cons x xs => rfl

theorem fractionPart_stops : StopsAtBarriers fractionPart := by
  have digits : StopsAtBarriers (Cut.takeWhile isDigitPart) := .takeWhile fun d hd => hd.inert.2.2.1
  have other (c : Char) (cs : List Char) (hc : c ≠ '.') : fractionPart (c :: cs) = .empty _ := by
    simp [fractionPart, hc]
  rintro (_ | ⟨c, xs⟩)
  · refine ⟨[], [], fun d zs hd => ?_⟩
    rw [List.nil_append, other d zs fun h => hd.ne_sign (by simp [h])]
    exact ⟨rfl, rfl⟩
  · by_cases hc : c = '.'
    · subst hc
      obtain ⟨t, ys, h⟩ := digits xs
      by_cases hf : beginsFraction (xs ++ [' ']) = true
      · refine ⟨'.' :: t, ys, fun d zs hd => ?_⟩
        obtain ⟨ht, hr⟩ := h d zs hd
        rw [← beginsFraction_congr xs zs [] hd (by decide)] at hf
        simp [fractionPart, hf, Cut.cons, ht, hr]
      · refine ⟨[], '.' :: xs, fun d zs hd => ?_⟩
        rw [← beginsFraction_congr xs zs [] hd (by decide)] at hf
        simp [fractionPart, hf, Cut.empty]
    · refine ⟨[], c :: xs, fun d zs _ => ?_⟩
      rw [List.cons_append, other c _ hc]
      exact ⟨rfl, rfl⟩

theorem hexFractionPart_stops : StopsAtBarriers hexFractionPart := by
  have digits : StopsAtBarriers (Cut.takeWhile isHexPart) := .takeWhile fun d hd => hd.inert.2.2.2.1
  refine .of_cons (fun c => c = '.') digits (fun d hd => ?_) ?_
  · have := hd.ne_sign
    simp_all
  · intro c cs
    by_cases hc : c = '.'
    · subst hc
      simp [hexFractionPart]
    · simp [hexFractionPart, hc]

/-- The first character, whatever it is; there must be one. -/
theorem first_one_stops {xs : List Char} (hne : xs ≠ []) : StopsWithin xs (Cut.first 1) := by
  cases xs with
  | nil => exact absurd rfl hne
  | cons x xs => exact ⟨[x], xs, fun _ _ _ => by simp [Cut.first]⟩

/-- What is said of a scanned number: whether it is a floating-point literal and how far it goes
does not depend on what follows the next character that ends tokens. -/
def NumberStops (xs : List Char) (scanned : (cs : List Char) → Bool × Cut cs) : Prop :=
  ∃ floating, (∀ d zs, EndsToken d → (scanned (xs ++ d :: zs)).1 = floating) ∧
    StopsWithin xs fun cs => (scanned cs).2

/-- The suffix of a number neither depends on what follows nor makes the rest of it do so. -/
theorem NumberStops.withSuffix {xs : List Char} (floating : Bool)
    {number : (cs : List Char) → Cut cs} (hn : StopsWithin xs number) :
    NumberStops xs fun cs =>
      (floating || (suffixPart (number cs).rest).taken.any isFloatSuffix,
        (number cs).andThen suffixPart) := by
  obtain ⟨taken, ys, h⟩ := hn
  obtain ⟨suffix, ws, hs⟩ := suffixPart_stops ys
  refine ⟨floating || suffix.any isFloatSuffix, fun d zs hd => ?_, ?_⟩
  · show (floating || (suffixPart (number _).rest).taken.any isFloatSuffix) = _
    rw [(h d zs hd).2, (hs d zs hd).1]
  · exact StopsWithin.andThen ⟨taken, ys, h⟩ suffixPart_stops

/-- Only texts in which a character ends tokens after `xs` matter. -/
theorem NumberStops.congr {xs : List Char} {f g : (cs : List Char) → Bool × Cut cs}
    (h : ∀ d zs, EndsToken d → f (xs ++ d :: zs) = g (xs ++ d :: zs)) (hg : NumberStops xs g) :
    NumberStops xs f := by
  obtain ⟨b, hb, taken, ys, ht⟩ := hg
  refine ⟨b, fun d zs hd => ?_, taken, ys, fun d zs hd => ?_⟩
  · rw [h d zs hd, hb d zs hd]
  · simp only [h d zs hd]
    exact ht d zs hd

/-- That later parts of a number take something shows before the next character that ends tokens. -/
theorem StopsWithin.taken_lt {xs : List Char} {cut cut' : (cs : List Char) → Cut cs}
    (h : StopsWithin xs cut) (h' : StopsWithin xs cut') :
    ∃ b : Bool, ∀ d zs, EndsToken d →
      decide ((cut (xs ++ d :: zs)).taken.length < (cut' (xs ++ d :: zs)).taken.length) = b := by
  obtain ⟨taken, ys, h⟩ := h
  obtain ⟨taken', ys', h'⟩ := h'
  refine ⟨decide (taken.length < taken'.length), fun d zs hd => ?_⟩
  rw [(h d zs hd).1, (h' d zs hd).1]

/-- **Numbers** — how far a number goes, and of which sort it is, does not depend on what follows the
next character that ends tokens. -/
theorem scanNumber_stops (c : Char) (xs : List Char) : NumberStops xs (scanNumber c) := by
  have binary : StopsAtBarriers (Cut.takeWhile isBinaryPart) :=
    .takeWhile fun d hd => hd.inert.2.2.2.2.1
  have hex : StopsAtBarriers (Cut.takeWhile isHexPart) := .takeWhile fun d hd => hd.inert.2.2.2.1
  have decimal : StopsAtBarriers (Cut.takeWhile isDigitPart) := .takeWhile fun d hd => hd.inert.2.2.1
  have radix (marks : List Char) (hm : ∀ d, EndsToken d → d ∉ marks) (d : Char) (zs : List Char)
      (hd : EndsToken d) : (xs ++ d :: zs).head?.any (· ∈ marks) = xs.head?.any (· ∈ marks) := by
    cases xs <;> simp [hm d hd]
  have radixX := radix ['x', 'X'] fun d hd hm =>
    hd.ne_sign (forall_of_all (by decide : ['x', 'X'].all _ = true) d hm)
  have radixB := radix ['b', 'B'] fun d hd hm =>
    hd.ne_sign (forall_of_all (by decide : ['b', 'B'].all _ = true) d hm)
  -- by the sorts of numbers; what tells them apart comes before the next character that ends tokens
  by_cases hx : (c = '0' && xs.head?.any (· ∈ ['x', 'X'])) = true
  · have hne : xs ≠ [] := by rintro rfl; simp at hx
    have digits := (first_one_stops hne).andThen hex
    have exponent := (digits.andThen hexFractionPart_stops).andThen hexExponentPart_stops
    obtain ⟨b, hlt⟩ := digits.taken_lt exponent
    refine .congr (fun d zs hd => ?_) (.withSuffix b exponent)
    simp only [scanNumber, radixX d zs hd, hx, if_true, hlt d zs hd]
  · by_cases hb : (c = '0' && xs.head?.any (· ∈ ['b', 'B'])) = true
    · have hne : xs ≠ [] := by rintro rfl; simp at hb
      have digits := (first_one_stops hne).andThen binary
      refine .congr (fun d zs hd => ?_) (.withSuffix false digits)
      simp only [scanNumber, radixX d zs hd, hx, radixB d zs hd, hb, if_true]
      rfl
    · have fraction : StopsWithin xs fun cs =>
          if c = '.' then Cut.takeWhile isDigitPart cs
          else (Cut.takeWhile isDigitPart cs).andThen fractionPart := by
        by_cases hc : c = '.'
        · simpa only [hc, if_true] using decimal xs
        · simpa only [hc, if_false] using (decimal xs).andThen fractionPart_stops
      have exponent := fraction.andThen exponentPart_stops
      obtain ⟨b, hlt⟩ := (decimal xs).taken_lt exponent
      refine .congr (fun d zs hd => ?_) (.withSuffix (c = '.' || b) exponent)
      simp only [scanNumber, radixX d zs hd, hx, radixB d zs hd, hb, hlt d zs hd]
      rfl

/-! ## Literals and comments -/

/-- A closed literal on one line is the same before any other text. -/
theorem throughQuote_taken {quote : Char} (hq : quote ≠ '\\') (cs rest : List Char)
    (closed : (throughQuote quote cs).1 = true) :
    (throughQuote quote ((throughQuote quote cs).2.taken ++ rest)).1 = true ∧
      (throughQuote quote ((throughQuote quote cs).2.taken ++ rest)).2.taken =
        (throughQuote quote cs).2.taken := by
  fun_induction throughQuote quote cs with
  | case1 => simp at closed
  | case2 => simp at closed
  | case3 c cs hc ok cut hr ih =>
    rw [hr] at ih
    obtain ⟨h₁, h₂⟩ := ih closed
    simp [throughQuote, hc, Cut.cons, h₁, h₂]
  | case4 => simp at closed
  | case5 cs _ hl => simp [throughQuote, hq, hl, Cut.cons, Cut.empty]
  | case6 c cs hesc hc hne ok cut hr ih =>
    rw [hr] at ih
    obtain ⟨h₁, h₂⟩ := ih closed
    -- a lone backslash would be the last character, and the literal not closed
    have hb : c ≠ '\\' := by
      rintro rfl
      cases cs with
      | nil => simp_all [throughQuote]
      | cons d cs => exact hesc d cs rfl rfl
    simp [throughQuote, hb, hc, hne, Cut.cons, h₁, h₂]

/-- What a closed text block takes ends in the three quotes. -/
theorem three_le_length_throughTripleQuote (cs : List Char)
    (closed : (throughTripleQuote cs).1 = true) :
    3 ≤ (throughTripleQuote cs).2.taken.length := by
  fun_induction throughTripleQuote cs with
  | case1 => simp at closed
  | case2 c cs ok cut hr ih =>
    rw [hr] at ih
    have := ih closed
    simp only [Cut.cons, List.length_cons] at this ⊢
    omega
  | case3 => simp [Cut.cons]
  | case4 c cs _ _ ok cut hr ih =>
    rw [hr] at ih
    have := ih closed
    simp only [Cut.cons, List.length_cons] at this ⊢
    omega

/-- A closed text block is the same before any other text. -/
theorem throughTripleQuote_taken (cs rest : List Char)
    (closed : (throughTripleQuote cs).1 = true) :
    (throughTripleQuote ((throughTripleQuote cs).2.taken ++ rest)).1 = true ∧
      (throughTripleQuote ((throughTripleQuote cs).2.taken ++ rest)).2.taken =
        (throughTripleQuote cs).2.taken := by
  fun_induction throughTripleQuote cs with
  | case1 => simp at closed
  | case2 c cs ok cut hr ih =>
    rw [hr] at ih
    obtain ⟨h₁, h₂⟩ := ih closed
    simp [throughTripleQuote, Cut.cons, h₁, h₂]
  | case3 => simp [throughTripleQuote, Cut.cons, Cut.empty]
  | case4 c cs hesc hend ok cut hr ih =>
    have hlen := three_le_length_throughTripleQuote cs
    rw [hr] at ih hlen
    obtain ⟨h₁, h₂⟩ := ih closed
    have hlen := hlen closed
    -- the next two characters are among those taken, so what comes later does not matter
    obtain ⟨x, y, t, ht⟩ : ∃ x y t, cut.taken = x :: y :: t := by
      match h : cut.taken with
      | x :: y :: t => exact ⟨x, y, t, rfl⟩
      | [_] | [] => simp [h] at hlen
    have hcs : cs = x :: y :: (t ++ cut.rest) := by
      have whole := cut.whole
      rw [ht] at whole
      exact whole.symm
    have step : throughTripleQuote (c :: (cut.taken ++ rest)) =
        ((throughTripleQuote (cut.taken ++ rest)).1,
          (throughTripleQuote (cut.taken ++ rest)).2.cons c) := by
      rw [throughTripleQuote]
      · intro d ds hc hd
        exact hesc _ _ hc hcs
      · intro ds hc hd
        rw [ht] at hd
        simp only [List.cons_append, List.cons.injEq] at hd
        obtain ⟨rfl, rfl, -⟩ := hd
        exact hend _ hc hcs
    simp only [Cut.cons, List.cons_append, step, h₁, h₂, and_self]

/-- A closed comment ends in its two characters. -/
theorem two_le_length_throughCommentEnd (cs : List Char) (cut : Cut cs)
    (h : throughCommentEnd cs = some cut) : 2 ≤ cut.taken.length := by
  fun_induction throughCommentEnd cs with
  | case1 => simp at h
  | case2 cs =>
    cases h
    simp [Cut.cons]
  | case3 c cs _ ih =>
    obtain ⟨cut', h', rfl⟩ := Option.map_eq_some_iff.1 h
    have := ih cut' h'
    simp only [Cut.cons, List.length_cons]
    omega

/-- A closed comment is the same before any other text. -/
theorem throughCommentEnd_taken (cs rest : List Char) (cut : Cut cs)
    (h : throughCommentEnd cs = some cut) :
    ∃ cut', throughCommentEnd (cut.taken ++ rest) = some cut' ∧ cut'.taken = cut.taken := by
  fun_induction throughCommentEnd cs with
  | case1 => simp at h
  | case2 cs =>
    cases h
    exact ⟨_, rfl, rfl⟩
  | case3 c cs hend ih =>
    obtain ⟨cut, h', rfl⟩ := Option.map_eq_some_iff.1 h
    obtain ⟨cut', h₁, h₂⟩ := ih cut h'
    have hlen := two_le_length_throughCommentEnd cs cut h'
    obtain ⟨x, t, ht⟩ := List.exists_cons_of_length_pos (show 0 < cut.taken.length by omega)
    have hcs : cs = x :: (t ++ cut.rest) := by
      have whole := cut.whole
      rw [ht] at whole
      exact whole.symm
    refine ⟨cut'.cons c, ?_, by simp only [Cut.cons, h₂]⟩
    show throughCommentEnd (c :: (cut.taken ++ rest)) = _
    rw [throughCommentEnd, h₁]
    · rfl
    · intro ds hc hd
      rw [ht, List.cons_append] at hd
      obtain ⟨rfl, -⟩ := List.cons.inj hd
      exact hend _ hc hcs

/-! ## Operators -/

/-- None of the later characters of an operator ends tokens. -/
theorem operator_inner {op : List Char} (hop : op ∈ operators) : ∀ b ∈ op.tail, ¬ EndsToken b := by
  have inner : operators.all (fun op => op.tail.all fun b => ¬ EndsToken b) = true := by decide
  have inner : ∀ op ∈ operators, op.tail.all (fun b => ¬ EndsToken b) = true := by simpa using inner
  exact forall_of_all (inner _ hop)

/-- Characters none of which ends tokens begin a text only where they begin what comes before the next
one that does. -/
theorem prefix_append_iff {op xs tail : List Char} (inner : ∀ b ∈ op, ¬ EndsToken b)
    (ends : ∀ d, tail.head? = some d → EndsToken d) : op <+: xs ++ tail ↔ op <+: xs := by
  refine ⟨fun h => ?_, fun h => h.trans (List.prefix_append _ _)⟩
  rcases Nat.le_total op.length xs.length with le | le
  · exact List.prefix_of_prefix_length_le h (List.prefix_append _ _) le
  obtain ⟨more, rfl⟩ := List.prefix_of_prefix_length_le (List.prefix_append _ tail) h le
  cases more with
  | nil => simp
  | cons d more =>
    obtain ⟨zs, rfl⟩ := (List.prefix_append_right_inj _).1 h
    exact absurd (ends d rfl) (inner d (by simp))

/-- Which operators begin a text shows before the next character that ends tokens. -/
theorem operator_prefix_iff {op : List Char} (hop : op ∈ operators) {c : Char} {xs tail : List Char}
    (ends : ∀ d, tail.head? = some d → EndsToken d) :
    op <+: c :: (xs ++ tail) ↔ op <+: c :: xs := by
  cases op with
  | nil => simp
  | cons a op =>
    have inner : ∀ b ∈ op, ¬ EndsToken b := operator_inner hop
    rw [List.cons_prefix_cons, List.cons_prefix_cons, prefix_append_iff inner ends]

/-! ## Lexemes -/

/-- A word is spelled as it is. -/
@[simp] theorem wordKind_text (name : String) : (wordKind name).text = name := by
  unfold wordKind
  split
  · simp_all [TokenKind.text]
  · split
    · simp_all [TokenKind.text]
    · split
      · simp_all [TokenKind.text]
      · split
        · rename_i word h
          unfold Keyword.ofText? at h
          split at h
          · cases h
            rfl
          · cases h
        · rfl

/-- **`Spells c s`** — the token that a scan found, if any, has just the text that was scanned. -/
def Scan.Spells (c : Char) {cs : List Char} (s : Scan cs) : Prop :=
  ∀ k, s.kind = .token k → k.text.toList = c :: s.cut.taken

namespace Scan.Spells

theorem trivia {c : Char} {cs : List Char} {kind : TriviaKind} {cut : Cut cs} :
    Scan.Spells c ⟨.trivia kind, cut⟩ := nofun

/-- A token of a kind that keeps its text. -/
theorem spelled {c : Char} {cs : List Char} {kind : String → TokenKind} {cut : Cut cs}
    (h : ∀ s, (kind s).text = s) : Scan.Spells c (Scan.spelled c kind cut) := by
  rintro k ⟨⟩
  rw [h, String.toList_ofList]
  rfl

theorem literal {c : Char} {cs : List Char} {kind : String → TokenKind} {cause : LexicalError}
    {scanned : Bool × Cut cs} (h : ∀ s, (kind s).text = s) :
    Scan.Spells c (Scan.literal c kind cause scanned) := by
  refine spelled fun s => ?_
  split
  · exact h s
  · rfl

theorem blockComment {cs : List Char} : Scan.Spells '/' (Scan.blockComment cs) := by
  unfold Scan.blockComment
  split
  · split
    · exact trivia
    · exact spelled fun _ => rfl
  · exact spelled fun _ => rfl

theorem string {cs : List Char} : Scan.Spells '"' (Scan.string cs) := by
  unfold Scan.string
  split
  · exact literal fun _ => rfl
  · exact literal fun _ => rfl

theorem number {c : Char} {cs : List Char} : Scan.Spells c (Scan.number c cs) := by
  refine spelled fun s => ?_
  split <;> rfl

theorem operator {c : Char} {cs : List Char} : Scan.Spells c (Scan.operator c cs) := by
  unfold Scan.operator
  split
  · exact spelled fun _ => rfl
  · exact spelled fun _ => rfl

end Scan.Spells

/-- A separator is spelled by its character. -/
theorem separatorKind?_text {c : Char} {k : TokenKind} (h : separatorKind? c = some k) :
    k.text.toList = [c] := by
  unfold separatorKind? at h
  split at h <;> cases h <;> rfl

/-- **`scan_text`** — the text of a token is what was scanned. -/
theorem scan_text (c : Char) (cs : List Char) : (scan c cs).Spells c := by
  have scanned := scanned_scan c cs
  generalize scan c cs = s at scanned ⊢
  cases scanned with
  | blank | lineComment => exact .trivia
  | blockComment first =>
    subst first
    exact .blockComment
  | separator known =>
    rintro k ⟨⟩
    exact separatorKind?_text known
  | doubleColon first next =>
    obtain ⟨cs, rfl⟩ := List.head?_eq_some_iff.1 next
    rintro k ⟨⟩
    rw [first]
    rfl
  | ellipsis first dots =>
    obtain ⟨cs, rfl⟩ := dots
    rintro k ⟨⟩
    rw [first]
    rfl
  | colon first | equals first | dot first =>
    rintro k ⟨⟩
    rw [first]
    rfl
  | equality => exact .spelled fun _ => rfl
  | fraction | number => exact .number
  | string first =>
    subst first
    exact .string
  | character => exact .literal fun _ => rfl
  | word => exact .spelled wordKind_text
  | operator => exact .operator

/-- Two scans, of different texts, that found the same lexeme. -/
def Scan.SameAs {cs cs' : List Char} (s' : Scan cs') (s : Scan cs) : Prop :=
  s'.kind = s.kind ∧ s'.cut.taken = s.cut.taken

/-- A token that keeps its text is the same if the same characters are taken. -/
theorem Scan.SameAs.spelled {c : Char} {cs cs' : List Char} {kind kind' : String → TokenKind}
    {cut : Cut cs} {cut' : Cut cs'} (hk : kind' = kind) (ht : cut'.taken = cut.taken) :
    (Scan.spelled c kind' cut').SameAs (Scan.spelled c kind cut) := by
  subst hk
  exact ⟨by simp only [Scan.spelled, ht], ht⟩

/-- A literal that is closed within its own characters is the same before any other text. -/
theorem Scan.SameAs.literal {c : Char} {cs cs' : List Char} {kind : String → TokenKind}
    {cause : LexicalError} {scanned : Bool × Cut cs} {scanned' : Bool × Cut cs'} {k : TokenKind}
    (token : (Scan.literal c kind cause scanned).kind = .token k)
    (valid : ∀ raw cause, k ≠ .error raw cause)
    (same : scanned.1 = true → scanned'.1 = true ∧ scanned'.2.taken = scanned.2.taken) :
    (Scan.literal c kind cause scanned').SameAs (Scan.literal c kind cause scanned) := by
  cases h : scanned.1 with
  | false =>
    simp only [Scan.literal, Scan.spelled, h] at token
    cases token
    exact absurd rfl (valid _ _)
  | true =>
    obtain ⟨h₁, h₂⟩ := same h
    exact .spelled (by rw [h, h₁]) h₂

/-- What is taken of a text, when it is no longer than a beginning of it, begins that. -/
theorem Cut.exists_append {xs ys : List Char} (cut : Cut (xs ++ ys))
    (within : cut.taken.length ≤ xs.length) : ∃ more, xs = cut.taken ++ more := by
  have taken : cut.taken <+: xs ++ ys := ⟨cut.rest, cut.whole⟩
  obtain ⟨more, hm⟩ := List.prefix_of_prefix_length_le taken (List.prefix_append xs ys) within
  exact ⟨more, hm.symm⟩

section Scans

variable {c : Char} {xs : List Char} {d d' : Char} {zs zs' : List Char} {k : TokenKind}

/-- A block comment is no token, unless it has no end. -/
theorem Scan.blockComment_kind {cs : List Char} (h : (Scan.blockComment cs).kind = .token k) :
    ∃ raw cause, k = .error raw cause := by
  unfold Scan.blockComment at h
  split at h
  · split at h
    · cases h
    · cases h
      exact ⟨_, _, rfl⟩
  · cases h
    exact ⟨_, _, rfl⟩

/-- The quoted part of a literal that ends within `xs` is the same whatever comes after `xs`. -/
theorem throughQuote_congr {quote : Char} (hq : quote ≠ '\\') {xs ys : List Char}
    (ys' : List Char)
    (within : (throughQuote quote (xs ++ ys)).2.taken.length ≤ xs.length)
    (closed : (throughQuote quote (xs ++ ys)).1 = true) :
    (throughQuote quote (xs ++ ys')).1 = true ∧
      (throughQuote quote (xs ++ ys')).2.taken = (throughQuote quote (xs ++ ys)).2.taken := by
  obtain ⟨more, hm⟩ := Cut.exists_append _ within
  have := throughQuote_taken hq (xs ++ ys) (more ++ ys') closed
  rwa [← List.append_assoc, ← hm] at this

/-- The quoted part of a text block that ends within `xs` is the same whatever comes after `xs`. -/
theorem throughTripleQuote_congr {xs ys : List Char} (ys' : List Char)
    (within : (throughTripleQuote (xs ++ ys)).2.taken.length ≤ xs.length)
    (closed : (throughTripleQuote (xs ++ ys)).1 = true) :
    (throughTripleQuote (xs ++ ys')).1 = true ∧
      (throughTripleQuote (xs ++ ys')).2.taken = (throughTripleQuote (xs ++ ys)).2.taken := by
  obtain ⟨more, hm⟩ := Cut.exists_append _ within
  have := throughTripleQuote_taken (xs ++ ys) (more ++ ys') closed
  rwa [← List.append_assoc, ← hm] at this

theorem Scan.string_of_not {cs : List Char} (h : ∀ body, cs ≠ '"' :: '"' :: body) :
    Scan.string cs = Scan.literal '"' .string .unterminatedString (throughQuote '"' cs) := by
  unfold Scan.string
  split
  · exact absurd rfl (h _)
  · rfl

theorem Scan.string_congr (hd : EndsToken d) (hd' : EndsToken d')
    (token : (Scan.string (xs ++ d :: zs)).kind = .token k)
    (valid : ∀ raw cause, k ≠ .error raw cause)
    (within : (Scan.string (xs ++ d :: zs)).cut.taken.length ≤ xs.length) :
    (Scan.string (xs ++ d' :: zs')).SameAs (Scan.string (xs ++ d :: zs)) := by
  -- a text block shows in its first two characters, which no character that ends tokens can be
  by_cases block : ∃ body, xs = '"' :: '"' :: body
  · obtain ⟨body, rfl⟩ := block
    refine .literal token valid fun closed => ?_
    have within : (throughTripleQuote (body ++ d :: zs)).2.taken.length ≤ body.length := by
      simpa [Scan.string, Scan.literal, Scan.spelled, Cut.cons] using within
    obtain ⟨h₁, h₂⟩ := throughTripleQuote_congr (d' :: zs') within closed
    exact ⟨h₁, congrArg (fun taken => '"' :: '"' :: taken) h₂⟩
  · have one (d : Char) (zs : List Char) (hd : EndsToken d) (body : List Char) :
        xs ++ d :: zs ≠ '"' :: '"' :: body := by
      intro h
      have hq : d ≠ '"' := by
        rintro rfl
        exact absurd hd (by decide)
      match xs, block with
      | [], _ => exact hq (List.cons.inj h).1
      | [_], _ => simp_all
      | x :: y :: xs, block =>
        simp only [List.cons_append, List.cons.injEq] at h
        exact block ⟨xs, by rw [h.1, h.2.1]⟩
    rw [Scan.string_of_not (one d zs hd)] at token within ⊢
    rw [Scan.string_of_not (one d' zs' hd')]
    exact .literal token valid fun closed => throughQuote_congr (by decide) _ within closed

theorem Scan.character_congr
    (token : (Scan.literal '\'' .character .unterminatedCharacter
      (throughQuote '\'' (xs ++ d :: zs))).kind = .token k)
    (valid : ∀ raw cause, k ≠ .error raw cause)
    (within : (Scan.literal '\'' .character .unterminatedCharacter
      (throughQuote '\'' (xs ++ d :: zs))).cut.taken.length ≤ xs.length) :
    (Scan.literal '\'' .character .unterminatedCharacter (throughQuote '\'' (xs ++ d' :: zs'))).SameAs
      (Scan.literal '\'' .character .unterminatedCharacter (throughQuote '\'' (xs ++ d :: zs))) :=
  .literal token valid fun closed => throughQuote_congr (by decide) _ within closed

theorem Scan.number_congr (hd : EndsToken d) (hd' : EndsToken d') :
    (Scan.number c (xs ++ d' :: zs')).SameAs (Scan.number c (xs ++ d :: zs)) := by
  obtain ⟨floating, hf, taken, ys, ht⟩ := scanNumber_stops c xs
  refine .spelled ?_ ?_
  · rw [hf d zs hd, hf d' zs' hd']
  · rw [(ht d zs hd).1, (ht d' zs' hd').1]

theorem Scan.word_congr {kind : String → TokenKind} (hd : EndsToken d) (hd' : EndsToken d') :
    (Scan.spelled c kind (.takeWhile isIdentifierPart (xs ++ d' :: zs'))).SameAs
      (Scan.spelled c kind (.takeWhile isIdentifierPart (xs ++ d :: zs))) := by
  obtain ⟨taken, ys, ht⟩ :=
    StopsAtBarriers.takeWhile (p := isIdentifierPart) (fun d hd => hd.inert.1) xs
  exact .spelled rfl (by rw [(ht d zs hd).1, (ht d' zs' hd').1])

/-- Searches agree if the tests agree on what is searched. -/
theorem find?_congr {α : Type} {p q : α → Bool} {as : List α} (h : ∀ a ∈ as, p a = q a) :
    as.find? p = as.find? q := by
  induction as with
  | nil => rfl
  | cons a as ih =>
    rw [List.find?_cons, List.find?_cons, h a (by simp), ih fun b hb => h b (by simp [hb])]

theorem Scan.operator_congr (hd : EndsToken d) (hd' : EndsToken d')
    (token : (Scan.operator c (xs ++ d :: zs)).kind = .token k)
    (valid : ∀ raw cause, k ≠ .error raw cause)
    (within : (Scan.operator c (xs ++ d :: zs)).cut.taken.length ≤ xs.length) :
    (Scan.operator c (xs ++ d' :: zs')).SameAs (Scan.operator c (xs ++ d :: zs)) := by
  have same : operators.find? (·.isPrefixOf (c :: (xs ++ d' :: zs'))) =
      operators.find? (·.isPrefixOf (c :: (xs ++ d :: zs))) := by
    refine find?_congr fun op hop => ?_
    rw [Bool.eq_iff_iff, List.isPrefixOf_iff_prefix, List.isPrefixOf_iff_prefix,
      operator_prefix_iff hop (by simpa using hd'), operator_prefix_iff hop (by simpa using hd)]
  unfold Scan.operator at token within ⊢
  rw [same]
  cases h : operators.find? (·.isPrefixOf (c :: (xs ++ d :: zs))) with
  | none =>
    simp only [h] at token
    cases token
    exact absurd rfl (valid _ _)
  | some op =>
    simp only [h, Scan.spelled, Cut.first, List.length_take] at within
    refine .spelled rfl ?_
    simp only [Cut.first]
    rw [List.take_append_of_le_length (by simp at within; omega),
      List.take_append_of_le_length (by simp at within; omega)]

end Scans

/-- **`scan_congr`** — a token that ends before a character that ends tokens is scanned the same way
whatever comes after it. -/
theorem scan_congr (c : Char) (xs : List Char) {d d' : Char} (zs zs' : List Char) {k : TokenKind}
    (hd : EndsToken d) (hd' : EndsToken d') (slash : d' = '/' → d = '/')
    (token : (scan c (xs ++ d :: zs)).kind = .token k) (valid : ∀ raw cause, k ≠ .error raw cause)
    (within : (scan c (xs ++ d :: zs)).cut.taken.length ≤ xs.length) :
    (scan c (xs ++ d' :: zs')).SameAs (scan c (xs ++ d :: zs)) := by
  -- what the characters before `cs` show of its first one
  have next (m : Char) (hm : ¬ EndsToken m) :
      (xs ++ d' :: zs').head? = some m ↔ (xs ++ d :: zs).head? = some m := by
    cases xs with
    | nil =>
      have h : d ≠ m := fun h => hm (h ▸ hd)
      have h' : d' ≠ m := fun h => hm (h ▸ hd')
      simp [h, h']
    | cons x xs => simp
  have takeOne {m : Char} (h : (xs ++ d :: zs).head? = some m)
      (h' : (xs ++ d' :: zs').head? = some m) : (xs ++ d' :: zs').take 1 = (xs ++ d :: zs).take 1 := by
    rw [List.take_one, List.take_one, h, h']
  have nextDigit : (xs ++ d' :: zs').head?.any Text.isDigit =
      (xs ++ d :: zs).head?.any Text.isDigit := by
    cases xs with
    | nil => simp [hd.inert, hd'.inert]
    | cons x xs => rfl
  have points : ['.', '.'] <+: xs ++ d' :: zs' ↔ ['.', '.'] <+: xs ++ d :: zs := by
    have inner : ∀ b ∈ ['.', '.'], ¬ EndsToken b := forall_of_all (by decide)
    rw [prefix_append_iff inner (by simpa using hd'), prefix_append_iff inner (by simpa using hd)]
  have scanned := scanned_scan c (xs ++ d :: zs)
  generalize scan c (xs ++ d :: zs) = s at scanned token within ⊢
  cases scanned with
  | blank | lineComment => cases token
  | blockComment =>
    obtain ⟨raw, cause, rfl⟩ := Scan.blockComment_kind token
    exact absurd rfl (valid raw cause)
  | separator known =>
    rw [(Scanned.separator known).eq]
    exact ⟨rfl, rfl⟩
  | doubleColon first colon =>
    have colon' := (next ':' (by decide)).2 colon
    rw [(Scanned.doubleColon first colon').eq]
    exact ⟨rfl, takeOne colon colon'⟩
  | colon first alone =>
    rw [(Scanned.colon first (mt (next ':' (by decide)).1 alone)).eq]
    exact ⟨rfl, rfl⟩
  | equality first equals =>
    have equals' := (next '=' (by decide)).2 equals
    rw [(Scanned.equality first equals').eq]
    exact .spelled rfl (takeOne equals equals')
  | equals first alone =>
    rw [(Scanned.equals first (mt (next '=' (by decide)).1 alone)).eq]
    exact ⟨rfl, rfl⟩
  | fraction first digit =>
    rw [(Scanned.fraction first (nextDigit.trans digit)).eq]
    exact Scan.number_congr hd hd'
  | ellipsis first dots =>
    have dots' := points.2 dots
    rw [(Scanned.ellipsis first dots').eq]
    exact ⟨rfl, (List.prefix_iff_eq_take.1 dots').symm.trans (List.prefix_iff_eq_take.1 dots)⟩
  | dot first digit dots =>
    rw [(Scanned.dot first (nextDigit.trans digit) (mt points.1 dots)).eq]
    exact ⟨rfl, rfl⟩
  | string first =>
    rw [(Scanned.string first).eq]
    exact Scan.string_congr hd hd' token valid within
  | character first =>
    subst first
    rw [(Scanned.character rfl).eq]
    exact Scan.character_congr token valid within
  | number digit =>
    rw [(Scanned.number digit).eq]
    exact Scan.number_congr hd hd'
  | word start =>
    rw [(Scanned.word start).eq]
    exact Scan.word_congr hd hd'
  | operator unmarked digit start =>
    have comment (first : c = '/') :
        (xs ++ d' :: zs').head? ≠ some '/' ∧ (xs ++ d' :: zs').head? ≠ some '*' := by
      obtain ⟨line, block⟩ := unmarked.comment first
      refine ⟨fun h => line ?_, mt (next '*' (by decide)).1 block⟩
      cases xs with
      | nil => simpa using slash (by simpa using h)
      | cons x xs => exact h
    rw [(Scanned.operator { unmarked with comment } digit start).eq]
    exact Scan.operator_congr hd hd' token valid within

end DeferFetch
