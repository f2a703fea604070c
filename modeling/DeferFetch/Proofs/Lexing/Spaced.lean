/-
# DeferFetch.Proofs.Lexing.Spaced — tokens with blanks between them.

Where a token ends may show only in what follows it: a point after digits belongs to the number unless a
name comes next, and two quotes are a string unless a third follows. Here is shown that a barrier never
shows anything else (`TokenKind.ReadsBefore.barrier`): a token that was read in one text is read in
every other in which a blank follows it. So tokens of any texts, written with blanks between them, are
read again as they were (`tokenize_spaced`).
-/
import DeferFetch.Proofs.Lexing.Spelled

namespace DeferFetch

/-- **`AtBarrier tail`** — the text is over, or goes on with a barrier. -/
def AtBarrier (tail : List Char) : Prop := ∀ d, tail.head? = some d → IsBarrier d

section Barrier

variable {tail : List Char}

/-- What comes next before a barrier, unless it is the barrier. -/
theorem AtBarrier.head?_append (ends : AtBarrier tail) {ys : List Char} {d : Char}
    (next : (ys ++ tail).head? = some d) (inner : ¬ EndsToken d) : ys.head? = some d := by
  cases ys with
  | nil => exact absurd (ends d next).endsToken inner
  | cons y ys => exact next

theorem head?_append_of_head? {ys : List Char} {d : Char} (next : ys.head? = some d)
    (rest : List Char) : (ys ++ rest).head? = some d := by
  rw [List.head?_append, next]
  rfl

/-- Characters that end no token come before a barrier only if they began what is before it. -/
theorem AtBarrier.not_mem (ends : AtBarrier tail) {bad ys : List Char}
    (hb : ∀ d, EndsToken d → d ∉ bad) (free : ∀ y, ys.head? = some y → y ∉ bad) {d : Char}
    (next : (ys ++ tail).head? = some d) : d ∉ bad := by
  by_cases inner : EndsToken d
  · exact hb d inner
  · exact free d (ends.head?_append next inner)

end Barrier

/-! ## Cuts before a barrier -/

/-- A cut is known by what it takes. -/
theorem Cut.eq_of_taken {cs : List Char} {a b : Cut cs} (same : a.taken = b.taken) : a = b := by
  obtain ⟨taken, rest, whole⟩ := a
  obtain ⟨taken', rest', whole'⟩ := b
  subst same
  obtain rfl : rest = rest' := List.append_cancel_left (whole.trans whole'.symm)
  rfl

/-- What is left is what comes after what was taken. -/
theorem Cut.rest_eq {cs xs ys : List Char} {cut : Cut cs} (taken : cut.taken = xs)
    (whole : cs = xs ++ ys) : cut.rest = ys := by
  have parts := cut.whole
  rw [taken] at parts
  exact List.append_cancel_left (parts.trans whole)

/-- **`TakesAgain bad cut`** — a cut that takes `xs` in one text takes `xs` before a barrier: what follows
the token did not matter. Between them, there may be the rest `ys` of the token, if that begins with
none of the characters `bad`. -/
def TakesAgain (bad : List Char) (cut : (cs : List Char) → Cut cs) : Prop :=
  ∀ xs ys rest tail, AtBarrier tail → (∀ y, ys.head? = some y → y ∉ bad) →
    (cut (xs ++ (ys ++ rest))).taken = xs → (cut (xs ++ (ys ++ tail))).taken = xs

namespace TakesAgain

protected theorem empty : TakesAgain [] Cut.empty := fun _ _ _ _ _ _ taken => taken

/-- Characters of a class that holds no barrier. -/
protected theorem takeWhile {p : Char → Bool} (hp : ∀ d, EndsToken d → p d = false) :
    TakesAgain [] (Cut.takeWhile p) := by
  intro xs ys rest tail ends _ taken
  obtain ⟨all, next⟩ := head?_of_takeWhile taken.symm rfl
  refine (takeWhile_append_stop (ys ++ tail) all fun d hd => ?_).1
  by_cases inner : EndsToken d
  · exact hp d inner
  · exact next d (head?_append_of_head? (ends.head?_append hd inner) rest)

/-- A cut that decides by the first character `c` whether to take it and go on with another cut. -/
theorem of_cons {bad : List Char} {cut next : (cs : List Char) → Cut cs} (go : Char → Bool)
    (hn : TakesAgain bad next) (hgo : ∀ d, EndsToken d → go d = false)
    (hcut : ∀ c cs, cut (c :: cs) = if go c then (next cs).cons c else .empty _) :
    TakesAgain bad cut := by
  intro xs ys rest tail ends free taken
  cases xs with
  | nil =>
    cases hz : ys ++ tail with
    | nil => exact (List.append_eq_nil_iff.1 (cut []).whole).1
    | cons d zs =>
      have stays : go d = false := by
        by_cases inner : EndsToken d
        · exact hgo d inner
        · -- the same character came next in the first text, and was not taken
          have next := head?_append_of_head? (ends.head?_append (by rw [hz]; rfl) inner) rest
          obtain ⟨more, hmore⟩ := List.head?_eq_some_iff.1 next
          rw [List.nil_append, hmore, hcut] at taken
          cases hgo : go d with
          | false => rfl
          | true =>
            rw [hgo] at taken
            cases taken
      rw [List.nil_append, hcut, stays]
      rfl
  | cons x xs =>
    rw [List.cons_append, hcut] at taken ⊢
    cases hx : go x with
    | false =>
      rw [hx] at taken
      cases taken
    | true =>
      rw [hx] at taken
      exact congrArg (x :: ·) (hn xs ys rest tail ends free (List.cons.inj taken).2)

/-- What a cut takes of the end of a token. -/
theorem last {bad : List Char} {cut : (cs : List Char) → Cut cs} (h : TakesAgain bad cut)
    {xs rest tail : List Char} (ends : AtBarrier tail) (taken : (cut (xs ++ rest)).taken = xs) :
    (cut (xs ++ tail)).taken = xs := h xs [] rest tail ends (by simp) taken

end TakesAgain

/-! ## The parts of a number -/

theorem suffixPart_cons (c : Char) (cs : List Char) : suffixPart (c :: cs) =
    if c = 'l' || c = 'L' || isFloatSuffix c then (Cut.empty cs).cons c else .empty _ := rfl

theorem suffixPart_again : TakesAgain [] suffixPart := by
  refine .of_cons (fun c => c = 'l' || c = 'L' || isFloatSuffix c) .empty (fun d hd => ?_)
    suffixPart_cons
  have := hd.ne_sign
  simp_all [isFloatSuffix]

theorem digits_again : TakesAgain [] (Cut.takeWhile isDigitPart) :=
  .takeWhile fun _ hd => hd.inert.2.2.1

/-- An optional sign and digits are one character and then digits. -/
theorem signedDigits_cons (c : Char) (cs : List Char) : signedDigits (c :: cs) =
    if c = '+' || c = '-' || isDigitPart c then (Cut.takeWhile isDigitPart cs).cons c
    else .empty _ := by
  rw [signedDigits]
  by_cases sign : (c = '+' || c = '-') = true
  · rw [if_pos sign, if_pos (by rw [sign, Bool.true_or])]
  · rw [if_neg sign, Bool.eq_false_iff.2 sign, Bool.false_or]
    refine Cut.eq_of_taken ?_
    by_cases digit : isDigitPart c = true
    · rw [if_pos digit]
      exact List.takeWhile_cons_of_pos digit
    · rw [if_neg digit]
      exact List.takeWhile_cons_of_neg digit

theorem signedDigits_again : TakesAgain [] signedDigits := by
  refine .of_cons (fun c => c = '+' || c = '-' || isDigitPart c) digits_again (fun d hd => ?_)
    signedDigits_cons
  have sign := hd.ne_sign
  have digit := hd.inert.2.2.1
  simp_all

theorem hexExponentPart_again : TakesAgain [] hexExponentPart := by
  refine .of_cons (fun c => c = 'p' || c = 'P') signedDigits_again (fun d hd => ?_) ?_
  · have := hd.ne_sign
    simp_all
  · intro c cs
    rfl

theorem hexFractionPart_again : TakesAgain [] hexFractionPart := by
  have digits : TakesAgain [] (Cut.takeWhile isHexPart) := .takeWhile fun d hd => hd.inert.2.2.2.1
  refine .of_cons (fun c => c = '.') digits (fun d hd => ?_) ?_
  · have := hd.ne_sign
    simp_all
  · intro c cs
    by_cases hc : c = '.'
    · subst hc
      simp [hexFractionPart]
    · simp [hexFractionPart, hc]

theorem beginsSignedDigits_of_digit {c : Char} (digit : Text.isDigit c = true) (cs : List Char) :
    beginsSignedDigits (c :: cs) = true := by
  cases cs <;> simp [beginsSignedDigits, digit]

/-- That signed digits begin shows in what is taken of them. -/
theorem beginsSignedDigits_taken {cs : List Char} (begins : beginsSignedDigits cs = true)
    (more : List Char) : beginsSignedDigits ((signedDigits cs).taken ++ more) = true := by
  have part {c : Char} (digit : Text.isDigit c = true) : isDigitPart c = true := by
    rw [isDigitPart, digit, Bool.true_or]
  match cs with
  | [] => cases begins
  | [c] =>
    have digit : Text.isDigit c = true := begins
    rw [signedDigits_cons, if_pos (by rw [part digit, Bool.or_true])]
    exact beginsSignedDigits_of_digit digit _
  | c :: d :: cs =>
    simp only [beginsSignedDigits, Bool.or_eq_true, Bool.and_eq_true] at begins
    rcases begins with digit | ⟨sign, digit⟩
    · rw [signedDigits_cons, if_pos (by rw [part digit, Bool.or_true])]
      exact beginsSignedDigits_of_digit digit _
    · -- the sign alone would not do
      have taken : (signedDigits (c :: d :: cs)).taken = c :: d :: cs.takeWhile isDigitPart := by
        rw [signedDigits, if_pos (by simpa using sign)]
        exact congrArg (c :: ·) (List.takeWhile_cons_of_pos (part digit))
      rw [taken]
      simp only [List.cons_append, beginsSignedDigits, digit, Bool.and_true, Bool.or_eq_true]
      exact .inr (by simpa using sign)

theorem exponentPart_cons (c : Char) (cs : List Char) : exponentPart (c :: cs) =
    if (c = 'e' || c = 'E') && beginsSignedDigits cs then (signedDigits cs).cons c else .empty _ := rfl

/-- An exponent shows in its letter and what is taken after that. -/
theorem exponentPart_again : TakesAgain ['e', 'E'] exponentPart := by
  intro xs ys rest tail ends free taken
  cases xs with
  | nil =>
    cases hz : ys ++ tail with
    | nil => rfl
    | cons d zs =>
      have other : d ∉ ['e', 'E'] := by
        refine ends.not_mem (fun d hd => ?_) free (by rw [hz]; rfl)
        have := hd.ne_sign
        simp_all
      rw [List.nil_append, exponentPart_cons]
      simp only [List.mem_cons, List.not_mem_nil, or_false, not_or] at other
      simp [other, Cut.empty]
  | cons x xs =>
    rw [List.cons_append, exponentPart_cons] at taken ⊢
    split at taken
    · rename_i go
      rw [Bool.and_eq_true] at go
      have digits : (signedDigits (xs ++ (ys ++ rest))).taken = xs := (List.cons.inj taken).2
      have begins := beginsSignedDigits_taken go.2 (ys ++ tail)
      rw [digits] at begins
      rw [go.1, begins]
      exact congrArg (x :: ·)
        (signedDigits_again xs ys rest tail ends (fun _ _ => List.not_mem_nil) digits)
    · cases taken

theorem fractionPart_dot (cs : List Char) : fractionPart ('.' :: cs) =
    if beginsFraction cs then (Cut.takeWhile isDigitPart cs).cons '.' else .empty _ := rfl

theorem fractionPart_other {c : Char} (h : c ≠ '.') (cs : List Char) :
    fractionPart (c :: cs) = .empty _ := by
  simp [fractionPart, h]

/-- A fraction begins before a barrier if it does so before anything: the point may end the token, but a
barrier does not make it a name. -/
theorem AtBarrier.beginsFraction {xs rest tail : List Char} (ends : AtBarrier tail)
    (begins : beginsFraction (xs ++ rest) = true) : beginsFraction (xs ++ tail) = true := by
  cases xs with
  | cons x xs => exact begins
  | nil =>
    cases tail with
    | nil => rfl
    | cons d tail =>
      have inner := (ends d rfl).endsToken
      have point : d ≠ '.' := by
        rintro rfl
        exact inner.ne_sign (by decide)
      simp [DeferFetch.beginsFraction, inner.inert.2.1, point]

/-- A fraction shows in its point and in what comes next. -/
theorem fractionPart_again : TakesAgain ['.'] fractionPart := by
  intro xs ys rest tail ends free taken
  cases xs with
  | nil =>
    cases hz : ys ++ tail with
    | nil => rfl
    | cons d zs =>
      have other : d ∉ ['.'] := by
        refine ends.not_mem (fun d hd => ?_) free (by rw [hz]; rfl)
        have := hd.ne_sign
        simp_all
      rw [List.nil_append, fractionPart_other (List.ne_of_not_mem_cons other)]
      rfl
  | cons x xs =>
    by_cases hx : x = '.'
    · subst hx
      rw [List.cons_append, fractionPart_dot] at taken ⊢
      split at taken
      · rename_i begins
        rw [← List.append_assoc] at begins
        have begins := ends.beginsFraction begins
        rw [List.append_assoc] at begins
        rw [begins]
        exact congrArg ('.' :: ·)
          (digits_again xs ys rest tail ends (fun _ _ => List.not_mem_nil) (List.cons.inj taken).2)
      · cases taken
    · rw [List.cons_append, fractionPart_other hx] at taken
      cases taken

/-! ## Numbers -/

/-- **`withPart tells next scanned`** — a scanned number and the part after it, of which the characters
may tell that the number is a floating-point literal. -/
def withPart (tells : List Char → Bool) (next : (cs : List Char) → Cut cs)
    (scanned : (cs : List Char) → Bool × Cut cs) (cs : List Char) : Bool × Cut cs :=
  ((scanned cs).1 || tells (next (scanned cs).2.rest).taken, (scanned cs).2.andThen next)

/-- **`ScansAgain bad scanned`** — a number goes as far before a barrier as in another text, and is of the
same sort. -/
def ScansAgain (bad : List Char) (scanned : (cs : List Char) → Bool × Cut cs) : Prop :=
  ∀ xs ys rest tail, AtBarrier tail → (∀ y, ys.head? = some y → y ∉ bad) →
    (scanned (xs ++ (ys ++ rest))).2.taken = xs →
      (scanned (xs ++ (ys ++ tail))).1 = (scanned (xs ++ (ys ++ rest))).1 ∧
        (scanned (xs ++ (ys ++ tail))).2.taken = xs

theorem ScansAgain.last {bad : List Char} {scanned : (cs : List Char) → Bool × Cut cs}
    (h : ScansAgain bad scanned) {xs rest tail : List Char} (ends : AtBarrier tail)
    (taken : (scanned (xs ++ rest)).2.taken = xs) :
    (scanned (xs ++ tail)).1 = (scanned (xs ++ rest)).1 ∧ (scanned (xs ++ tail)).2.taken = xs :=
  h xs [] rest tail ends (by simp) taken

theorem TakesAgain.number {bad : List Char} {cut : (cs : List Char) → Cut cs} (h : TakesAgain bad cut)
    (floating : Bool) : ScansAgain bad fun cs => (floating, cut cs) :=
  fun xs ys rest tail ends free taken => ⟨rfl, h xs ys rest tail ends free taken⟩

/-- A number with another part, if what that takes begins with none of the characters that are bad for
the number. -/
theorem ScansAgain.withPart {bad bad' : List Char} {scanned : (cs : List Char) → Bool × Cut cs}
    {next : (cs : List Char) → Cut cs} {tells : List Char → Bool} (hs : ScansAgain bad scanned)
    (hn : TakesAgain bad' next) (link : ∀ cs y, (next cs).taken.head? = some y → y ∉ bad) :
    ScansAgain (bad ++ bad') (withPart tells next scanned) := by
  intro xs ys rest tail ends free taken
  obtain ⟨as, has⟩ : ∃ as, (scanned (xs ++ (ys ++ rest))).2.taken = as := ⟨_, rfl⟩
  obtain ⟨bs, hbs⟩ : ∃ bs, (next (scanned (xs ++ (ys ++ rest))).2.rest).taken = bs := ⟨_, rfl⟩
  obtain rfl : as ++ bs = xs := by
    rw [← has, ← hbs]
    exact taken
  have regroup (more : List Char) : as ++ bs ++ (ys ++ more) = as ++ (bs ++ ys ++ more) := by
    simp only [List.append_assoc]
  have left {more : List Char} (h : (scanned (as ++ bs ++ (ys ++ more))).2.taken = as) :
      (scanned (as ++ bs ++ (ys ++ more))).2.rest = bs ++ (ys ++ more) :=
    Cut.rest_eq h (List.append_assoc ..)
  rw [left has] at hbs
  -- what comes after the number is what the part takes, or after that
  obtain ⟨sort, first⟩ : (scanned (as ++ bs ++ (ys ++ tail))).1 =
        (scanned (as ++ bs ++ (ys ++ rest))).1 ∧
      (scanned (as ++ bs ++ (ys ++ tail))).2.taken = as := by
    rw [regroup] at has ⊢
    rw [regroup]
    refine hs as (bs ++ ys) rest tail ends (fun y hy => ?_) has
    rw [List.head?_append, Option.or_eq_some_iff] at hy
    rcases hy with hy | ⟨-, hy⟩
    · exact link _ y (by rw [hbs]; exact hy)
    · exact fun mem => free y hy (List.mem_append_left _ mem)
  have second : (next (scanned (as ++ bs ++ (ys ++ tail))).2.rest).taken = bs := by
    rw [left first]
    exact hn bs ys rest tail ends (fun y hy mem => free y hy (List.mem_append_right _ mem)) hbs
  rw [← left has] at hbs
  constructor
  · simp only [DeferFetch.withPart, sort, second, hbs]
  · simp only [DeferFetch.withPart, Cut.andThen, first, second]

theorem exponentPart_taken_head {cs : List Char} {y : Char}
    (h : (exponentPart cs).taken.head? = some y) : y ∈ ['e', 'E'] := by
  cases cs with
  | nil => cases h
  | cons c cs =>
    rw [exponentPart_cons] at h
    split at h
    · rename_i go
      rw [Bool.and_eq_true] at go
      obtain rfl : c = y := Option.some.inj h
      simpa using go.1
    · cases h

theorem suffixPart_taken_head {cs : List Char} {y : Char}
    (h : (suffixPart cs).taken.head? = some y) : y ∈ ['l', 'L', 'f', 'F', 'd', 'D'] := by
  cases cs with
  | nil => cases h
  | cons c cs =>
    rw [suffixPart_cons] at h
    split at h
    · rename_i go
      obtain rfl : c = y := Option.some.inj h
      simp only [isFloatSuffix, Bool.or_eq_true, decide_eq_true_eq] at go
      simpa [or_assoc] using go
    · cases h

/-- The mark of a radix and the digits after it. -/
def radixPart (marks : List Char) (isPart : Char → Bool) : (cs : List Char) → Cut cs
  | c :: cs => if c ∈ marks then (Cut.takeWhile isPart cs).cons c else .empty _
  | [] => .empty []

theorem radixPart_again {marks : List Char} {isPart : Char → Bool}
    (hm : ∀ d, EndsToken d → d ∉ marks) (hp : ∀ d, EndsToken d → isPart d = false) :
    TakesAgain [] (radixPart marks isPart) := by
  refine .of_cons (fun c => decide (c ∈ marks)) (.takeWhile hp)
    (fun d hd => decide_eq_false (hm d hd)) ?_
  intro c cs
  simp only [radixPart, decide_eq_true_eq]

/-- A number with the suffix that may follow it. -/
def withSuffix (scanned : (cs : List Char) → Bool × Cut cs) : (cs : List Char) → Bool × Cut cs :=
  withPart (·.any isFloatSuffix) suffixPart scanned

/-- A number with a part that only floating-point literals have. -/
def withFloatPart (next : (cs : List Char) → Cut cs) (scanned : (cs : List Char) → Bool × Cut cs) :
    (cs : List Char) → Bool × Cut cs :=
  withPart (! ·.isEmpty) next scanned

theorem ScansAgain.withFloatPart {bad bad' : List Char} {next : (cs : List Char) → Cut cs}
    {scanned : (cs : List Char) → Bool × Cut cs} (hs : ScansAgain bad scanned)
    (hn : TakesAgain bad' next) (link : ∀ cs y, (next cs).taken.head? = some y → y ∉ bad) :
    ScansAgain (bad ++ bad') (withFloatPart next scanned) := hs.withPart hn link

/-- The suffix is taken again too, as no other part begins with its letters. -/
theorem ScansAgain.withSuffix {bad : List Char} {scanned : (cs : List Char) → Bool × Cut cs}
    (hs : ScansAgain bad scanned) (hb : ∀ y ∈ ['l', 'L', 'f', 'F', 'd', 'D'], y ∉ bad) :
    ScansAgain bad (withSuffix scanned) := by
  have : ScansAgain (bad ++ []) (DeferFetch.withSuffix scanned) :=
    hs.withPart suffixPart_again fun _ y hy => hb y (suffixPart_taken_head hy)
  rwa [List.append_nil] at this

/-- A number grows with its parts that take something. -/
theorem decide_length_lt_append (digits fraction exponent : List Char) :
    decide (digits.length < (digits ++ fraction ++ exponent).length) =
      (!fraction.isEmpty || !exponent.isEmpty) := by
  cases fraction <;> cases exponent <;> simp

/-- The mark of a radix and digits are one part of a number. -/
theorem radixPart_eq {marks : List Char} {p : Char → Bool} {cs : List Char}
    (mark : cs.head?.any (· ∈ marks) = true) :
    (Cut.first 1 cs).andThen (.takeWhile p) = radixPart marks p cs := by
  cases cs with
  | nil => cases mark
  | cons c cs =>
    have mem : c ∈ marks := by simpa using mark
    rw [radixPart, if_pos mem]
    exact Cut.eq_of_taken rfl

/-- Hexadecimal numbers. -/
theorem scanNumber_hex {c : Char} {cs : List Char}
    (mark : (c = '0' && cs.head?.any (· ∈ ['x', 'X'])) = true) :
    scanNumber c cs = withSuffix (withFloatPart hexExponentPart (withFloatPart hexFractionPart
      fun cs => (false, radixPart ['x', 'X'] isHexPart cs))) cs := by
  have digits := radixPart_eq (p := isHexPart) (Bool.and_eq_true_iff.1 mark).2
  rw [scanNumber]
  dsimp only
  rw [if_pos mark, digits]
  exact Prod.ext (congrArg (· || _) (decide_length_lt_append ..)) rfl

/-- Binary numbers. -/
theorem scanNumber_binary {c : Char} {cs : List Char}
    (hex : ¬ (c = '0' && cs.head?.any (· ∈ ['x', 'X'])) = true)
    (mark : (c = '0' && cs.head?.any (· ∈ ['b', 'B'])) = true) :
    scanNumber c cs = withSuffix (fun cs => (false, radixPart ['b', 'B'] isBinaryPart cs)) cs := by
  have digits := radixPart_eq (p := isBinaryPart) (Bool.and_eq_true_iff.1 mark).2
  rw [scanNumber]
  dsimp only
  rw [if_neg hex, if_pos mark, digits]
  rfl

/-- Decimal numbers that begin with a point. -/
theorem scanNumber_point (cs : List Char) :
    scanNumber '.' cs =
      withSuffix (withFloatPart exponentPart fun cs => (true, Cut.takeWhile isDigitPart cs)) cs :=
  rfl

/-- Other decimal numbers. -/
theorem scanNumber_decimal {c : Char} {cs : List Char} (point : c ≠ '.')
    (hex : ¬ (c = '0' && cs.head?.any (· ∈ ['x', 'X'])) = true)
    (binary : ¬ (c = '0' && cs.head?.any (· ∈ ['b', 'B'])) = true) :
    scanNumber c cs = withSuffix (withFloatPart exponentPart (withFloatPart fractionPart
      fun cs => (false, Cut.takeWhile isDigitPart cs))) cs := by
  rw [scanNumber]
  dsimp only
  rw [if_neg hex, if_neg binary, if_neg point, decide_eq_false point, Bool.false_or]
  exact Prod.ext (congrArg (· || _) (decide_length_lt_append ..)) rfl

section Radix

variable {marks : List Char} {xs rest tail : List Char}

/-- A number with the mark of a radix takes it. -/
theorem head?_append_of_mark {p : Char → Bool} (mark : (xs ++ rest).head?.any (· ∈ marks) = true)
    (takes : (radixPart marks p (xs ++ rest)).taken <+: xs) (tail : List Char) :
    (xs ++ rest).head? = (xs ++ tail).head? := by
  cases xs with
  | cons x xs => rfl
  | nil =>
    rw [List.nil_append] at mark takes
    rw [← radixPart_eq mark] at takes
    cases rest with
    | nil => cases mark
    | cons d rest => cases List.prefix_nil.1 takes

/-- A barrier is no mark of a radix. -/
theorem AtBarrier.no_mark (ends : AtBarrier tail) (hm : ∀ d, EndsToken d → d ∉ marks) {c : Char}
    (other : ¬ (c = '0' && (xs ++ rest).head?.any (· ∈ marks)) = true) :
    ¬ (c = '0' && (xs ++ tail).head?.any (· ∈ marks)) = true := by
  cases xs with
  | cons x xs => exact other
  | nil =>
    cases tail with
    | nil => simp
    | cons d tail => simp [hm d (ends d rfl).endsToken]

theorem prefix_of_withPart {tells : List Char → Bool} {next : (cs : List Char) → Cut cs}
    {scanned : (cs : List Char) → Bool × Cut cs} {cs : List Char}
    (h : (withPart tells next scanned cs).2.taken <+: xs) : (scanned cs).2.taken <+: xs :=
  (List.prefix_append _ _).trans h

end Radix

/-- **Numbers** — how far a number goes, and of which sort it is, shows before a barrier. -/
theorem scanNumber_again (c : Char) {xs rest tail : List Char} (ends : AtBarrier tail)
    (taken : (scanNumber c (xs ++ rest)).2.taken = xs) :
    (scanNumber c (xs ++ tail)).1 = (scanNumber c (xs ++ rest)).1 ∧
      (scanNumber c (xs ++ tail)).2.taken = xs := by
  have noX (d : Char) (hd : EndsToken d) : d ∉ ['x', 'X'] := by
    have := hd.ne_sign
    simp_all
  have noB (d : Char) (hd : EndsToken d) : d ∉ ['b', 'B'] := by
    have := hd.ne_sign
    simp_all
  -- by the sorts of numbers; each is a chain of parts, of which the last one is cut off by the barrier
  by_cases point : c = '.'
  · subst point
    have exponent := (digits_again.number true).withFloatPart exponentPart_again
      fun _ _ _ => List.not_mem_nil
    rw [scanNumber_point] at taken ⊢
    rw [scanNumber_point]
    exact (exponent.withSuffix (by simp)).last ends taken
  by_cases hex : (c = '0' && (xs ++ rest).head?.any (· ∈ ['x', 'X'])) = true
  · have digits := radixPart_again noX fun d hd => hd.inert.2.2.2.1
    have fraction := (digits.number false).withFloatPart hexFractionPart_again
      fun _ _ _ => List.not_mem_nil
    have exponent := fraction.withFloatPart hexExponentPart_again fun _ _ _ => List.not_mem_nil
    rw [scanNumber_hex hex] at taken ⊢
    have takes : (radixPart ['x', 'X'] isHexPart (xs ++ rest)).taken <+: xs :=
      prefix_of_withPart <| prefix_of_withPart <| prefix_of_withPart
        ⟨[], (List.append_nil _).trans taken⟩
    -- the mark of the radix is among the characters of the number
    have same := head?_append_of_mark (Bool.and_eq_true_iff.1 hex).2 takes tail
    rw [same] at hex
    rw [scanNumber_hex hex]
    exact (exponent.withSuffix (by simp)).last ends taken
  have hex' := ends.no_mark noX hex
  by_cases binary : (c = '0' && (xs ++ rest).head?.any (· ∈ ['b', 'B'])) = true
  · have digits := radixPart_again noB fun d hd => hd.inert.2.2.2.2.1
    rw [scanNumber_binary hex binary] at taken ⊢
    have takes : (radixPart ['b', 'B'] isBinaryPart (xs ++ rest)).taken <+: xs :=
      prefix_of_withPart <| ⟨[], (List.append_nil _).trans taken⟩
    have same := head?_append_of_mark (Bool.and_eq_true_iff.1 binary).2 takes tail
    rw [same] at binary
    rw [scanNumber_binary hex' binary]
    exact ((digits.number false).withSuffix (by simp)).last ends taken
  have fraction := (digits_again.number false).withFloatPart fractionPart_again
    fun _ _ _ => List.not_mem_nil
  have exponent := fraction.withFloatPart exponentPart_again fun cs y hy =>
    (by simp : ∀ y ∈ ['e', 'E'], y ∉ [] ++ ['.']) y (exponentPart_taken_head hy)
  rw [scanNumber_decimal point hex binary] at taken ⊢
  rw [scanNumber_decimal point hex' (ends.no_mark noB binary)]
  exact (exponent.withSuffix (by simp)).last ends taken

/-! ## Lexemes -/

section Scans

variable {c : Char} {cs rest tail : List Char} {k : TokenKind}

theorem Scan.number_again (ends : AtBarrier tail)
    (taken : (Scan.number c (cs ++ rest)).cut.taken = cs) :
    (Scan.number c (cs ++ tail)).SameAs (Scan.number c (cs ++ rest)) := by
  obtain ⟨sort, same⟩ := scanNumber_again c ends taken
  exact .spelled (by rw [sort]) (same.trans taken.symm)

/-- A number that begins with a point takes a digit. -/
theorem Scan.number_taken_ne_nil (digit : rest.head?.any Text.isDigit = true) :
    (Scan.number '.' rest).cut.taken ≠ [] := by
  intro taken
  have taken : (withSuffix (withFloatPart exponentPart fun cs => (true, Cut.takeWhile isDigitPart cs))
      rest).2.taken = [] := taken
  have none : rest.takeWhile isDigitPart <+: [] :=
    prefix_of_withPart <| prefix_of_withPart ⟨[], (List.append_nil _).trans taken⟩
  cases rest with
  | nil => cases digit
  | cons d rest =>
    have part : isDigitPart d = true := by
      rw [isDigitPart, show Text.isDigit d = true from digit, Bool.true_or]
    have := List.prefix_nil.1 none
    rw [List.takeWhile_cons_of_pos part] at this
    cases this

theorem Scan.word_again {kind : String → TokenKind} (ends : AtBarrier tail)
    (taken : (Scan.spelled c kind (.takeWhile isIdentifierPart (cs ++ rest))).cut.taken = cs) :
    (Scan.spelled c kind (.takeWhile isIdentifierPart (cs ++ tail))).SameAs
      (Scan.spelled c kind (.takeWhile isIdentifierPart (cs ++ rest))) := by
  have part : TakesAgain [] (Cut.takeWhile isIdentifierPart) := .takeWhile fun d hd => hd.inert.1
  exact .spelled rfl ((part.last ends taken).trans taken.symm)

/-- A closed literal on one line is known by its own characters. -/
theorem Scan.quoted_again {quote : Char} (hq : quote ≠ '\\') {kind : String → TokenKind}
    {cause : LexicalError} (valid : ∀ raw cause, k ≠ .error raw cause)
    (token : (Scan.literal c kind cause (throughQuote quote (cs ++ rest))).kind = .token k)
    (taken : (Scan.literal c kind cause (throughQuote quote (cs ++ rest))).cut.taken = cs) :
    (Scan.literal c kind cause (throughQuote quote (cs ++ tail))).SameAs
      (Scan.literal c kind cause (throughQuote quote (cs ++ rest))) := by
  refine .literal token valid fun closed => ?_
  have same := throughQuote_taken hq (cs ++ rest) tail closed
  rwa [show (throughQuote quote (cs ++ rest)).2.taken = cs from taken] at same ⊢

theorem Scan.string_again (ends : AtBarrier tail) (valid : ∀ raw cause, k ≠ .error raw cause)
    (token : (Scan.string (cs ++ rest)).kind = .token k)
    (taken : (Scan.string (cs ++ rest)).cut.taken = cs) :
    (Scan.string (cs ++ tail)).SameAs (Scan.string (cs ++ rest)) := by
  by_cases block : ∃ body, cs = '"' :: '"' :: body
  · obtain ⟨body, rfl⟩ := block
    refine .literal token valid fun closed => ?_
    have body_taken : (throughTripleQuote (body ++ rest)).2.taken = body :=
      (List.cons.inj (List.cons.inj taken).2).2
    obtain ⟨closed', same⟩ := throughTripleQuote_taken (body ++ rest) tail closed
    rw [body_taken] at closed' same
    exact ⟨closed', congrArg ('"' :: '"' :: ·) (same.trans body_taken.symm)⟩
  · -- two quotes would be the characters of the token
    have one : ∀ body, cs ++ rest ≠ '"' :: '"' :: body := by
      intro body h
      rw [h] at taken
      exact block ⟨_, taken.symm⟩
    have one' : ∀ body, cs ++ tail ≠ '"' :: '"' :: body := by
      intro body h
      match cs, block with
      | [], _ =>
        obtain rfl : tail = '"' :: '"' :: body := h
        exact absurd (ends '"' rfl) (by decide)
      | [_], _ =>
        obtain rfl : tail = '"' :: body := (List.cons.inj h).2
        exact absurd (ends '"' rfl) (by decide)
      | x :: y :: cs, block =>
        simp only [List.cons_append, List.cons.injEq] at h
        exact block ⟨cs, by rw [h.1, h.2.1]⟩
    rw [Scan.string_of_not one] at token taken ⊢
    rw [Scan.string_of_not one']
    exact Scan.quoted_again (by decide) valid token taken

/-- The operator that was found is what was scanned. -/
theorem eq_of_operator {op : List Char}
    (found : operators.find? (·.isPrefixOf (c :: (cs ++ rest))) = some op)
    (taken : (cs ++ rest).take (op.length - 1) = cs) : op = c :: cs := by
  obtain ⟨begins, -⟩ := List.find?_eq_some_iff_append.1 found
  cases op with
  | nil => exact absurd (List.mem_of_find?_eq_some found) (by decide)
  | cons a op =>
    have := List.prefix_iff_eq_take.1 (List.isPrefixOf_iff_prefix.1 begins)
    rw [List.length_cons, Nat.add_sub_cancel] at taken
    rwa [List.length_cons, List.take_succ_cons, taken] at this

theorem Scan.operator_again (ends : AtBarrier tail) (valid : ∀ raw cause, k ≠ .error raw cause)
    (token : (Scan.operator c (cs ++ rest)).kind = .token k)
    (taken : (Scan.operator c (cs ++ rest)).cut.taken = cs) :
    (Scan.operator c (cs ++ tail)).SameAs (Scan.operator c (cs ++ rest)) := by
  unfold Scan.operator at token taken ⊢
  cases h : operators.find? (·.isPrefixOf (c :: (cs ++ rest))) with
  | none =>
    simp only [h] at token
    cases token
    exact absurd rfl (valid _ _)
  | some op =>
    simp only [h] at taken
    obtain rfl : op = c :: cs := eq_of_operator h taken
    obtain ⟨begins, before, after, split, others⟩ := List.find?_eq_some_iff_append.1 h
    have same : operators.find? (·.isPrefixOf (c :: (cs ++ tail))) = some (c :: cs) := by
      refine List.find?_eq_some_iff_append.2 ⟨?_, before, after, split, fun op hop => ?_⟩
      · exact List.isPrefixOf_iff_prefix.2 (List.prefix_append (c :: cs) tail)
      · -- an operator that comes earlier would begin the first text too
        have other := others op hop
        simp only [Bool.not_eq_true', Bool.eq_false_iff, ne_eq, List.isPrefixOf_iff_prefix] at other ⊢
        intro h
        have hop : op ∈ operators := by
          rw [split]
          exact List.mem_append_left _ hop
        have within := (operator_prefix_iff hop fun d hd => (ends d hd).endsToken).1 h
        exact other (within.trans (List.prefix_append (c :: cs) rest))
    rw [same]
    exact .spelled rfl (by simp [Cut.first])

end Scans

/-- **`scan_again`** — a token that is scanned in one text is scanned in every other in which a barrier
follows its characters. -/
theorem scan_again (c : Char) {cs rest tail : List Char} {k : TokenKind} (ends : AtBarrier tail)
    (valid : ∀ raw cause, k ≠ .error raw cause) (token : (scan c (cs ++ rest)).kind = .token k)
    (taken : (scan c (cs ++ rest)).cut.taken = cs) :
    (scan c (cs ++ tail)).SameAs (scan c (cs ++ rest)) := by
  -- what comes next before the barrier came next before
  have next (m : Char) (hm : ¬ EndsToken m) (h : (cs ++ tail).head? = some m) :
      (cs ++ rest).head? = some m := head?_append_of_head? (ends.head?_append h hm) rest
  -- a token with the character that comes next ends after it
  have takeOne {m : Char} (h : (cs ++ rest).head? = some m) (one : (cs ++ rest).take 1 = cs) :
      cs = [m] := by
    rw [List.take_one, h] at one
    exact one.symm
  have points (dots : ['.', '.'] <+: cs ++ tail) : ['.', '.'] <+: cs ++ rest := by
    have inner : ∀ b ∈ ['.', '.'], ¬ EndsToken b := forall_of_all (by decide)
    have within := (prefix_append_iff inner fun d hd => (ends d hd).endsToken).1 dots
    exact within.trans (List.prefix_append cs rest)
  have scanned := scanned_scan c (cs ++ rest)
  generalize scan c (cs ++ rest) = s at scanned token taken ⊢
  cases scanned with
  | blank | lineComment => cases token
  | blockComment =>
    obtain ⟨raw, cause, rfl⟩ := Scan.blockComment_kind token
    exact absurd rfl (valid raw cause)
  | separator known =>
    rw [(Scanned.separator known).eq]
    exact ⟨rfl, rfl⟩
  | doubleColon first colon =>
    obtain rfl := takeOne colon taken
    rw [(Scanned.doubleColon first rfl).eq]
    exact ⟨rfl, rfl⟩
  | colon first alone =>
    rw [(Scanned.colon first (mt (next ':' (by decide)) alone)).eq]
    exact ⟨rfl, rfl⟩
  | equality first equals =>
    obtain rfl := takeOne equals taken
    rw [(Scanned.equality first rfl).eq]
    exact ⟨rfl, rfl⟩
  | equals first alone =>
    rw [(Scanned.equals first (mt (next '=' (by decide)) alone)).eq]
    exact ⟨rfl, rfl⟩
  | fraction first digit =>
    subst first
    -- the digit that makes it a number is a character of the token
    cases cs with
    | nil => exact absurd taken (Scan.number_taken_ne_nil digit)
    | cons x cs =>
      have digit' : (x :: cs ++ tail).head?.any Text.isDigit = true := digit
      rw [(Scanned.fraction rfl digit').eq]
      exact Scan.number_again ends taken
  | ellipsis first dots =>
    have two : (cs ++ rest).take 2 = cs := taken
    obtain rfl : ['.', '.'] = cs := (List.prefix_iff_eq_take.1 dots).trans two
    rw [(Scanned.ellipsis first (List.prefix_append ['.', '.'] tail)).eq]
    exact ⟨rfl, rfl⟩
  | dot first digit dots =>
    obtain rfl : [] = cs := taken
    -- a barrier is no digit
    have digit' : ([] ++ tail).head?.any Text.isDigit = false := by
      cases tail with
      | nil => rfl
      | cons d tail => simp [(ends d rfl).endsToken.inert]
    rw [(Scanned.dot first digit' (mt points dots)).eq]
    exact ⟨rfl, rfl⟩
  | string first =>
    rw [(Scanned.string first).eq]
    exact Scan.string_again ends valid token taken
  | character first =>
    subst first
    rw [(Scanned.character rfl).eq]
    exact Scan.quoted_again (by decide) valid token taken
  | number digit =>
    rw [(Scanned.number digit).eq]
    exact Scan.number_again ends taken
  | word start =>
    rw [(Scanned.word start).eq]
    exact Scan.word_again ends taken
  | operator unmarked digit start =>
    have comment (first : c = '/') :
        (cs ++ tail).head? ≠ some '/' ∧ (cs ++ tail).head? ≠ some '*' := by
      obtain ⟨line, block⟩ := unmarked.comment first
      refine ⟨fun h => ?_, mt (next '*' (by decide)) block⟩
      cases cs with
      | nil => exact (ends '/' h).ne_slash rfl
      | cons x cs => exact line h
    rw [(Scanned.operator { unmarked with comment } digit start).eq]
    exact Scan.operator_again ends valid token taken

/-! ## Tokens and blanks -/

/-- **A barrier decides nothing** — a token that is read in one text is read in every other in which a
barrier follows it. -/
theorem TokenKind.ReadsBefore.barrier {k : TokenKind} {rest tail : List Char} (h : k.ReadsBefore rest)
    (valid : k.isError = false) (ends : AtBarrier tail) : k.ReadsBefore tail := by
  obtain ⟨c, cs, text, token⟩ := h
  have same := scan_again c ends (by rintro raw cause rfl; cases valid) token (taken text token)
  exact ⟨c, cs, text, same.1.trans token⟩

/-- The tokens of a text are read in it. -/
theorem readsBefore_of_mem_tokenize {source : String} {file : Option String} {t : Token}
    (mem : t ∈ tokenize source file) (more : t.kind ≠ .eof) : ∃ rest, t.kind.ReadsBefore rest := by
  obtain ⟨body, e, whole, he, -, legible, -⟩ := legible_tokenize source file
  rw [whole, List.mem_append, List.mem_singleton] at mem
  rcases mem with mem | rfl
  · obtain ⟨before, after, rfl⟩ := List.append_of_mem mem
    obtain ⟨-, -, read, -⟩ := legible_append.1 legible
    exact ⟨_, read⟩
  · exact absurd he more

/-- **`apart ks`** — tokens of the given kinds with a blank before each but the first. -/
def apart : List TokenKind → List Token
  | [] => []
  | k :: ks => .synthetic k :: ks.map (Token.synthetic · " ")

theorem kinds_apart (ks : List TokenKind) : kinds (apart ks) = ks := by
  cases ks with
  | nil => rfl
  | cons k ks => simp [apart, kinds, Function.comp_def]

theorem spelling_blanks (k : TokenKind) (ks : List TokenKind) :
    k.text.toList ++ spelling (ks.map (Token.synthetic · " ")) =
      (String.intercalate " " ((k :: ks).map TokenKind.text)).toList := by
  induction ks generalizing k with
  | nil => simp
  | cons l ks ih =>
    rw [List.map_cons, List.map_cons, List.map_cons, String.intercalate_cons_cons, ← List.map_cons,
      String.toList_append, String.toList_append, ← ih l, spelling_cons]
    simp

/-- They are written with blanks between them. -/
theorem print_apart (ks : List TokenKind) :
    print (apart ks) = String.intercalate " " (ks.map TokenKind.text) := by
  refine String.toList_injective ?_
  rw [toList_print]
  cases ks with
  | nil => rfl
  | cons k ks => simpa [apart] using spelling_blanks k ks

theorem legible_apart {ks : List TokenKind}
    (read : ∀ k ∈ ks, k.isError = false ∧ ∃ rest, k.ReadsBefore rest) : Legible (apart ks) [] := by
  -- each of them is read before what comes next: a blank, or nothing
  have barrier (ks : List TokenKind) : AtBarrier (spelling (ks.map (Token.synthetic · " ")) ++ []) := by
    cases ks with
    | nil => nofun
    | cons k ks =>
      intro d hd
      obtain rfl : ' ' = d := by simpa using hd
      decide
  have others {ks : List TokenKind} (read : ∀ k ∈ ks, k.isError = false ∧ ∃ rest, k.ReadsBefore rest) :
      Legible (ks.map (Token.synthetic · " ")) [] := by
    induction ks with
    | nil => exact legible_nil []
    | cons k ks ih =>
      obtain ⟨⟨valid, rest, hk⟩, hks⟩ := List.forall_mem_cons.1 read
      exact ⟨by simpa using gap_blank, hk.barrier valid (barrier ks), ih hks⟩
  cases ks with
  | nil => exact legible_nil []
  | cons k ks =>
    obtain ⟨⟨valid, rest, hk⟩, hks⟩ := List.forall_mem_cons.1 read
    exact ⟨by simpa using gap_nil, hk.barrier valid (barrier ks), others hks⟩

/-- **Blanks keep tokens apart** — tokens of any texts, written with blanks between them, are read as
they were. -/
theorem tokenize_spaced (ts : List Token) (file : Option String)
    (read : ∀ t ∈ ts, ∃ source file, t ∈ tokenize source file)
    (valid : ∀ t ∈ ts, t.kind.isError = false ∧ t.kind ≠ .eof) :
    kinds (tokenize (String.intercalate " " (ts.map Token.text)) file) = kinds ts ++ [.eof] := by
  have legible : Legible (apart (kinds ts)) [] := by
    refine legible_apart fun k hk => ?_
    obtain ⟨t, ht, rfl⟩ := List.mem_map.1 hk
    obtain ⟨source, file, mem⟩ := read t ht
    exact ⟨(valid t ht).1, readsBefore_of_mem_tokenize mem (valid t ht).2⟩
  have texts : print (apart (kinds ts)) ++ "" = String.intercalate " " (ts.map Token.text) := by
    rw [print_apart, kinds, List.map_map, String.append_empty]
    rfl
  have bare (us : List Token) : kinds (us.map Token.bare) = kinds us := by
    simp [kinds, Function.comp_def]
  have ends : EndGap "".toList := by simp [EndGap, lexemes]
  have again := congrArg kinds (tokenize_print legible ends file)
  rw [texts, bare, kinds_append, bare, kinds_apart] at again
  exact again

/-- A number that ends in its point, an empty string, and shifts that are two tokens. -/
theorem tokenize_spaced_of_two_texts :
    let ts := (tokenize "f(1.,\"\"+0x1p-1)").dropLast ++ (tokenize "a>>=b...c").dropLast
    .floating "1." ∈ kinds ts ∧ (∀ t ∈ ts, ∃ source file, t ∈ tokenize source file) ∧
      (∀ t ∈ ts, t.kind.isError = false ∧ t.kind ≠ .eof) ∧
      kinds (tokenize (String.intercalate " " (ts.map Token.text))) = kinds ts ++ [.eof] := by
  intro ts
  have read : ∀ t ∈ ts, ∃ source file, t ∈ tokenize source file := by
    intro t ht
    rcases List.mem_append.1 ht with ht | ht
    · exact ⟨_, _, (List.dropLast_sublist _).subset ht⟩
    · exact ⟨_, _, (List.dropLast_sublist _).subset ht⟩
  have valid : ∀ t ∈ ts, t.kind.isError = false ∧ t.kind ≠ .eof := by decide +kernel
  exact ⟨by decide +kernel, read, valid, tokenize_spaced ts none read valid⟩

end DeferFetch
