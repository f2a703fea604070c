/-
# DeferFetch.Proofs.Lexing.Reading — texts that read as given tokens.

What stands between tokens is a gap: whatever token follows it, it is read as blanks and comments
only. A sequence of tokens is legible before some text if each of them is read again where its
source stands. The tokens of every text are legible (`legible_tokenize`), and a legible sequence
printed and read again gives tokens with the same kinds and the same text before them
(`tokenize_print`).
-/
import DeferFetch.Proofs.Lexing.Boundary

namespace DeferFetch

/-! ## Trivia -/

/-- The lexeme is no token. -/
def Lexeme.isTrivia (l : Lexeme) : Bool :=
  match l.kind with
  | .trivia _ => true
  | .token _ => false

/-- **`BeginsToken c cs`** — what begins with `c` when `cs` follows is a token. -/
def BeginsToken (c : Char) (cs : List Char) : Prop := ∃ k, (scan c cs).kind = .token k

/-- The lexemes of a text, the first one apart. -/
theorem lexemes_cons (c : Char) (cs : List Char) :
    lexemes (c :: cs) =
      ⟨(scan c cs).kind, c :: (scan c cs).cut.taken⟩ :: lexemes (scan c cs).cut.rest := by
  rw [lexemes]

/-- Which texts begin with trivia, and how far that goes. -/
theorem scan_trivia {c : Char} {cs : List Char} {kind : TriviaKind}
    (h : (scan c cs).kind = .trivia kind) :
    (kind = .blank ∧ isJavaBlank c = true ∧ (scan c cs).cut.taken = cs.takeWhile isJavaBlank) ∨
    (kind = .lineComment ∧ c = '/' ∧ cs.head? = some '/' ∧
      (scan c cs).cut.taken = cs.takeWhile (!isLineEnd ·)) ∨
    (kind = .blockComment ∧ c = '/' ∧ ∃ body cut, cs = '*' :: body ∧
      throughCommentEnd body = some cut ∧ (scan c cs).cut.taken = '*' :: cut.taken) := by
  have scanned := scanned_scan c cs
  generalize scan c cs = s at scanned h ⊢
  cases scanned with
  | blank blank =>
    cases h
    exact .inl ⟨rfl, blank, rfl⟩
  | lineComment first next =>
    cases h
    exact .inr (.inl ⟨rfl, first, next, rfl⟩)
  | blockComment first next =>
    obtain ⟨body, rfl⟩ := List.head?_eq_some_iff.1 next
    unfold Scan.blockComment at h ⊢
    cases hcut : throughCommentEnd body with
    | some cut =>
      simp only [hcut] at h ⊢
      cases h
      exact .inr (.inr ⟨rfl, first, body, cut, rfl, hcut, rfl⟩)
    | none =>
      simp only [hcut] at h
      cases h
  | string =>
    unfold Scan.string at h
    split at h <;> cases h
  | operator =>
    unfold Scan.operator at h
    split at h <;> cases h
  | _ => cases h

/-- A token begins with no blank and opens no comment on one line. -/
theorem BeginsToken.not_trivia {c : Char} {cs : List Char} (h : BeginsToken c cs) :
    isJavaBlank c = false ∧ ¬ (c = '/' ∧ cs.head? = some '/') := by
  obtain ⟨k, hk⟩ := h
  constructor
  · refine Bool.eq_false_iff.2 fun blank => ?_
    rw [(Scanned.blank blank).eq] at hk
    cases hk
  · rintro ⟨first, next⟩
    rw [(Scanned.lineComment first next).eq] at hk
    cases hk

/-! ## Gaps -/

/-- **`Gap xs`** — before every token, the text `xs` is read as trivia only. -/
def Gap (xs : List Char) : Prop :=
  ∀ c cs, BeginsToken c cs →
    ∃ ls, (∀ l ∈ ls, l.isTrivia = true) ∧ lexemes (xs ++ c :: cs) = ls ++ lexemes (c :: cs)

theorem gap_nil : Gap [] := fun _ _ _ => ⟨[], nofun, rfl⟩

/-- A text that begins with a blank, of which the blanks are read together. -/
theorem lexemes_blank {b : Char} (hb : isJavaBlank b = true) (cs : List Char) :
    lexemes (b :: cs) = ⟨.trivia .blank, b :: cs.takeWhile isJavaBlank⟩
      :: lexemes (cs.dropWhile isJavaBlank) := by
  rw [lexemes_cons, (Scanned.blank hb).eq]
  rfl

/-- Blanks before a text are read together with those it begins with. -/
theorem lexemes_blanks_append {bs : List Char} (hne : bs ≠ []) (hbs : ∀ b ∈ bs, isJavaBlank b = true)
    (cs : List Char) :
    lexemes (bs ++ cs) = ⟨.trivia .blank, bs ++ cs.takeWhile isJavaBlank⟩
      :: lexemes (cs.dropWhile isJavaBlank) := by
  cases bs with
  | nil => exact absurd rfl hne
  | cons b bs =>
    obtain ⟨hb, hbs⟩ := List.forall_mem_cons.1 hbs
    rw [List.cons_append, lexemes_blank hb, List.takeWhile_append_of_pos hbs,
      List.dropWhile_append_of_pos hbs]
    rfl

/-- Blanks before a token end where it begins. -/
theorem BeginsToken.dropWhile_append {c : Char} {cs : List Char} (h : BeginsToken c cs)
    (xs : List Char) :
    (xs ++ c :: cs).dropWhile isJavaBlank = xs.dropWhile isJavaBlank ++ c :: cs := by
  rw [List.dropWhile_append]
  split
  · rename_i hnil
    simp [List.isEmpty_iff.1 hnil, h.not_trivia.1]
  · rfl

/-- What is left of a gap without the blanks it begins with is a gap. -/
theorem Gap.dropWhile_blank {xs : List Char} (h : Gap xs) : Gap (xs.dropWhile isJavaBlank) := by
  intro c cs hc
  obtain ⟨ls, hls, heq⟩ := h c cs hc
  cases xs with
  | nil => exact ⟨ls, hls, heq⟩
  | cons x xs =>
    by_cases hx : isJavaBlank x = true
    · rw [List.cons_append, lexemes_blank hx, hc.dropWhile_append] at heq
      cases ls with
      | nil =>
        -- the whole text would be shorter than its end
        have := congrArg (fun ls => (ls.flatMap Lexeme.text).length) heq
        simp only [List.flatMap_cons, lexemes_flatten, List.nil_append, List.length_append,
          List.length_cons] at this
        omega
      | cons l ls =>
        rw [List.dropWhile_cons_of_pos hx]
        exact ⟨ls, fun l hl => hls l (List.mem_cons_of_mem _ hl), (List.cons.inj heq).2⟩
    · rw [List.dropWhile_cons_of_neg hx]
      exact ⟨ls, hls, heq⟩

/-- Blanks may come before a gap. -/
theorem Gap.blanks_append {bs xs : List Char} (hbs : ∀ b ∈ bs, isJavaBlank b = true) (h : Gap xs) :
    Gap (bs ++ xs) := by
  by_cases hne : bs = []
  · rwa [hne]
  intro c cs hc
  obtain ⟨ls, hls, heq⟩ := h.dropWhile_blank c cs hc
  rw [List.append_assoc, lexemes_blanks_append hne hbs, hc.dropWhile_append, heq]
  exact ⟨_ :: ls, List.forall_mem_cons.2 ⟨rfl, hls⟩, rfl⟩

theorem gap_blank : Gap " ".toList :=
  Gap.blanks_append (show ∀ b ∈ [' '], isJavaBlank b = true by simp [isJavaBlank]) gap_nil

/-- Characters of a class end where another character comes. -/
theorem takeWhile_append_stop {p : Char → Bool} {as : List Char} (zs : List Char) (has : ∀ a ∈ as, p a = true)
    (hzs : ∀ d, zs.head? = some d → p d = false) :
    (as ++ zs).takeWhile p = as ∧ (as ++ zs).dropWhile p = zs := by
  rw [List.takeWhile_append_of_pos has, List.dropWhile_append_of_pos has]
  cases zs with
  | nil => simp
  | cons d zs => simp [hzs d rfl]

/-- What is left after the characters of a class begins with another one. -/
theorem head?_of_takeWhile {p : Char → Bool} {cs taken rest : List Char}
    (ht : taken = cs.takeWhile p) (hcs : taken ++ rest = cs) :
    (∀ a ∈ taken, p a = true) ∧ ∀ d, rest.head? = some d → p d = false := by
  subst ht
  refine ⟨fun a ha => List.all_eq_true.1 List.all_takeWhile a ha, fun d hd => ?_⟩
  obtain rfl : rest = cs.dropWhile p :=
    List.append_cancel_left (hcs.trans List.takeWhile_append_dropWhile.symm)
  have := List.head?_dropWhile_not p cs
  rw [hd] at this
  simpa using this

/-- A scan is determined by the lexeme that it finds. -/
theorem lexemes_of_scan (kind : LexemeKind) {c : Char} {taken rest : List Char}
    (hk : (scan c (taken ++ rest)).kind = kind) (ht : (scan c (taken ++ rest)).cut.taken = taken) :
    lexemes (c :: (taken ++ rest)) = ⟨kind, c :: taken⟩ :: lexemes rest := by
  have hrest : (scan c (taken ++ rest)).cut.rest = rest := by
    have whole := (scan c (taken ++ rest)).cut.whole
    rw [ht] at whole
    exact List.append_cancel_left whole
  rw [lexemes_cons, hk, ht, hrest]

/-- Trivia before a gap and a token are the same before the gap and any other token. -/
theorem lexemes_trivia_congr {x : Char} {taken ys : List Char} {c₀ c : Char} {cs₀ cs : List Char}
    {kind : TriviaKind} (h₀ : BeginsToken c₀ cs₀) (h : BeginsToken c cs)
    (hk : (scan x (taken ++ (ys ++ c₀ :: cs₀))).kind = .trivia kind)
    (ht : (scan x (taken ++ (ys ++ c₀ :: cs₀))).cut.taken = taken) :
    lexemes (x :: (taken ++ (ys ++ c :: cs))) =
      ⟨.trivia kind, x :: taken⟩ :: lexemes (ys ++ c :: cs) := by
  rcases scan_trivia hk with ⟨rfl, hx, hw⟩ | ⟨rfl, rfl, hs, hw⟩ | ⟨rfl, rfl, body, cut, hbody, hcut, hw⟩
  · -- blanks end before what is no blank
    obtain ⟨hall, hnext⟩ := head?_of_takeWhile (ht.symm.trans hw) rfl
    have hstop := takeWhile_append_stop (ys ++ c :: cs) hall fun d hd => by
      cases ys with
      | nil =>
        cases hd
        exact h.not_trivia.1
      | cons y ys => exact hnext d hd
    rw [lexemes_blank hx, hstop.1, hstop.2]
  · -- a comment on one line ends before the end of the line, which is a blank
    obtain ⟨hall, hnext⟩ := head?_of_takeWhile (ht.symm.trans hw) rfl
    obtain ⟨y, ys, rfl⟩ : ∃ y ys', ys = y :: ys' := by
      cases ys with
      | nil =>
        have hend := hnext c₀ rfl
        have hblank := h₀.not_trivia.1
        simp only [Bool.not_eq_false', isLineEnd, Bool.or_eq_true, decide_eq_true_eq] at hend
        rcases hend with rfl | rfl <;> simp [isJavaBlank] at hblank
      | cons y ys => exact ⟨y, ys, rfl⟩
    have hstop := takeWhile_append_stop (y :: ys ++ c :: cs) hall hnext
    obtain ⟨t, rfl⟩ : ∃ t, taken = '/' :: t := by
      cases taken with
      | nil =>
        have hend := hnext y rfl
        have hy : y = '/' := by simpa using hs
        subst hy
        simp [isLineEnd] at hend
      | cons t ts => exact ⟨ts, by simpa using hs⟩
    have line : Scanned '/' ('/' :: t ++ (y :: ys ++ c :: cs)) _ := .lineComment rfl rfl
    refine lexemes_of_scan (.trivia .lineComment) ?_ ?_
    · rw [line.eq]
    · rw [line.eq]
      exact hstop.1
  · obtain rfl : taken = '*' :: cut.taken := ht.symm.trans hw
    obtain ⟨cut', hcut', hsame⟩ := throughCommentEnd_taken body (ys ++ c :: cs) cut hcut
    have block : Scanned '/' ('*' :: cut.taken ++ (ys ++ c :: cs)) _ := .blockComment rfl rfl
    refine lexemes_of_scan (.trivia .blockComment) ?_ ?_
    · rw [block.eq]
      simp [Scan.blockComment, hcut']
    · rw [block.eq]
      simp [Scan.blockComment, hcut', Cut.cons, hsame]

/-- **Trivia do not depend on the token after them** — what is read as trivia before one token is
read as the same trivia before every other. -/
theorem lexemes_before_token {ls : List Lexeme} {xs : List Char} {c₀ c : Char} {cs₀ cs : List Char}
    (h₀ : BeginsToken c₀ cs₀) (hls : ∀ l ∈ ls, l.isTrivia = true)
    (heq : lexemes (xs ++ c₀ :: cs₀) = ls ++ lexemes (c₀ :: cs₀)) (h : BeginsToken c cs) :
    lexemes (xs ++ c :: cs) = ls ++ lexemes (c :: cs) := by
  have flat : xs = ls.flatMap Lexeme.text := by
    have := congrArg (List.flatMap Lexeme.text) heq
    rw [List.flatMap_append, lexemes_flatten, lexemes_flatten] at this
    exact List.append_cancel_right this
  -- piece by piece: the texts of the lexemes say where each of them is cut off
  induction ls generalizing xs with
  | nil =>
    subst flat
    rfl
  | cons l ls ih =>
    cases xs with
    | nil =>
      obtain ⟨k, hk⟩ := h₀
      rw [List.nil_append, lexemes_cons, hk] at heq
      have := hls l (List.mem_cons_self ..)
      rw [← (List.cons.inj heq).1] at this
      cases this
    | cons x xs =>
      rw [List.cons_append, lexemes_cons] at heq
      obtain ⟨hl, hrest⟩ := List.cons.inj heq
      obtain ⟨taken, ht⟩ : ∃ taken, (scan x (xs ++ c₀ :: cs₀)).cut.taken = taken := ⟨_, rfl⟩
      obtain ⟨kind, hk⟩ : ∃ kind, (scan x (xs ++ c₀ :: cs₀)).kind = .trivia kind := by
        have := hls l (List.mem_cons_self ..)
        rw [← hl] at this
        cases hk : (scan x (xs ++ c₀ :: cs₀)).kind with
        | trivia kind => exact ⟨kind, rfl⟩
        | token k => simp [Lexeme.isTrivia, hk] at this
      have hxs : xs = taken ++ ls.flatMap Lexeme.text := by
        rw [← hl, ht, List.flatMap_cons] at flat
        exact (List.cons.inj flat).2
      have hcut : (scan x (xs ++ c₀ :: cs₀)).cut.rest =
          ls.flatMap Lexeme.text ++ c₀ :: cs₀ := by
        have whole := (scan x (xs ++ c₀ :: cs₀)).cut.whole
        rw [ht] at whole
        exact List.append_cancel_left (whole.trans (by rw [← List.append_assoc, ← hxs]))
      have rest := ih (fun l hl => hls l (List.mem_cons_of_mem _ hl)) (by rw [← hcut]; exact hrest) rfl
      rw [← hl, hk, ht]
      have hwhole : xs ++ c₀ :: cs₀ = taken ++ (ls.flatMap Lexeme.text ++ c₀ :: cs₀) := by
        rw [hxs, List.append_assoc]
      rw [hwhole] at hk ht
      rw [hxs, List.cons_append, List.append_assoc, lexemes_trivia_congr h₀ h hk ht, rest]
      rfl

/-- **Gaps occur between tokens** — what was read as trivia before one token is a gap. -/
theorem gap_of_lexemes {ls : List Lexeme} {xs : List Char} {c₀ : Char} {cs₀ : List Char}
    (h₀ : BeginsToken c₀ cs₀) (hls : ∀ l ∈ ls, l.isTrivia = true)
    (heq : lexemes (xs ++ c₀ :: cs₀) = ls ++ lexemes (c₀ :: cs₀)) : Gap xs :=
  fun _ _ h => ⟨ls, hls, lexemes_before_token h₀ hls heq h⟩

/-! ## Tokens in a text -/

/-- **`k.ReadsBefore rest`** — the text of a token of the kind `k` is read as that before `rest`. -/
def TokenKind.ReadsBefore (k : TokenKind) (rest : List Char) : Prop :=
  ∃ c cs, k.text.toList = c :: cs ∧ (scan c (cs ++ rest)).kind = .token k

namespace TokenKind.ReadsBefore

variable {k : TokenKind} {rest : List Char}

/-- What is scanned is the text of the token. -/
theorem taken {c : Char} {cs : List Char} (ht : k.text.toList = c :: cs)
    (hk : (scan c (cs ++ rest)).kind = .token k) : (scan c (cs ++ rest)).cut.taken = cs :=
  ((List.cons.inj ((scan_text c (cs ++ rest) k hk).symm.trans ht)).2)

theorem lexemes (h : k.ReadsBefore rest) :
    DeferFetch.lexemes (k.text.toList ++ rest) =
      ⟨.token k, k.text.toList⟩ :: DeferFetch.lexemes rest := by
  obtain ⟨c, cs, ht, hk⟩ := h
  rw [ht, List.cons_append, lexemes_of_scan (.token k) hk (taken ht hk)]

/-- The first character of the text begins a token. -/
theorem begins (h : k.ReadsBefore rest) :
    ∃ c cs, k.text.toList = c :: cs ∧ BeginsToken c (cs ++ rest) := by
  obtain ⟨c, cs, ht, hk⟩ := h
  exact ⟨c, cs, ht, k, hk⟩

/-- What comes after a character that ends tokens does not matter. -/
theorem congr {xs zs zs' : List Char} {d d' : Char} (h : k.ReadsBefore (xs ++ d :: zs))
    (hk : ∀ raw cause, k ≠ .error raw cause) (hd : EndsToken d) (hd' : EndsToken d')
    (slash : d' = '/' → d = '/') :
    k.ReadsBefore (xs ++ d' :: zs') := by
  obtain ⟨c, cs, ht, hscan⟩ := h
  have htaken := taken ht hscan
  rw [← List.append_assoc] at hscan htaken
  have same := scan_congr c (cs ++ xs) zs zs' hd hd' slash hscan hk (by rw [htaken]; simp)
  exact ⟨c, cs, ht, by rw [← List.append_assoc, same.1, hscan]⟩

end TokenKind.ReadsBefore

/-! ## Legible tokens -/

/-- **`spelling ts`** — the characters of some tokens with what stands before each of them. -/
def spelling (ts : List Token) : List Char :=
  ts.flatMap fun t => t.leadingText.toList ++ t.kind.text.toList

@[simp] theorem spelling_nil : spelling [] = [] := rfl

@[simp] theorem spelling_cons (t : Token) (ts : List Token) :
    spelling (t :: ts) = t.leadingText.toList ++ (t.kind.text.toList ++ spelling ts) := by
  simp [spelling]

@[simp] theorem spelling_append (ts us : List Token) :
    spelling (ts ++ us) = spelling ts ++ spelling us := by
  simp [spelling]

theorem toList_print (ts : List Token) : (print ts).toList = spelling ts := by
  simp [print, spelling, Token.source, List.flatMap_map, String.toList_join]

/-- **`Legible ts tail`** — before `tail`, each of the tokens is read again where it stands, and what
stands before it is a gap. -/
def Legible : List Token → List Char → Prop
  | [], _ => True
  | t :: ts, tail =>
    Gap t.leadingText.toList ∧ t.kind.ReadsBefore (spelling ts ++ tail) ∧ Legible ts tail

@[simp] theorem legible_nil (tail : List Char) : Legible [] tail := trivial

@[simp] theorem legible_cons {t : Token} {ts : List Token} {tail : List Char} :
    Legible (t :: ts) tail ↔
      Gap t.leadingText.toList ∧ t.kind.ReadsBefore (spelling ts ++ tail) ∧ Legible ts tail :=
  Iff.rfl

/-- Tokens are legible one part after the other. -/
@[simp] theorem legible_append {ts us : List Token} {tail : List Char} :
    Legible (ts ++ us) tail ↔ Legible ts (spelling us ++ tail) ∧ Legible us tail := by
  induction ts with
  | nil => simp
  | cons t ts ih => simp [ih, and_assoc]

/-- The text of legible tokens is read as blanks and comments, the first token, and the rest. -/
theorem Legible.lexemes {t : Token} {ts : List Token} {tail : List Char} (h : Legible (t :: ts) tail) :
    ∃ ls, (∀ l ∈ ls, l.isTrivia = true) ∧ ls.flatMap Lexeme.text = t.leadingText.toList ∧
      DeferFetch.lexemes (spelling (t :: ts) ++ tail) =
        ls ++ ⟨.token t.kind, t.kind.text.toList⟩ :: DeferFetch.lexemes (spelling ts ++ tail) := by
  obtain ⟨hgap, hread, -⟩ := h
  obtain ⟨c, cs, ht, hbegins⟩ := hread.begins
  obtain ⟨ls, hls, hlex⟩ := hgap c _ hbegins
  refine ⟨ls, hls, ?_, ?_⟩
  · have := congrArg (List.flatMap Lexeme.text) hlex
    rw [List.flatMap_append, lexemes_flatten, lexemes_flatten] at this
    exact (List.append_cancel_right this).symm
  · have hsplit : spelling (t :: ts) ++ tail =
        t.leadingText.toList ++ c :: (cs ++ (spelling ts ++ tail)) := by
      rw [spelling_cons, ht]
      simp
    rw [hsplit, hlex, ← List.cons_append, ← ht, hread.lexemes]

/-- The text is read as blanks and comments, up to its end. -/
def EndGap (tail : List Char) : Prop := ∀ l ∈ lexemes tail, l.isTrivia = true

/-! ## Reading tokens again -/

/-- **`t.bare`** — the token with nothing but its kind and the text before it. -/
def Token.bare (t : Token) : Token := .synthetic t.kind t.leadingText

@[simp] theorem Token.kind_synthetic (k : TokenKind) (s : String) :
    (Token.synthetic k s).kind = k := rfl

@[simp] theorem Token.leadingText_synthetic (k : TokenKind) (s : String) :
    (Token.synthetic k s).leadingText = s := by
  unfold Token.synthetic Token.leadingText
  split
  · rename_i h
    simp [String.isEmpty_iff.1 h]
  · simp

@[simp] theorem Token.kind_bare (t : Token) : t.bare.kind = t.kind := rfl

@[simp] theorem Token.leadingText_bare (t : Token) : t.bare.leadingText = t.leadingText := by
  simp [Token.bare]

@[simp] theorem Token.bare_bare (t : Token) : t.bare.bare = t.bare := by simp [Token.bare]

/-- Bare tokens are equal if they are of the same kind after the same text. -/
theorem Token.bare_eq_iff {t u : Token} :
    t.bare = u.bare ↔ t.kind = u.kind ∧ t.leadingText = u.leadingText := by
  constructor
  · intro h
    exact ⟨by simpa using congrArg Token.kind h, by simpa using congrArg Token.leadingText h⟩
  · rintro ⟨hk, hl⟩
    rw [Token.bare, Token.bare, hk, hl]

theorem spelling_bare (ts : List Token) : spelling (ts.map Token.bare) = spelling ts := by
  simp [spelling, List.flatMap_map]

/-- Bare tokens print as the tokens do. -/
theorem print_bare (ts : List Token) : print (ts.map Token.bare) = print ts := by
  apply String.toList_injective
  rw [toList_print, toList_print, spelling_bare]

theorem legible_bare {ts : List Token} {tail : List Char} :
    Legible (ts.map Token.bare) tail ↔ Legible ts tail := by
  induction ts with
  | nil => exact Iff.rfl
  | cons t ts ih => simp [spelling_bare, ih]

/-- Blanks and comments before a token are cut off in one way. -/
theorem trivia_unique {ls ls' ms ms' : List Lexeme} {l l' : Lexeme} (hls : ∀ x ∈ ls, x.isTrivia = true)
    (hls' : ∀ x ∈ ls', x.isTrivia = true) (hl : l.isTrivia = false) (hl' : l'.isTrivia = false)
    (same : ls ++ l :: ms = ls' ++ l' :: ms') : ls = ls' ∧ l = l' ∧ ms = ms' := by
  induction ls generalizing ls' with
  | nil =>
    cases ls' with
    | nil => exact ⟨rfl, (List.cons.inj same).1, (List.cons.inj same).2⟩
    | cons x ls' =>
      rw [(List.cons.inj same).1, hls' x List.mem_cons_self] at hl
      cases hl
  | cons x ls ih =>
    obtain ⟨hx, hls⟩ := List.forall_mem_cons.1 hls
    cases ls' with
    | nil =>
      rw [(List.cons.inj same).1, hl'] at hx
      cases hx
    | cons y ls' =>
      obtain ⟨rfl, others⟩ := List.cons.inj same
      obtain ⟨rfl, rest⟩ := ih hls (List.forall_mem_cons.1 hls').2 others
      exact ⟨rfl, rest⟩

/-- **A text is read in one way** — legible tokens with the same text before the same tail are the
same, up to where they stand. -/
theorem Legible.bare_unique {ts us : List Token} {tail : List Char} (ht : Legible ts tail)
    (hu : Legible us tail) (same : spelling ts = spelling us) :
    ts.map Token.bare = us.map Token.bare := by
  have nonempty {t : Token} {ts : List Token} (h : Legible (t :: ts) tail) : spelling (t :: ts) ≠ [] := by
    obtain ⟨-, ⟨c, cs, text, -⟩, -⟩ := h
    rw [spelling_cons, text]
    simp
  induction ts generalizing us with
  | nil =>
    cases us with
    | nil => rfl
    | cons u us => exact absurd same.symm (nonempty hu)
  | cons t ts ih =>
    cases us with
    | nil => exact absurd same (nonempty ht)
    | cons u us =>
      obtain ⟨ls, hls, lead, split⟩ := ht.lexemes
      obtain ⟨ls', hls', lead', split'⟩ := hu.lexemes
      rw [same, split'] at split
      obtain ⟨rfl, token, rest⟩ := trivia_unique hls' hls rfl rfl split
      have kind : u.kind = t.kind := by
        rw [Lexeme.mk.injEq, LexemeKind.token.injEq] at token
        exact token.1
      have text : spelling ts = spelling us := by
        have := congrArg (List.flatMap Lexeme.text) rest
        rw [lexemes_flatten, lexemes_flatten] at this
        exact (List.append_cancel_right this).symm
      have first : t.bare = u.bare :=
        Token.bare_eq_iff.2 ⟨kind.symm, String.toList_injective (lead.symm.trans lead')⟩
      rw [List.map_cons, List.map_cons, first, ih ht.2.2 hu.2.2 text]

/-- The text of pieces of trivia. -/
def triviaText (ts : List Trivia) : String := String.join (ts.map Trivia.text)

theorem Token.leadingText_mk (k : TokenKind) (pending : List Trivia) (span : Span) :
    Token.leadingText ⟨k, pending, span⟩ = triviaText pending := rfl

/-- Trivia are gathered before the next token. -/
theorem assemble_trivia (file : Option String) (k : Cursor) (pending : List Trivia)
    {ls : List Lexeme} (hls : ∀ l ∈ ls, l.isTrivia = true) (more : List Lexeme) :
    ∃ k' pending', assemble file k pending (ls ++ more) = assemble file k' pending' more ∧
      triviaText pending' = triviaText pending ++ String.ofList (ls.flatMap Lexeme.text) := by
  induction ls generalizing k pending with
  | nil => exact ⟨k, pending, rfl, by simp⟩
  | cons l ls ih =>
    obtain ⟨hl, hmore⟩ := List.forall_mem_cons.1 hls
    obtain ⟨kind, text⟩ := l
    cases kind with
    | token kind => cases hl
    | trivia kind =>
      obtain ⟨k', pending', h₁, h₂⟩ := ih (k.advance text)
        (pending ++ [⟨kind, String.ofList text, k.spanTo (k.advance text) file⟩]) hmore
      refine ⟨k', pending', by rw [List.cons_append, assemble]; exact h₁, ?_⟩
      rw [h₂]
      simp [triviaText, String.join_append, String.append_assoc]

/-- Legible tokens are read again, after anything. -/
theorem assemble_legible {ts : List Token} {tail : List Char} (h : Legible ts tail)
    (hend : EndGap tail) (file : Option String) (k : Cursor) :
    (assemble file k [] (lexemes (spelling ts ++ tail))).map Token.bare =
      ts.map Token.bare ++ [.synthetic .eof (String.ofList tail)] := by
  induction ts generalizing k with
  | nil =>
    obtain ⟨k', pending, heq, htext⟩ := assemble_trivia file k [] hend []
    rw [List.append_nil, lexemes_flatten] at *
    rw [spelling_nil, List.nil_append, heq, assemble]
    have hlead : triviaText pending = String.ofList tail := by simpa [triviaText] using htext
    simp [Token.bare, Token.leadingText_mk, hlead]
  | cons t ts ih =>
    obtain ⟨ls, hls, hlead, hlex⟩ := h.lexemes
    obtain ⟨k', pending, heq, htext⟩ := assemble_trivia file k [] hls
      (⟨.token t.kind, t.kind.text.toList⟩ :: lexemes (spelling ts ++ tail))
    rw [hlex, heq, assemble, List.map_cons, ih h.2.2, List.map_cons]
    refine congrArg (· :: _) (Token.bare_eq_iff.2 ⟨rfl, ?_⟩)
    rw [Token.leadingText_mk, htext, hlead, String.ofList_toList]
    simp [triviaText]

/-- **Printing and reading** — legible tokens, printed before the text `tail`, are read as they
were. -/
theorem tokenize_print {ts : List Token} {tail : String} (h : Legible ts tail.toList)
    (hend : EndGap tail.toList) (file : Option String) :
    (tokenize (print ts ++ tail) file).map Token.bare =
      ts.map Token.bare ++ [.synthetic .eof tail] := by
  have := assemble_legible h hend file {}
  rw [String.ofList_toList] at this
  rw [tokenize, String.toList_append, toList_print, this]

/-! ## What is read is legible -/

/-- The lexeme that a piece of trivia was read as. -/
def Trivia.lexeme (t : Trivia) : Lexeme := ⟨.trivia t.kind, t.text.toList⟩

/-- **`t.Tidy`** — the pieces of trivia before the token are those that their text is read as before
every token. -/
def Token.Tidy (t : Token) : Prop :=
  ∀ c cs, BeginsToken c cs →
    lexemes (t.leadingText.toList ++ c :: cs) = t.trivia.map Trivia.lexeme ++ lexemes (c :: cs)

theorem Trivia.isTrivia_lexeme {pending : List Trivia} :
    ∀ l ∈ pending.map Trivia.lexeme, l.isTrivia = true := by
  intro l hl
  obtain ⟨t, -, rfl⟩ := List.mem_map.1 hl
  rfl

/-- What was read as some pieces of trivia is their text. -/
theorem triviaText_of_lexemes {pending : List Trivia} {pre cs : List Char}
    (h : lexemes (pre ++ cs) = pending.map Trivia.lexeme ++ lexemes cs) :
    triviaText pending = String.ofList pre := by
  have := congrArg (List.flatMap Lexeme.text) h
  rw [List.flatMap_append, lexemes_flatten, lexemes_flatten] at this
  rw [List.append_cancel_right this]
  apply String.toList_injective
  simp [triviaText, String.toList_join, List.flatMap_map, Trivia.lexeme]

/-- What the lexemes of a text are assembled to, when the text `pre` before it was read as the
pending trivia. -/
theorem legible_assemble (file : Option String) (cs : List Char) (k : Cursor)
    (pending : List Trivia) (pre : List Char)
    (hpre : lexemes (pre ++ cs) = pending.map Trivia.lexeme ++ lexemes cs) :
    ∃ body e, assemble file k pending (lexemes cs) = body ++ [e] ∧ e.kind = .eof ∧
      (∀ t ∈ body, t.kind ≠ .eof) ∧ Legible body e.leadingText.toList ∧
      EndGap e.leadingText.toList ∧ spelling body ++ e.leadingText.toList = pre ++ cs ∧
      ∀ t ∈ body, t.Tidy := by
  have hpending := triviaText_of_lexemes hpre
  -- along the lexemes: `pre` is the text of the trivia that wait for the next token
  fun_induction lexemes cs generalizing k pending pre with
  | case1 =>
    refine ⟨[], _, by rw [assemble]; rfl, rfl, List.forall_mem_nil _, trivial, ?_, ?_,
      List.forall_mem_nil _⟩
    · rw [List.append_nil, List.append_nil] at hpre
      rw [Token.leadingText_mk, hpending, String.toList_ofList]
      exact fun l hl => Trivia.isTrivia_lexeme l (hpre ▸ hl)
    · rw [Token.leadingText_mk, hpending, String.toList_ofList, List.append_nil]
      rfl
  | case2 c cs scanned ih =>
    obtain ⟨kind, hkind⟩ : ∃ kind, scanned.kind = kind := ⟨_, rfl⟩
    rw [hkind]
    have whole : c :: cs = (c :: scanned.cut.taken) ++ scanned.cut.rest := by
      rw [List.cons_append, scanned.cut.whole]
    cases kind with
    | trivia kind =>
      let piece : Trivia := ⟨kind, String.ofList (c :: scanned.cut.taken),
        k.spanTo (k.advance (c :: scanned.cut.taken)) file⟩
      have hnext : lexemes (pre ++ (c :: scanned.cut.taken) ++ scanned.cut.rest) =
          (pending ++ [piece]).map Trivia.lexeme ++ lexemes scanned.cut.rest := by
        rw [List.append_assoc, ← whole, hpre, hkind]
        simp [piece, Trivia.lexeme]
      obtain ⟨body, e, heq, he, hbody, hlegible, hend, hspell, htidy⟩ :=
        ih (k.advance (c :: scanned.cut.taken)) _ _ hnext (triviaText_of_lexemes hnext)
      refine ⟨body, e, by rw [assemble]; exact heq, he, hbody, hlegible, hend, ?_, htidy⟩
      rw [hspell, List.append_assoc, ← whole]
    | token kind =>
      have htoken : (scan c cs).kind = .token kind := hkind
      -- the token takes what waits, so nothing waits after it
      obtain ⟨body, e, heq, he, hbody, hlegible, hend, hspell, htidy⟩ :=
        ih (k.advance (c :: scanned.cut.taken)) [] [] rfl rfl
      rw [List.nil_append] at hspell
      have htext : kind.text.toList = c :: scanned.cut.taken := scan_text c cs kind htoken
      have hlead : lexemes (pre ++ c :: cs) = pending.map Trivia.lexeme ++ lexemes (c :: cs) :=
        hpre.trans (by rw [lexemes_cons])
      refine ⟨⟨kind, pending, _⟩ :: body, e, by rw [assemble, heq]; rfl, he, ?_, ⟨?_, ?_, hlegible⟩,
        hend, ?_, ?_⟩
      · refine List.forall_mem_cons.2 ⟨?_, hbody⟩
        rintro rfl
        cases htext
      · rw [Token.leadingText_mk, hpending, String.toList_ofList]
        exact gap_of_lexemes ⟨kind, htoken⟩ Trivia.isTrivia_lexeme hlead
      · exact ⟨c, scanned.cut.taken, htext, by rw [hspell, scanned.cut.whole]; exact htoken⟩
      · rw [spelling_cons, Token.leadingText_mk, hpending, String.toList_ofList, htext,
          List.append_assoc, List.append_assoc, hspell, ← whole]
      · refine List.forall_mem_cons.2 ⟨fun d ds hd => ?_, htidy⟩
        rw [Token.leadingText_mk, hpending, String.toList_ofList]
        exact lexemes_before_token ⟨kind, htoken⟩ Trivia.isTrivia_lexeme hlead hd

/-- **The tokens of a text are legible** — they are followed by the one that ends the text, which
keeps what comes after all others. -/
theorem legible_tokenize (source : String) (file : Option String) :
    ∃ body e, tokenize source file = body ++ [e] ∧ e.kind = .eof ∧ (∀ t ∈ body, t.kind ≠ .eof) ∧
      Legible body e.leadingText.toList ∧ EndGap e.leadingText.toList ∧
      spelling body ++ e.leadingText.toList = source.toList := by
  obtain ⟨body, e, h, he, hbody, legible, ends, spelt, -⟩ :=
    legible_assemble file source.toList {} [] [] rfl
  exact ⟨body, e, h, he, hbody, legible, ends, spelt⟩

/-- Before the end of a text, tokens are tidy. -/
theorem tidy_of_tokenize {source : String} {file : Option String} {body : List Token} {e : Token}
    (h : tokenize source file = body ++ [e]) : ∀ t ∈ body, t.Tidy := by
  obtain ⟨body', e', h', -, -, -, -, -, tidy⟩ := legible_assemble file source.toList {} [] [] rfl
  obtain ⟨rfl, -⟩ := List.append_inj' (h.symm.trans h') rfl
  exact tidy

/-- Tidy tokens after the same text are after the same pieces of trivia. -/
theorem Token.Tidy.trivia_eq {t u : Token} (ht : t.Tidy) (hu : u.Tidy)
    (same : t.leadingText = u.leadingText) :
    t.trivia.map Trivia.lexeme = u.trivia.map Trivia.lexeme := by
  have sign : BeginsToken '@' [] := ⟨.at, by decide⟩
  have read := ht '@' [] sign
  rw [same, hu '@' [] sign] at read
  exact (List.append_cancel_right read).symm

/-- **`t.before`** — the kinds and texts of the pieces of trivia before the token. -/
def Token.before (t : Token) : List (TriviaKind × String) := t.trivia.map fun x => (x.kind, x.text)

theorem before_eq_of_lexeme {xs ys : List Trivia}
    (h : xs.map Trivia.lexeme = ys.map Trivia.lexeme) :
    xs.map (fun x => (x.kind, x.text)) = ys.map fun x => (x.kind, x.text) := by
  induction xs generalizing ys with
  | nil => rw [List.map_eq_nil_iff.1 h.symm]
  | cons x xs ih =>
    cases ys with
    | nil => cases h
    | cons y ys =>
      obtain ⟨first, others⟩ := List.cons.inj h
      simp only [Trivia.lexeme, Lexeme.mk.injEq, LexemeKind.trivia.injEq] at first
      rw [List.map_cons, List.map_cons, ih others, first.1, String.toList_injective first.2]

theorem Token.Tidy.before_eq {t u : Token} (ht : t.Tidy) (hu : u.Tidy) (same : t.bare = u.bare) :
    t.before = u.before := by
  have texts : t.leadingText = u.leadingText := by
    rw [← t.leadingText_bare, same, u.leadingText_bare]
  exact before_eq_of_lexeme (ht.trivia_eq hu texts)

theorem before_eq_of_bare {ts us : List Token} (ht : ∀ t ∈ ts, t.Tidy) (hu : ∀ u ∈ us, u.Tidy)
    (same : ts.map Token.bare = us.map Token.bare) : ts.map Token.before = us.map Token.before := by
  induction ts generalizing us with
  | nil =>
    rw [List.map_eq_nil_iff.1 same.symm]
  | cons t ts ih =>
    cases us with
    | nil => cases same
    | cons u us =>
      obtain ⟨ht, hts⟩ := List.forall_mem_cons.1 ht
      obtain ⟨hu, hus⟩ := List.forall_mem_cons.1 hu
      obtain ⟨first, others⟩ := List.cons.inj same
      rw [List.map_cons, List.map_cons, ht.before_eq hu first, ih hts hus others]

end DeferFetch
