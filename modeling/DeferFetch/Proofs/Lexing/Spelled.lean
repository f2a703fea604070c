/-
# DeferFetch.Proofs.Lexing.Spelled — tokens written out.

Tokens that come from no text are written out one right after the other. What is written out of a
dotted name is read again as its identifiers and dots; and tokens that were read before one character
that ends tokens are read again before another one.
-/
import DeferFetch.Proofs.Lexing.Trim
import DeferFetch.Proofs.Naming.Dotted

namespace DeferFetch

/-! ## Tokens of given kinds -/

/-- **`spelled leading ks`** — tokens of the given kinds, of which the first comes after the blanks
`leading` and the others after nothing. -/
def spelled (leading : String) : List TokenKind → List Token
  | [] => []
  | k :: ks => .synthetic k leading :: ks.map (Token.synthetic ·)

@[simp] theorem kinds_spelled (leading : String) (ks : List TokenKind) :
    kinds (spelled leading ks) = ks := by
  cases ks with
  | nil => rfl
  | cons k ks => simp [spelled, kinds, Function.comp_def, Token.synthetic]

theorem spelled_eq_nil {leading : String} {ks : List TokenKind} :
    spelled leading ks = [] ↔ ks = [] := by
  cases ks <;> simp [spelled]

/-- **`nameKinds names`** — the kinds of the tokens of a name. -/
def nameKinds (names : List String) : List TokenKind :=
  (names.map TokenKind.identifier).intersperse .dot

theorem nameKinds_cons (x : String) (names : List String) :
    ∃ ks, nameKinds (x :: names) = .identifier x :: ks := by
  cases names <;> exact ⟨_, rfl⟩

theorem nameKinds_cons_cons (x y : String) (names : List String) :
    nameKinds (x :: y :: names) = .identifier x :: .dot :: nameKinds (y :: names) := rfl

theorem spelling_synthetic (ks : List TokenKind) :
    spelling (ks.map (Token.synthetic ·)) = ks.flatMap fun k => k.text.toList := by
  simp [spelling, List.flatMap_map]

theorem spelling_spelled {leading : String} {ks : List TokenKind} (ne : ks ≠ []) :
    spelling (spelled leading ks) = leading.toList ++ ks.flatMap fun k => k.text.toList := by
  cases ks with
  | nil => exact absurd rfl ne
  | cons k ks => simp [spelled, spelling_synthetic]

/-- The tokens of a name spell the name. -/
theorem text_nameKinds {names : List String} (ne : names ≠ []) :
    ((nameKinds names).flatMap fun k => k.text.toList) = (dotted names).toList := by
  induction names with
  | nil => exact absurd rfl ne
  | cons x names ih =>
    cases names with
    | nil => simp [nameKinds, dotted_singleton, TokenKind.text]
    | cons y names =>
      rw [nameKinds_cons_cons, dotted_cons_cons, List.flatMap_cons, List.flatMap_cons,
        ih (List.cons_ne_nil _ _)]
      simp [TokenKind.text]

/-! ## Reading them -/

/-- No identifier goes on with what comes next. -/
def EndsWord (rest : List Char) : Prop := ∀ d, rest.head? = some d → isIdentifierPart d = false

theorem EndsWord.of_cons {d : Char} {rest : List Char} (h : isIdentifierPart d = false) :
    EndsWord (d :: rest) := by
  intro e he
  cases he
  exact h

/-- A dot is read before an identifier. -/
theorem dot_readsBefore {name : String} (h : IsIdentifier name) (rest : List Char) :
    TokenKind.dot.ReadsBefore (name.toList ++ rest) := by
  obtain ⟨-, c, cs, ht, hc, -⟩ := h
  have digit : Text.isDigit c = false := isDigit_of_isIdentifierStart hc
  have dots : ¬ ['.', '.'] <+: c :: (cs ++ rest) := by
    rintro ⟨more, dots⟩
    obtain ⟨rfl, -⟩ := List.cons.inj dots
    exact absurd hc (by decide)
  refine ⟨'.', [], rfl, ?_⟩
  rw [ht, List.cons_append, List.nil_append, (Scanned.dot rfl (by simpa using digit) dots).eq]

/-- An equals sign is read before anything but another one. -/
theorem equals_readsBefore {rest : List Char} (h : rest.head? ≠ some '=') :
    TokenKind.equals.ReadsBefore rest := by
  refine ⟨'=', [], rfl, ?_⟩
  rw [List.nil_append, (Scanned.equals rfl h).eq]

/-- The tokens of a name are legible. -/
theorem legible_nameKinds {names : List String} (h : ∀ x ∈ names, IsIdentifier x) {tail : List Char}
    (ends : EndsWord tail) : Legible ((nameKinds names).map (Token.synthetic ·)) tail := by
  induction names with
  | nil => exact legible_nil tail
  | cons x names ih =>
    obtain ⟨hx, hnames⟩ := List.forall_mem_cons.1 h
    have gap {k : TokenKind} : Gap (Token.synthetic k).leadingText.toList := by
      simpa using gap_nil
    cases names with
    | nil => exact ⟨gap, hx.readsBefore ends, legible_nil tail⟩
    | cons y names =>
      have hy := hnames y List.mem_cons_self
      obtain ⟨ks, hks⟩ := nameKinds_cons y names
      have after (tail : List Char) :
          spelling ((nameKinds (y :: names)).map (Token.synthetic ·)) ++ tail =
            y.toList ++ ((ks.flatMap fun k => k.text.toList) ++ tail) := by
        rw [spelling_synthetic, hks]
        simp [TokenKind.text]
      rw [nameKinds_cons_cons]
      refine ⟨gap, hx.readsBefore ?_, gap, ?_, ih hnames⟩
      · have : isIdentifierPart '.' = false := by decide
        exact EndsWord.of_cons this
      · rw [after]
        exact dot_readsBefore hy _

/-- Tokens that are written out are legible after any blanks if they are legible after none. -/
theorem legible_spelled {leading : String} {ks : List TokenKind} {tail : List Char}
    (gap : Gap leading.toList) (h : Legible (ks.map (Token.synthetic ·)) tail) :
    Legible (spelled leading ks) tail := by
  cases ks with
  | nil => exact legible_nil tail
  | cons k ks =>
    obtain ⟨-, read, others⟩ := h
    exact ⟨by simpa using gap, read, others⟩

/-! ## Reading tokens before something else -/

/-- **`EndsHere tail`** — a character that ends tokens comes next. -/
def EndsHere (tail : List Char) : Prop := ∃ d zs, tail = d :: zs ∧ EndsToken d

/-- A gap begins with a blank or with the slash of a comment. -/
theorem Gap.endsToken {c : Char} {cs : List Char} (h : Gap (c :: cs)) : EndsToken c := by
  cases hc : isJavaBlank c with
  | true => exact (IsBarrier.of_isJavaBlank hc).endsToken
  | false =>
    rw [h.head_eq_slash hc]
    decide

/-- What a separator begins with, blanks and comments before it included, ends tokens. -/
theorem EndsHere.of_spelling {t : Token} {ts : List Token} {tail : List Char}
    (gap : Gap t.leadingText.toList) {c : Char} {cs : List Char} (text : t.kind.text.toList = c :: cs)
    (ends : EndsToken c) : EndsHere (spelling (t :: ts) ++ tail) := by
  rw [spelling_cons, text]
  cases hl : t.leadingText.toList with
  | nil => exact ⟨c, _, rfl, ends⟩
  | cons d ds =>
    rw [hl] at gap
    exact ⟨d, _, rfl, gap.endsToken⟩

/-- Tokens that end before one character that ends tokens end before every barrier. -/
theorem Legible.before {ts : List Token} {tail : List Char} (h : Legible ts tail)
    (valid : ∀ t ∈ ts, t.kind.isError = false) (here : EndsHere tail) {d : Char} (hd : IsBarrier d)
    (zs : List Char) : Legible ts (d :: zs) := by
  obtain ⟨e, es, rfl, he⟩ := here
  induction ts with
  | nil => exact legible_nil _
  | cons t ts ih =>
    obtain ⟨gap, read, others⟩ := h
    obtain ⟨ht, hts⟩ := List.forall_mem_cons.1 valid
    refine ⟨gap, read.congr (fun raw cause error => ?_) he hd.endsToken
      (fun slash => absurd slash hd.ne_slash), ih hts others⟩
    rw [error] at ht
    cases ht

/-! ## Tokens that stand alone -/

/-- What comes after a character that ends tokens does not matter to the tokens before it. -/
theorem Legible.through {ts : List Token} {xs zs : List Char} {d : Char}
    (h : Legible ts (xs ++ d :: zs)) (valid : ∀ t ∈ ts, t.kind.isError = false) (hd : EndsToken d)
    (zs' : List Char) : Legible ts (xs ++ d :: zs') := by
  induction ts with
  | nil => exact legible_nil _
  | cons t ts ih =>
    obtain ⟨gap, read, others⟩ := h
    obtain ⟨ht, hts⟩ := List.forall_mem_cons.1 valid
    rw [← List.append_assoc] at read
    refine ⟨gap, ?_, ih others hts⟩
    rw [← List.append_assoc]
    refine read.congr (fun raw cause error => ?_) hd hd fun slash => slash
    rw [error] at ht
    cases ht

/-- **`Standalone ts`** — the tokens are legible whatever comes after them. -/
def Standalone (ts : List Token) : Prop := ∀ tail, Legible ts tail

theorem standalone_nil : Standalone [] := legible_nil

theorem Standalone.append {ts us : List Token} (h : Standalone ts) (h' : Standalone us) :
    Standalone (ts ++ us) := fun tail => legible_append.2 ⟨h _, h' tail⟩

theorem Standalone.flatMap {α : Type} {tokens : α → List Token} {as : List α}
    (h : ∀ a ∈ as, Standalone (tokens a)) : Standalone (as.flatMap tokens) := by
  induction as with
  | nil => exact standalone_nil
  | cons a as ih =>
    obtain ⟨ha, has⟩ := List.forall_mem_cons.1 h
    exact ha.append (ih has)

/-- **Separators are read before anything** — so tokens stand alone that end in one at which every token
before it ends. -/
theorem Standalone.of_separator {c : Char} {k : TokenKind} (separator : separatorKind? c = some k)
    (hc : EndsToken c) {ts : List Token} {t : Token} {tail : List Char}
    (valid : ∀ t ∈ ts, t.kind.isError = false) (ends : t.kind = k) (h : Legible (ts ++ [t]) tail) :
    Standalone (ts ++ [t]) := by
  intro tail'
  obtain ⟨before, gap, -⟩ := legible_append.1 h
  have spelt (tail : List Char) : spelling [t] ++ tail = t.leadingText.toList ++ c :: tail := by
    simp [ends, separatorKind?_text separator]
  rw [spelt] at before
  refine legible_append.2 ⟨?_, gap, ?_, legible_nil tail'⟩
  · rw [spelt]
    exact before.through valid hc tail'
  · rw [ends]
    exact separator_readsBefore separator _

end DeferFetch
