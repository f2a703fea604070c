/-
# DeferFetch.Proofs.Lexing.Words — the tokens that an annotation can be written with.

Which texts are read as identifiers, and what has to follow a word or a separator for it to be read
as one.
-/
import DeferFetch.Proofs.Lexing.Reading

namespace DeferFetch

/-! ## Identifiers -/

/-- **`IsIdentifier name`** — the text is read as an identifier. -/
def IsIdentifier (name : String) : Prop :=
  wordKind name = .identifier name ∧ ∃ c cs, name.toList = c :: cs ∧
    isIdentifierStart c = true ∧ ∀ d ∈ cs, isIdentifierPart d = true

/-- The characters are those of a word. -/
def isWord : List Char → Bool
  | [] => false
  | c :: cs => isIdentifierStart c && cs.all isIdentifierPart

theorem isIdentifier_iff {name : String} :
    IsIdentifier name ↔ wordKind name = .identifier name ∧ isWord name.toList = true := by
  refine and_congr_right fun _ => ?_
  cases name.toList with
  | nil => simp [isWord]
  | cons c cs => simp [isWord, and_assoc]

instance (name : String) : Decidable (IsIdentifier name) := decidable_of_iff' _ isIdentifier_iff

/-- A word is scanned up to the first character that no identifier has. -/
theorem scan_word {c : Char} {cs rest : List Char} (hc : isIdentifierStart c = true)
    (hcs : ∀ d ∈ cs, isIdentifierPart d = true)
    (hrest : ∀ d, rest.head? = some d → isIdentifierPart d = false) :
    (scan c (cs ++ rest)).kind = .token (wordKind (String.ofList (c :: cs))) := by
  rw [(Scanned.word hc).eq]
  simp only [Scan.spelled, Cut.takeWhile, (takeWhile_append_stop rest hcs hrest).1]

/-- An identifier is read before what no identifier goes on with. -/
theorem IsIdentifier.readsBefore {name : String} (h : IsIdentifier name) {rest : List Char}
    (hrest : ∀ d, rest.head? = some d → isIdentifierPart d = false) :
    (TokenKind.identifier name).ReadsBefore rest := by
  obtain ⟨hw, c, cs, ht, hc, hcs⟩ := h
  refine ⟨c, cs, ht, ?_⟩
  rw [scan_word hc hcs hrest, ← ht, String.ofList_toList, hw]

/-- A kind that keeps its text is an identifier only where the text is a word. -/
theorem Scan.spelled_identifier {c : Char} {cs : List Char} {kind : String → TokenKind}
    {cut : Cut cs} {name : String} (hkind : ∀ s, kind s ≠ .identifier name) :
    (Scan.spelled c kind cut).kind ≠ .token (.identifier name) :=
  fun h => hkind _ (LexemeKind.token.inj h)

theorem Scan.literal_identifier {c : Char} {cs : List Char} {kind : String → TokenKind}
    {cause : LexicalError} {scanned : Bool × Cut cs} {name : String}
    (hkind : ∀ s, kind s ≠ .identifier name) :
    (Scan.literal c kind cause scanned).kind ≠ .token (.identifier name) := by
  refine Scan.spelled_identifier fun s => ?_
  split
  · exact hkind s
  · exact nofun

/-- What is scanned as an identifier is one. -/
theorem isIdentifier_of_scan {c : Char} {cs : List Char} {name : String}
    (h : (scan c cs).kind = .token (.identifier name)) :
    isIdentifierStart c = true ∧ wordKind name = .identifier name ∧
      name.toList = c :: cs.takeWhile isIdentifierPart := by
  have scanned := scanned_scan c cs
  generalize scan c cs = s at scanned h
  cases scanned with
  | separator known =>
    cases LexemeKind.token.inj h
    unfold separatorKind? at known
    split at known <;> cases known
  | blockComment =>
    obtain ⟨raw, cause, hk⟩ := Scan.blockComment_kind h
    cases hk
  | equality => exact absurd h (Scan.spelled_identifier fun _ => TokenKind.noConfusion)
  | fraction | number =>
    exact absurd h (Scan.spelled_identifier fun s => by split <;> exact TokenKind.noConfusion)
  | string =>
    unfold Scan.string at h
    split at h <;> exact absurd h (Scan.literal_identifier fun _ => TokenKind.noConfusion)
  | character => exact absurd h (Scan.literal_identifier fun _ => TokenKind.noConfusion)
  | word start =>
    have hword := LexemeKind.token.inj h
    have htext := congrArg (fun k => k.text.toList) hword
    simp only [wordKind_text, String.toList_ofList, Cut.takeWhile] at htext
    have hname : String.ofList (c :: cs.takeWhile isIdentifierPart) = name := by
      rw [htext]
      exact String.ofList_toList
    exact ⟨start, by rw [← hname]; rw [← hname] at hword; exact hword, htext.symm⟩
  | operator =>
    unfold Scan.operator at h
    split at h <;> exact absurd h (Scan.spelled_identifier fun _ => TokenKind.noConfusion)
  | _ => cases h

/-- Every identifier in a text is one by itself. -/
theorem TokenKind.ReadsBefore.isIdentifier {name : String} {rest : List Char}
    (h : (TokenKind.identifier name).ReadsBefore rest) : IsIdentifier name := by
  obtain ⟨c, cs, ht, hk⟩ := h
  obtain ⟨hc, hw, hname⟩ := isIdentifier_of_scan hk
  exact ⟨hw, c, _, hname, hc, fun d hd => List.all_eq_true.1 List.all_takeWhile d hd⟩

/-- No character of an identifier is a dot. -/
theorem IsIdentifier.dotless {name : String} (h : IsIdentifier name) : '.' ∉ name.toList := by
  obtain ⟨-, c, cs, ht, hc, hcs⟩ := h
  have hdot : isIdentifierPart '.' = false := by decide
  rw [ht, List.mem_cons, not_or]
  constructor
  · rintro rfl
    exact absurd hc (by decide)
  · intro hmem
    rw [hcs _ hmem] at hdot
    cases hdot

theorem Legible.isIdentifier {ts : List Token} {tail : List Char} (h : Legible ts tail) :
    ∀ t ∈ ts, ∀ name, t.kind = .identifier name → IsIdentifier name := by
  induction ts with
  | nil => exact nofun
  | cons t ts ih =>
    obtain ⟨-, hread, hmore⟩ := h
    rintro u hu name hk
    rcases List.mem_cons.1 hu with rfl | hu
    · exact (hk ▸ hread).isIdentifier
    · exact ih hmore u hu name hk

/-! ## Separators -/

/-- The separators of one character are read before anything. -/
theorem separator_readsBefore {c : Char} {k : TokenKind} (h : separatorKind? c = some k)
    (rest : List Char) : k.ReadsBefore rest := by
  refine ⟨c, [], separatorKind?_text h, ?_⟩
  rw [(Scanned.separator h).eq]

end DeferFetch
