/-
# DeferFetch.Proofs.Grammar.Unique — tokens form one tree.

The parsers read just the trees that fit, and a parser has one result; so of the trees that fit the
same budget, no two begin the same tokens. The arguments of an annotation are cut apart in one way,
whether or not each of them has a name.
-/
import DeferFetch.Proofs.Grammar.Tree

namespace DeferFetch

/-- Of the results that a parser can give on the same tokens, there is one. -/
theorem Parser.Reads.unique {α : Type} {p : Parser α} {tokens : α → List Token}
    {fits : α → List TokenKind → Prop} (h : p.Reads tokens fits) {a b : α} {rest rest' : List Token}
    (ha : fits a (kinds rest)) (hb : fits b (kinds rest')) (same : tokens a ++ rest = tokens b ++ rest') :
    a = b ∧ rest = rest' :=
  ((h { rest := tokens a ++ rest } a rest).2 ⟨rfl, ha⟩).unique
    ((h { rest := tokens a ++ rest } b rest').2 ⟨same, hb⟩)

section Arguments

variable {n : Nat} {rest rest' : List Token}

theorem Argument.Fits.unique {a b : Argument} (ha : a.Fits n (kinds rest)) (hb : b.Fits n (kinds rest'))
    (same : a.tokens ++ rest = b.tokens ++ rest') : a = b ∧ rest = rest' := by
  rw [Argument.tokens, Argument.tokens, List.append_assoc, List.append_assoc] at same
  have la : fitsLabel a.label (kinds (a.value.tokens ++ rest)) := by simpa using ha.1
  have lb : fitsLabel b.label (kinds (b.value.tokens ++ rest')) := by simpa using hb.1
  obtain ⟨hlabel, same⟩ := Parser.label?_reads.unique la lb same
  obtain ⟨hvalue, hrest⟩ := (Grammar.ofBudget_exact n).value.reads.unique ha.2 hb.2 same
  obtain ⟨label, value⟩ := a
  obtain ⟨label', value'⟩ := b
  exact ⟨by rw [show label = label' from hlabel, show value = value' from hvalue], hrest⟩

/-- Arguments are cut apart in one way. -/
theorem Argument.listFits_unique {as bs : List Argument} {commas commas' : List Token}
    (closes : atClosing (kinds rest) = true) (closes' : atClosing (kinds rest') = true)
    (ha : listFits n as commas (kinds rest)) (hb : listFits n bs commas' (kinds rest'))
    (same : listTokens as commas ++ rest = listTokens bs commas' ++ rest') :
    as = bs ∧ commas = commas' ∧ rest = rest' := by
  have none {bs : List Argument} {commas' rest rest' : List Token} (closes : atClosing (kinds rest) = true)
      (hb : listFits n bs commas' (kinds rest')) (same : rest = listTokens bs commas' ++ rest') :
      bs = [] := by
    cases bs with
    | nil => rfl
    | cons b bs =>
      rw [same, kinds_append, hb.begins (List.cons_ne_nil b bs)] at closes
      cases closes
  have comma {comma : Token} {ts : List Token} (hk : comma.kind = .comma) :
      atClosing (kinds (comma :: ts)) = false := by
    simp [atClosing, hk, TokenKind.isClosing]
  -- an argument is the last one in both lists or in neither: a bracket closes only after the last
  induction as generalizing commas bs commas' with
  | nil =>
    obtain rfl : commas = [] := ha
    obtain rfl := none closes hb same
    obtain rfl : commas' = [] := hb
    exact ⟨rfl, rfl, same⟩
  | cons a as ih =>
    cases bs with
    | nil =>
      obtain rfl : commas' = [] := hb
      exact absurd (none closes' ha same.symm) (List.cons_ne_nil a as)
    | cons b bs =>
      cases commas with
      | nil =>
        obtain ⟨rfl, fits⟩ := listFits_last.1 ha
        cases commas' with
        | nil =>
          obtain ⟨rfl, fits'⟩ := listFits_last.1 hb
          rw [listTokens_last, listTokens_last] at same
          obtain ⟨rfl, hrest⟩ := fits.unique fits' same
          exact ⟨rfl, rfl, hrest⟩
        | cons comma' commas' =>
          obtain ⟨hk, -, fits', -⟩ := listFits_cons.1 hb
          rw [listTokens_last, listTokens_cons, List.append_assoc] at same
          obtain ⟨-, rfl⟩ := fits.unique (by simpa using fits') same
          rw [List.cons_append, comma hk] at closes
          cases closes
      | cons comma' commas =>
        obtain ⟨hk, -, fits, others⟩ := listFits_cons.1 ha
        rw [listTokens_cons, List.append_assoc] at same
        cases commas' with
        | nil =>
          obtain ⟨rfl, fits'⟩ := listFits_last.1 hb
          rw [listTokens_last] at same
          obtain ⟨-, rfl⟩ := fits'.unique (by simpa using fits) same.symm
          rw [List.cons_append, comma hk] at closes'
          cases closes'
        | cons comma'' commas' =>
          obtain ⟨-, -, fits', others'⟩ := listFits_cons.1 hb
          rw [listTokens_cons, List.append_assoc] at same
          obtain ⟨rfl, hcommas⟩ := Fits.unique (by simpa using fits) (by simpa using fits') same
          obtain ⟨rfl, hothers⟩ := List.cons.inj hcommas
          obtain ⟨rfl, rfl, hrest⟩ := ih others others' hothers
          exact ⟨rfl, rfl, hrest⟩

/-- **`a.Written n f`** — the annotation fits the budget `n` before `f`, except that several arguments
may be without names. -/
def Annotation.Written (n : Nat) : Annotation → List TokenKind → Prop
  | ⟨_, _, none⟩, _ => False
  | ⟨_, name, some ⟨opening, arguments, commas, closing⟩⟩, f =>
    name.Fits [opening.kind] ∧ opening.kind = .opening .paren ∧ closing.kind = .closing .paren ∧
      Argument.listFits (n - 1) arguments commas (closing.kind :: f)

/-- **Annotations are read in one way** — whatever annotation some written tokens form, its arguments
are those that were written. -/
theorem Annotation.Written.unique {a b : Annotation} (ha : a.Written n (kinds rest))
    (hb : b.Fits n (kinds rest')) (same : a.tokens ++ rest = b.tokens ++ rest') :
    a = b ∧ rest = rest' := by
  have name {t : Token} {f : List Token} {m : QualifiedName} (hm : m.Fits [t.kind])
      (ht : t.kind = .opening .paren) : m.Fits (kinds (t :: f)) := by
    rw [kinds_cons, Parser.fits_before_paren ht]
    exact hm
  obtain ⟨sigil, x, _ | ⟨opening, arguments, commas, closing⟩⟩ := a
  · exact ha.elim
  obtain ⟨hx, hopening, hclosing, hf⟩ := ha
  have closes {t : Token} (ht : t.kind = .closing .paren) (f : List Token) :
      atClosing (kinds (t :: f)) = true := by
    simp [atClosing, ht, TokenKind.isClosing]
  obtain ⟨sigil', y, _ | ⟨opening', arguments', commas', closing'⟩⟩ := b
  · obtain ⟨-, -, hy, bare⟩ := hb
    simp only [List.cons_append, Annotation.tokens, List.append_assoc, List.cons.injEq] at same
    obtain ⟨rfl, same⟩ := same
    obtain ⟨-, rfl⟩ := (Parser.qualifiedName_reads .annotationName).unique (name hx hopening) hy same
    -- a name alone is not followed by the parenthesis that follows here
    simp [atKind, hopening] at bare
  · obtain ⟨-, -, hy, hopening', hclosing', -, hf'⟩ := hb
    simp only [List.cons_append, Annotation.tokens, List.append_assoc, List.nil_append,
      List.cons.injEq] at same
    obtain ⟨rfl, same⟩ := same
    obtain ⟨rfl, inner⟩ := (Parser.qualifiedName_reads .annotationName).unique (name hx hopening)
      (name hy hopening') same
    obtain ⟨rfl, between⟩ := List.cons.inj inner
    obtain ⟨rfl, rfl, last⟩ := Argument.listFits_unique (closes hclosing rest)
      (closes hclosing' rest') hf hf' between
    obtain ⟨rfl, hrest⟩ := List.cons.inj last
    exact ⟨rfl, hrest⟩

end Arguments

end DeferFetch
