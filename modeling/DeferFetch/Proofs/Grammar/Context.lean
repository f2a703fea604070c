/-
# DeferFetch.Proofs.Grammar.Context — where else a tree fits.

A tree that fits a budget fits every larger one. An argument that fits before a comma fits before the
closing parenthesis too, and the other way round: either ends it.
-/
import DeferFetch.Proofs.Grammar.Standing

namespace DeferFetch

/-! ## Larger budgets -/

mutual

theorem TokenTree.Fits.mono {n m : Nat} (hnm : n ≤ m) {tree : TokenTree} {f : List TokenKind}
    (h : tree.Fits n f) : tree.Fits m f := by
  match tree, h with
  | .token _, h => exact h
  | .group ⟨_, _, _, _⟩, ⟨deep, ho, hf, hc⟩ =>
    exact ⟨Nat.lt_of_lt_of_le deep hnm, ho, TokenTree.listFits.mono (Nat.sub_le_sub_right hnm 1) hf, hc⟩
  | .annot _, ⟨sign, h⟩ => exact ⟨sign, Annotation.Fits.mono hnm h⟩

theorem TokenTree.listFits.mono {n m : Nat} (hnm : n ≤ m) {trees : List TokenTree} {f : List TokenKind}
    (h : TokenTree.listFits n trees f) : TokenTree.listFits m trees f := by
  match trees, h with
  | [], _ => trivial
  | _ :: _, ⟨h, hs⟩ => exact ⟨TokenTree.Fits.mono hnm h, TokenTree.listFits.mono hnm hs⟩

theorem Annotation.Fits.mono {n m : Nat} (hnm : n ≤ m) {a : Annotation} {f : List TokenKind}
    (h : a.Fits n f) : a.Fits m f := by
  match a, h with
  | ⟨_, _, none⟩, ⟨deep, h⟩ => exact ⟨Nat.lt_of_lt_of_le deep hnm, h⟩
  | ⟨_, _, some ⟨_, _, _, _⟩⟩, ⟨deep, hs, hn, ho, hc, names, hf⟩ =>
    exact ⟨Nat.lt_of_lt_of_le deep hnm, hs, hn, ho, hc, names,
      Argument.listFits.mono (Nat.sub_le_sub_right hnm 1) hf⟩

theorem Argument.listFits.mono {n m : Nat} (hnm : n ≤ m) {arguments : List Argument} {commas : List Token}
    {f : List TokenKind} (h : Argument.listFits n arguments commas f) :
    Argument.listFits m arguments commas f := by
  match arguments, commas, h with
  | [], _, h => exact h
  | ⟨_, _⟩ :: _, [], ⟨hnil, hl, hv⟩ => exact ⟨hnil, hl, ElementValue.Fits.mono hnm hv⟩
  | ⟨_, _⟩ :: _, _ :: _, ⟨hc, ne, hl, hv, hf⟩ =>
    exact ⟨hc, ne, hl, ElementValue.Fits.mono hnm hv, Argument.listFits.mono hnm hf⟩

theorem ElementValue.Fits.mono {n m : Nat} (hnm : n ≤ m) {value : ElementValue} {f : List TokenKind}
    (h : value.Fits n f) : value.Fits m f := by
  match value, h with
  | .expression _, ⟨ne, begins, hf, avoid, ends⟩ =>
    exact ⟨ne, begins, TokenTree.listFits.mono hnm hf, avoid, ends⟩
  | .annot _, h => exact Annotation.Fits.mono hnm h
  | .array _ _ _ _, ⟨deep, ho, hc, hf⟩ =>
    exact ⟨Nat.lt_of_lt_of_le deep hnm, ho, hc,
      ElementValue.listFits.mono (Nat.sub_le_sub_right hnm 1) hf⟩

theorem ElementValue.listFits.mono {n m : Nat} (hnm : n ≤ m) {values : List ElementValue}
    {commas : List Token} {f : List TokenKind} (h : ElementValue.listFits n values commas f) :
    ElementValue.listFits m values commas f := by
  match values, commas, h with
  | [], _, h => exact h
  | _ :: _, [], ⟨hnil, hv⟩ => exact ⟨hnil, ElementValue.Fits.mono hnm hv⟩
  | _ :: _, _ :: _, ⟨hc, hv, hf⟩ =>
    exact ⟨hc, ElementValue.Fits.mono hnm hv, ElementValue.listFits.mono hnm hf⟩

end

theorem Argument.Fits.mono {n m : Nat} (hnm : n ≤ m) {a : Argument} {f : List TokenKind} (h : a.Fits n f) :
    a.Fits m f := ⟨h.1, h.2.mono hnm⟩

/-! ## After an argument -/

/-- **`SeesAlike test f g`** — after anything the test holds before `f` just when it does before
`g`. -/
def SeesAlike (test : List TokenKind → Bool) (f g : List TokenKind) : Prop :=
  ∀ ks, test (ks ++ f) = test (ks ++ g)

/-- **`Interchangeable f g`** — trees cannot tell whether `f` or `g` comes after them. -/
structure Interchangeable (f g : List TokenKind) : Prop where
  annotations : SeesAlike atAnnotation f g
  segments : SeesAlike atSegment f g
  labels : SeesAlike atLabel f g
  others : SeesAlike beginsOther f g
  parentheses : SeesAlike (atKind (.opening .paren)) f g
  ends : SeesAlike endsExpression f g

namespace Interchangeable

variable {f g : List TokenKind}

theorem append (h : Interchangeable f g) (ks : List TokenKind) :
    Interchangeable (ks ++ f) (ks ++ g) := by
  have extend {test : List TokenKind → Bool} (h : SeesAlike test f g) :
      SeesAlike test (ks ++ f) (ks ++ g) := fun ls => by
    simpa only [List.append_assoc] using h (ls ++ ks)
  exact ⟨extend h.annotations, extend h.segments, extend h.labels, extend h.others,
    extend h.parentheses, extend h.ends⟩

theorem cons (h : Interchangeable f g) (k : TokenKind) : Interchangeable (k :: f) (k :: g) :=
  h.append [k]

end Interchangeable

/-- The token ends an argument or an element value. -/
def TokenKind.closesValue (k : TokenKind) : Bool := k = .comma || k.isClosing

/-- What ends an argument ends it as anything else that does. -/
theorem Interchangeable.of_closesValue {k l : TokenKind} (hk : k.closesValue = true)
    (hl : l.closesValue = true) (f g : List TokenKind) : Interchangeable (k :: f) (l :: g) := by
  have closes {k : TokenKind} (hk : k.closesValue = true) : k = .comma ∨ ∃ d, k = .closing d := by
    cases k <;> first | exact .inl rfl | exact .inr ⟨_, rfl⟩ | cases hk
  refine ⟨fun ks => ?_, fun ks => ?_, fun ks => ?_, fun ks => ?_, fun ks => ?_, fun ks => ?_⟩
  · rcases ks with _ | ⟨x, _ | ⟨y, ks⟩⟩
    · rcases closes hk with rfl | ⟨d, rfl⟩ <;> rcases closes hl with rfl | ⟨e, rfl⟩ <;> rfl
    · rcases closes hk with rfl | ⟨d, rfl⟩ <;> rcases closes hl with rfl | ⟨e, rfl⟩ <;>
        cases x <;> rfl
    · cases x <;> first | rfl | (cases y <;> rfl)
  · rcases ks with _ | ⟨x, _ | ⟨y, ks⟩⟩
    · rcases closes hk with rfl | ⟨d, rfl⟩ <;> rcases closes hl with rfl | ⟨e, rfl⟩ <;> rfl
    · rcases closes hk with rfl | ⟨d, rfl⟩ <;> rcases closes hl with rfl | ⟨e, rfl⟩ <;>
        cases x <;> rfl
    · cases x <;> first | rfl | (cases y <;> rfl)
  · rcases ks with _ | ⟨x, _ | ⟨y, ks⟩⟩
    · rcases closes hk with rfl | ⟨d, rfl⟩ <;> rcases closes hl with rfl | ⟨e, rfl⟩ <;> rfl
    · rcases closes hk with rfl | ⟨d, rfl⟩ <;> rcases closes hl with rfl | ⟨e, rfl⟩ <;>
        cases x <;> rfl
    · cases x <;> first | rfl | (cases y <;> rfl)
  · rcases ks with _ | ⟨x, ks⟩
    · rcases closes hk with rfl | ⟨d, rfl⟩ <;> rcases closes hl with rfl | ⟨e, rfl⟩ <;> rfl
    · cases x with
      | opening delimiter => cases delimiter <;> rfl
      | _ => rfl
  · rcases ks with _ | ⟨x, ks⟩
    · rcases closes hk with rfl | ⟨d, rfl⟩ <;> rcases closes hl with rfl | ⟨e, rfl⟩ <;> rfl
    · rfl
  · rcases ks with _ | ⟨x, ks⟩
    · rcases closes hk with rfl | ⟨d, rfl⟩ <;> rcases closes hl with rfl | ⟨e, rfl⟩ <;> rfl
    · rfl

theorem avoids.after {k : TokenKind} {trees : List TokenTree} {f : List TokenKind}
    (h : avoids (atKind k) trees f) (g : List TokenKind) : avoids (atKind k) trees g := by
  induction trees with
  | nil => trivial
  | cons tree trees ih =>
    refine ⟨?_, ih h.2⟩
    have first := h.1
    rw [kinds_append, List.append_assoc, atKind_append tree.kinds_ne_nil] at first ⊢
    exact first

theorem fitsLabel.after {f g : List TokenKind} {label : Option (Token × Token)}
    {ks : List TokenKind} (hfg : Interchangeable f g) (h : fitsLabel label (ks ++ f)) :
    fitsLabel label (ks ++ g) := by
  cases label with
  | none => exact (hfg.labels ks).symm.trans h
  | some label => exact h

mutual

theorem TokenTree.Fits.after {f g : List TokenKind} (hfg : Interchangeable f g) {n : Nat}
    {tree : TokenTree} (h : tree.Fits n f) : tree.Fits n g := by
  match tree, h with
  | .token t, ⟨opening, sign, others⟩ =>
    exact ⟨opening, (hfg.annotations [t.kind]).symm.trans sign, others⟩
  | .group ⟨_, _, _, closing⟩, ⟨deep, ho, hf, hc⟩ =>
    exact ⟨deep, ho, TokenTree.listFits.after (hfg.cons closing.kind) hf, hc⟩
  | .annot _, ⟨sign, h⟩ =>
    exact ⟨(hfg.annotations _).symm.trans sign, Annotation.Fits.after hfg h⟩

theorem TokenTree.listFits.after {f g : List TokenKind} (hfg : Interchangeable f g) {n : Nat}
    {trees : List TokenTree} (h : TokenTree.listFits n trees f) : TokenTree.listFits n trees g := by
  match trees, h with
  | [], _ => trivial
  | _ :: trees, ⟨h, hs⟩ =>
    exact ⟨TokenTree.Fits.after (hfg.append _) h, TokenTree.listFits.after hfg hs⟩

theorem Annotation.Fits.after {f g : List TokenKind} (hfg : Interchangeable f g) {n : Nat}
    {a : Annotation} (h : a.Fits n f) : a.Fits n g := by
  match a, h with
  | ⟨_, _, none⟩, ⟨deep, sign, ⟨first, others, ends⟩, bare⟩ =>
    exact ⟨deep, sign, ⟨first, others, (hfg.segments []).symm.trans ends⟩,
      (hfg.parentheses []).symm.trans bare⟩
  | ⟨_, _, some ⟨_, _, _, closing⟩⟩, ⟨deep, sign, hn, ho, hc, names, hf⟩ =>
    exact ⟨deep, sign, hn, ho, hc, names, Argument.listFits.after (hfg.cons closing.kind) hf⟩

theorem Argument.listFits.after {f g : List TokenKind} (hfg : Interchangeable f g) {n : Nat}
    {arguments : List Argument} {commas : List Token} (h : Argument.listFits n arguments commas f) :
    Argument.listFits n arguments commas g := by
  match arguments, commas, h with
  | [], _, h => exact h
  | ⟨_, _⟩ :: _, [], ⟨hnil, hl, hv⟩ =>
    exact ⟨hnil, hl.after hfg, ElementValue.Fits.after hfg hv⟩
  | ⟨_, _⟩ :: _, _ :: _, ⟨hc, ne, hl, hv, hf⟩ =>
    exact ⟨hc, ne, hl.after hfg, ElementValue.Fits.after (hfg.append _) hv,
      Argument.listFits.after hfg hf⟩

theorem ElementValue.Fits.after {f g : List TokenKind} (hfg : Interchangeable f g) {n : Nat}
    {value : ElementValue} (h : value.Fits n f) : value.Fits n g := by
  match value, h with
  | .expression _, ⟨ne, begins, hf, avoid, ends⟩ =>
    exact ⟨ne, (hfg.others _).symm.trans begins, TokenTree.listFits.after hfg hf, avoid.after g,
      (hfg.ends []).symm.trans ends⟩
  | .annot _, h => exact Annotation.Fits.after hfg h
  | .array _ _ _ closing, ⟨deep, ho, hc, hf⟩ =>
    exact ⟨deep, ho, hc, ElementValue.listFits.after (hfg.cons closing.kind) hf⟩

theorem ElementValue.listFits.after {f g : List TokenKind} (hfg : Interchangeable f g) {n : Nat}
    {values : List ElementValue} {commas : List Token}
    (h : ElementValue.listFits n values commas f) : ElementValue.listFits n values commas g := by
  match values, commas, h with
  | [], _, h => exact h
  | _ :: _, [], ⟨hnil, hv⟩ => exact ⟨hnil, ElementValue.Fits.after hfg hv⟩
  | _ :: _, _ :: _, ⟨hc, hv, hf⟩ =>
    exact ⟨hc, ElementValue.Fits.after (hfg.append _) hv, ElementValue.listFits.after hfg hf⟩

end

theorem Argument.Fits.after {f g : List TokenKind} (hfg : Interchangeable f g) {n : Nat}
    {a : Argument} (h : a.Fits n f) : a.Fits n g := ⟨h.1.after hfg, h.2.after hfg⟩

end DeferFetch
