/-
# DeferFetch.Proofs.Grammar.Plain — what fits has no bad tokens.

No token of a tree or declaration that fits stands for a lexical error, and none of them is the
token that ends the text. So a file without errors is read up to that token and not beyond.
-/
import DeferFetch.Proofs.Grammar.Declaration

namespace DeferFetch

/-- The token neither ends the text nor stands for a lexical error. -/
def TokenKind.isPlain (k : TokenKind) : Bool := k ≠ .eof && !k.isError

/-- **`Plain ts`** — all of the tokens are plain. -/
def Plain (ts : List Token) : Prop := ∀ t ∈ ts, t.kind.isPlain = true

@[simp] theorem plain_nil : Plain [] := nofun

@[simp] theorem plain_cons {t : Token} {ts : List Token} :
    Plain (t :: ts) ↔ t.kind.isPlain = true ∧ Plain ts := List.forall_mem_cons

@[simp] theorem plain_append {ts us : List Token} : Plain (ts ++ us) ↔ Plain ts ∧ Plain us :=
  List.forall_mem_append

theorem Plain.valid {ts : List Token} (h : Plain ts) : ∀ t ∈ ts, t.kind.isError = false := by
  intro t ht
  have := h t ht
  simp only [TokenKind.isPlain, Bool.and_eq_true, Bool.not_eq_true'] at this
  exact this.2

namespace TokenKind

theorem isPlain_of_isIdentifier {k : TokenKind} (h : k.isIdentifier = true) : k.isPlain = true := by
  cases k <;> first | rfl | cases h

theorem isPlain_of_isModifierKeyword {k : TokenKind} (h : k.isModifierKeyword = true) :
    k.isPlain = true := by
  cases k <;> first | rfl | cases h

/-- A kind that is spelled out is plain. -/
theorem isPlain_of_eq {k l : TokenKind} (h : k = l) (hl : l.isPlain = true) : k.isPlain = true :=
  h ▸ hl

end TokenKind

open TokenKind (isPlain isPlain_of_eq isPlain_of_isIdentifier isPlain_of_isModifierKeyword)

/-! ## Names and labels -/

theorem QualifiedName.Fits.plain {name : QualifiedName} {f : List TokenKind} (h : name.Fits f) :
    Plain name.tokens := by
  obtain ⟨hfirst, hothers, -⟩ := h
  refine plain_cons.2 ⟨isPlain_of_isIdentifier hfirst, fun t ht => ?_⟩
  obtain ⟨segment, hs, ht⟩ := List.mem_flatMap.1 ht
  obtain ⟨hdot, hid⟩ := hothers segment hs
  simp only [List.mem_cons, List.not_mem_nil, or_false] at ht
  rcases ht with rfl | rfl
  · exact isPlain_of_eq hdot rfl
  · exact isPlain_of_isIdentifier hid

theorem fitsLabel.plain {label : Option (Token × Token)} {f : List TokenKind}
    (h : fitsLabel label f) : Plain (labelTokens label) := by
  cases label with
  | none => exact plain_nil
  | some pair => simp [labelTokens, isPlain_of_isIdentifier h.1, isPlain_of_eq h.2 rfl]

/-! ## Trees -/

mutual

theorem TokenTree.Fits.plain {n : Nat} {tree : TokenTree} {f : List TokenKind}
    (h : tree.Fits n f) : Plain tree.tokens := by
  match tree, h with
  | .token t, ⟨_, _, heof, _, herror⟩ => simp [TokenTree.tokens, isPlain, heof, herror]
  | .group ⟨_, opening, trees, closing⟩, ⟨_, ho, hf, hc⟩ =>
    have htrees := TokenTree.listFits.plain hf
    simp [TokenTree.tokens, isPlain_of_eq ho rfl, isPlain_of_eq hc rfl, htrees]
  | .annot a, ⟨_, h⟩ => exact Annotation.Fits.plain h

theorem TokenTree.listFits.plain {n : Nat} {trees : List TokenTree} {f : List TokenKind}
    (h : TokenTree.listFits n trees f) : Plain (TokenTree.listTokens trees) := by
  match trees, h with
  | [], _ => exact plain_nil
  | tree :: trees, ⟨h, hs⟩ => exact plain_append.2 ⟨h.plain, TokenTree.listFits.plain hs⟩

theorem Annotation.Fits.plain {n : Nat} {a : Annotation} {f : List TokenKind} (h : a.Fits n f) :
    Plain a.tokens := by
  match a, h with
  | ⟨sigil, name, none⟩, ⟨_, hs, hname, _⟩ =>
    exact plain_cons.2 ⟨isPlain_of_eq hs rfl, hname.plain⟩
  | ⟨sigil, name, some ⟨opening, arguments, commas, closing⟩⟩, ⟨_, hs, hname, ho, hc, _, hf⟩ =>
    have hargs := Argument.listFits.plain hf
    simp [isPlain_of_eq hs rfl, Annotation.tokens, hname.plain, isPlain_of_eq ho rfl,
      isPlain_of_eq hc rfl, hargs]

theorem Argument.listFits.plain {n : Nat} {arguments : List Argument} {commas : List Token}
    {f : List TokenKind} (h : Argument.listFits n arguments commas f) :
    Plain (Argument.listTokens arguments commas) := by
  match arguments, commas, h with
  | [], commas, h =>
    obtain rfl : commas = [] := h
    exact plain_nil
  | ⟨label, value⟩ :: arguments, [], ⟨hnil, hl, hv⟩ =>
    subst hnil
    simp [Argument.listTokens, hl.plain, hv.plain]
  | ⟨label, value⟩ :: arguments, comma :: commas, ⟨hc, _, hl, hv, hf⟩ =>
    have hrest := Argument.listFits.plain hf
    simp [Argument.listTokens, hl.plain, hv.plain, isPlain_of_eq hc rfl, hrest]

theorem ElementValue.Fits.plain {n : Nat} {value : ElementValue} {f : List TokenKind}
    (h : value.Fits n f) : Plain value.tokens := by
  match value, h with
  | .expression trees, ⟨_, _, hf, _⟩ => exact TokenTree.listFits.plain hf
  | .annot a, h => exact Annotation.Fits.plain h
  | .array opening values commas closing, ⟨_, ho, hc, hf⟩ =>
    have hvalues := ElementValue.listFits.plain hf
    simp [ElementValue.tokens, isPlain_of_eq ho rfl, isPlain_of_eq hc rfl, hvalues]

theorem ElementValue.listFits.plain {n : Nat} {values : List ElementValue} {commas : List Token}
    {f : List TokenKind} (h : ElementValue.listFits n values commas f) :
    Plain (ElementValue.listTokens values commas) := by
  match values, commas, h with
  | [], commas, h =>
    obtain rfl : commas = [] := h
    exact plain_nil
  | value :: values, [], ⟨hnil, hv⟩ =>
    subst hnil
    simp [ElementValue.listTokens, hv.plain]
  | value :: values, comma :: commas, ⟨hc, hv, hf⟩ =>
    have hrest := ElementValue.listFits.plain hf
    simp [ElementValue.listTokens, hv.plain, isPlain_of_eq hc rfl, hrest]

end

theorem Group.Fits.plain {n : Nat} {g : Group} {f : List TokenKind} (h : g.Fits n f) :
    Plain g.tokens := by
  rw [← TokenTree.tokens_group]
  exact TokenTree.Fits.plain h

/-! ## Declarations -/

theorem Modifier.Fits.plain {n : Nat} {m : Modifier} {f : List TokenKind} (h : m.Fits n f) :
    Plain m.tokens := by
  match m, h with
  | .annot a, ⟨_, h⟩ => exact h.plain
  | .keyword t, h => simpa [Modifier.tokens] using isPlain_of_isModifierKeyword h
  | .contextual ⟨word, []⟩, h =>
    simpa [Modifier.tokens, Words.tokens] using
      isPlain_of_eq (Parser.eq_identifier_of_atSealed h) rfl
  | .contextual ⟨non, [hyphen, word]⟩, h =>
    obtain ⟨hn, hh, hw⟩ := Parser.atNonSealed_iff.1 h
    simp [Modifier.tokens, Words.tokens, isPlain_of_eq hn rfl, isPlain_of_eq hh rfl,
      isPlain_of_eq hw rfl]

theorem Modifier.listFits.plain {n : Nat} {ms : List Modifier} {f : List TokenKind}
    (h : Modifier.listFits n ms f) : Plain (Modifier.listTokens ms) := by
  have go (ms : List Modifier) (h : Parser.chain Modifier.tokens (fun _ m f => m.Fits n f)
      (fun _ _ => ()) () ms f) : Plain (ms.flatMap Modifier.tokens) := by
    induction ms with
    | nil => exact plain_nil
    | cons m ms ih => exact plain_append.2 ⟨h.1.plain, ih h.2⟩
  exact go ms h.1

theorem memberChain.plain {n : Nat} {head : Parser.MemberHead} {trees : List TokenTree}
    {f : List TokenKind} (h : memberChain n head trees f) : Plain (TokenTree.listTokens trees) := by
  induction trees generalizing head with
  | nil => exact plain_nil
  | cons tree trees ih => exact plain_append.2 ⟨h.1.2.plain, ih h.2⟩

/-- The semicolon or the body of a field or a method is plain. -/
theorem fitsEnd.plain {n : Nat} {head : Parser.MemberHead} {stop : MethodBody × Bool}
    {f : List TokenKind} (h : fitsEnd n head stop f) : Plain stop.1.tokens := by
  match stop, h with
  | (.semicolon t, _), ⟨hk, _⟩ => simpa [MethodBody.tokens] using isPlain_of_eq hk rfl
  | (.block g, _), ⟨_, _, _, _, hg⟩ => exact hg.plain

theorem fitsIntroducer.plain {kind : TypeKind} {words : Words} (h : fitsIntroducer kind words) :
    Plain words.tokens := by
  rcases h.shape with ⟨t, rfl, hk⟩ | ⟨sigil, word, rfl, hs, hw⟩
  · have plain : t.kind.isPlain = true := by
      rcases hk with hk | hk | hk | hk <;> exact isPlain_of_eq hk rfl
    simpa [Words.tokens] using plain
  · simp [Words.tokens, isPlain_of_eq hs rfl, isPlain_of_eq hw rfl]

mutual

theorem TypeDeclaration.Fits.plain {n : Nat} {d : TypeDeclaration} {f : List TokenKind}
    (h : d.Fits n f) : Plain d.ownTokens := by
  match d, h with
  | ⟨_, kind, introducer, name, header, opening, members, closing⟩,
      ⟨hi, hname, hh, ho, _, hms, hc⟩ =>
    have hmembers := Member.listFits.plain hms
    simp [TypeDeclaration.ownTokens, hi.plain, isPlain_of_isIdentifier hname, hh.1.plain,
      isPlain_of_eq ho rfl, isPlain_of_eq hc rfl, hmembers]

theorem Member.Fits.plain {n : Nat} {first : Bool} {m : Member} {f : List TokenKind}
    (h : m.Fits n first f) : Plain m.tokens := by
  match m, h with
  | .constants trees none, ⟨_, _, hf, _⟩ => simpa [Member.tokens] using hf.plain
  | .constants trees (some t), ⟨_, _, hf, _, hk⟩ =>
    have hk : t.kind = .semicolon := hk
    simpa [Member.tokens, hf.plain] using isPlain_of_eq hk rfl
  | .empty t, ⟨_, hk⟩ => simpa [Member.tokens] using isPlain_of_eq hk rfl
  | .block ms block, ⟨_, hms, _, hb⟩ => exact plain_append.2 ⟨hms.plain, hb.plain⟩
  | .type d, ⟨_, hms, _, hd⟩ =>
    rw [Member.tokens, d.tokens_eq]
    exact plain_append.2 ⟨hms.plain, TypeDeclaration.Fits.plain hd⟩
  | .field ms trees t, ⟨_, _, hms, _, _, hc, he⟩ =>
    exact plain_append.2 ⟨plain_append.2 ⟨hms.plain, hc.plain⟩, he.plain⟩
  | .method ms trees body, ⟨_, _, hms, _, _, hc, he⟩ =>
    exact plain_append.2 ⟨plain_append.2 ⟨hms.plain, hc.plain⟩, he.plain⟩

theorem Member.listFits.plain {n : Nat} {first : Bool} {ms : List Member} {f : List TokenKind}
    (h : Member.listFits n first ms f) : Plain (Member.listTokens ms) := by
  match ms, h with
  | [], _ => exact plain_nil
  | m :: ms, ⟨h, hs⟩ => exact plain_append.2 ⟨h.plain, Member.listFits.plain hs⟩

end

end DeferFetch
