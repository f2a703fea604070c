/-
# DeferFetch.Proofs.Grammar.Balance — what is accepted is balanced.

Brackets are read in four places: around token trees, around the members of a type, around the
arguments of an annotation and around the values of an array. Each of them costs a level of the nesting
budget, the annotation's parentheses by way of the annotation itself. So the tokens of a file without
errors nest with matching brackets, and no deeper than the budget.
-/
import DeferFetch.Proofs.Grammar.Progress
import DeferFetch.Proofs.Grammar.Text

namespace DeferFetch

/-! ## Nesting -/

/-- **`nests limit opened ks`** — where the brackets `opened` are open, the innermost one first, the
tokens close all of them and whatever they open themselves, each bracket by the one that matches it
and the innermost one first; and at no time are more than `limit` open. -/
def nests (limit : Nat) : List Delimiter → List TokenKind → Bool
  | opened, [] => opened.isEmpty
  | opened, .opening d :: ks => opened.length < limit && nests limit (d :: opened) ks
  | [], .closing _ :: _ => false
  | d :: opened, .closing e :: ks => d = e && nests limit opened ks
  | opened, _ :: ks => nests limit opened ks

/-- The token is a bracket. -/
def TokenKind.isBracket (k : TokenKind) : Bool := k.isOpening || k.isClosing

/-- What is no bracket opens and closes nothing. -/
theorem nests_cons {limit : Nat} {opened : List Delimiter} {k : TokenKind} (h : k.isBracket = false)
    (ks : List TokenKind) : nests limit opened (k :: ks) = nests limit opened ks := by
  cases k with
  | opening d => cases h
  | closing d => cases h
  | _ => cases opened <;> rfl

/-- **`Nested n ks`** — the tokens close what they open, `n` levels deep at most, and leave what was
open before as it was. -/
def Nested (n : Nat) (ks : List TokenKind) : Prop :=
  ∀ limit opened rest, opened.length + n ≤ limit →
    nests limit opened (ks ++ rest) = nests limit opened rest

namespace Nested

variable {m n : Nat} {ks ls : List TokenKind}

protected theorem nil : Nested n [] := fun _ _ _ _ => rfl

protected theorem append (h : Nested n ks) (h' : Nested n ls) : Nested n (ks ++ ls) := by
  intro limit opened rest room
  rw [List.append_assoc, h limit opened _ room, h' limit opened rest room]

/-- A token that is no bracket, and more. -/
protected theorem cons {k : TokenKind} (hk : k.isBracket = false) (h : Nested n ks) :
    Nested n (k :: ks) := by
  intro limit opened rest room
  rw [List.cons_append, nests_cons hk, h limit opened rest room]

/-- A pair of brackets around what is nested less deep. -/
protected theorem group (d : Delimiter) (room : 0 < n) (h : Nested (n - 1) ks) :
    Nested n (.opening d :: (ks ++ [.closing d])) := by
  intro limit opened rest room'
  have here : opened.length < limit := by omega
  have inner : (d :: opened).length + (n - 1) ≤ limit := by
    rw [List.length_cons]
    omega
  rw [List.cons_append, nests, List.append_assoc, h limit (d :: opened) _ inner]
  simp [nests, here]

/-- Where nothing is open before, nothing is open after. -/
theorem nests (h : Nested n ks) : DeferFetch.nests n [] ks = true := by
  have := h n [] [] (by simp)
  rwa [List.append_nil] at this

end Nested

/-! ## Trees and annotations -/

theorem TokenKind.isBracket_of_isIdentifier {k : TokenKind} (h : k.isIdentifier = true) :
    k.isBracket = false := by
  cases k <;> first | rfl | cases h

theorem QualifiedName.Fits.nested {name : QualifiedName} {f : List TokenKind} (h : name.Fits f) (n : Nat) :
    Nested n (kinds name.tokens) := by
  obtain ⟨first, others⟩ := name
  obtain ⟨hfirst, hothers, -⟩ := h
  apply Nested.cons (TokenKind.isBracket_of_isIdentifier hfirst)
  clear hfirst
  induction others with
  | nil => exact .nil
  | cons segment others ih =>
    obtain ⟨⟨hdot, hid⟩, hothers⟩ := List.forall_mem_cons.1 hothers
    apply Nested.cons (by rw [hdot]; rfl)
    apply Nested.cons (TokenKind.isBracket_of_isIdentifier hid)
    exact ih hothers

theorem fitsLabel.nested {label : Option (Token × Token)} {f : List TokenKind} (h : fitsLabel label f)
    (n : Nat) : Nested n (kinds (labelTokens label)) := by
  cases label with
  | none => exact .nil
  | some pair =>
    apply Nested.cons (TokenKind.isBracket_of_isIdentifier h.1)
    apply Nested.cons (by rw [h.2]; rfl)
    exact .nil

mutual

theorem TokenTree.Fits.nested {n : Nat} {tree : TokenTree} {f : List TokenKind} (h : tree.Fits n f) :
    Nested n (kinds tree.tokens) := by
  match tree, h with
  | .token t, ⟨ho, _, _, hc, _⟩ =>
    exact .cons (by rw [TokenKind.isBracket, ho, hc]; rfl) .nil
  | .group ⟨d, opening, trees, closing⟩, ⟨room, ho, hf, hc⟩ =>
    have inner := TokenTree.listFits.nested hf
    rw [TokenTree.tokens, kinds_cons, kinds_append, kinds_cons, kinds_nil, ho, hc]
    exact .group d room inner
  | .annot a, ⟨_, h⟩ => exact Annotation.Fits.nested h

theorem TokenTree.listFits.nested {n : Nat} {trees : List TokenTree} {f : List TokenKind}
    (h : TokenTree.listFits n trees f) : Nested n (kinds (TokenTree.listTokens trees)) := by
  match trees, h with
  | [], _ => exact .nil
  | tree :: trees, ⟨h, hs⟩ =>
    rw [TokenTree.listTokens, kinds_append]
    exact h.nested.append (TokenTree.listFits.nested hs)

/-- The parentheses of an annotation are no level of their own, but the annotation is one. -/
theorem Annotation.Fits.nested {n : Nat} {a : Annotation} {f : List TokenKind} (h : a.Fits n f) :
    Nested n (kinds a.tokens) := by
  match a, h with
  | ⟨sigil, name, none⟩, ⟨_, hs, hname, _⟩ =>
    exact .cons (by rw [hs]; rfl) (hname.nested n)
  | ⟨sigil, name, some ⟨opening, arguments, commas, closing⟩⟩, ⟨room, hs, hname, ho, hc, _, hf⟩ =>
    have inner := Argument.listFits.nested hf
    unfold Annotation.tokens
    rw [kinds_cons, kinds_append, kinds_cons, kinds_append, kinds_cons, kinds_nil, ho, hc]
    exact .cons (by rw [hs]; rfl) ((hname.nested n).append (.group .paren room inner))

theorem Argument.listFits.nested {n : Nat} {arguments : List Argument} {commas : List Token}
    {f : List TokenKind} (h : Argument.listFits n arguments commas f) :
    Nested n (kinds (Argument.listTokens arguments commas)) := by
  match arguments, commas, h with
  | [], commas, h =>
    obtain rfl : commas = [] := h
    exact .nil
  | ⟨label, value⟩ :: arguments, [], ⟨hnil, hl, hv⟩ =>
    subst hnil
    rw [Argument.listTokens, Argument.listTokens, List.append_nil, kinds_append]
    exact (hl.nested n).append hv.nested
  | ⟨label, value⟩ :: arguments, comma :: commas, ⟨hc, _, hl, hv, hf⟩ =>
    rw [Argument.listTokens, kinds_append, kinds_append, kinds_cons]
    exact ((hl.nested n).append hv.nested).append
      (.cons (by rw [hc]; rfl) (Argument.listFits.nested hf))

theorem ElementValue.Fits.nested {n : Nat} {value : ElementValue} {f : List TokenKind}
    (h : value.Fits n f) : Nested n (kinds value.tokens) := by
  match value, h with
  | .expression trees, ⟨_, _, hf, _⟩ => exact TokenTree.listFits.nested hf
  | .annot a, h => exact Annotation.Fits.nested h
  | .array opening values commas closing, ⟨room, ho, hc, hf⟩ =>
    have inner := ElementValue.listFits.nested hf
    rw [ElementValue.tokens, kinds_cons, kinds_append, kinds_cons, kinds_nil, ho, hc]
    exact .group .brace room inner

theorem ElementValue.listFits.nested {n : Nat} {values : List ElementValue} {commas : List Token}
    {f : List TokenKind} (h : ElementValue.listFits n values commas f) :
    Nested n (kinds (ElementValue.listTokens values commas)) := by
  match values, commas, h with
  | [], commas, h =>
    obtain rfl : commas = [] := h
    exact .nil
  | value :: values, [], ⟨hnil, hv⟩ =>
    subst hnil
    rw [ElementValue.listTokens, ElementValue.listTokens, List.append_nil]
    exact hv.nested
  | value :: values, comma :: commas, ⟨hc, hv, hf⟩ =>
    rw [ElementValue.listTokens, kinds_append, kinds_cons]
    exact hv.nested.append (.cons (by rw [hc]; rfl) (ElementValue.listFits.nested hf))

end

theorem Group.Fits.nested {n : Nat} {g : Group} {f : List TokenKind} (h : g.Fits n f) :
    Nested n (kinds g.tokens) := by
  rw [← TokenTree.tokens_group]
  exact TokenTree.Fits.nested h

/-! ## Declarations -/

theorem Modifier.Fits.nested {n : Nat} {m : Modifier} {f : List TokenKind} (h : m.Fits n f) :
    Nested n (kinds m.tokens) := by
  match m, h with
  | .annot a, ⟨_, h⟩ => exact h.nested
  | .keyword t, h =>
    obtain ⟨w, hw⟩ := Parser.exists_keyword_of_isModifierKeyword h
    exact .cons (by rw [hw]; rfl) .nil
  | .contextual ⟨word, []⟩, h =>
    exact .cons (by rw [Parser.eq_identifier_of_atSealed h]; rfl) .nil
  | .contextual ⟨non, [hyphen, word]⟩, h =>
    obtain ⟨hn, hh, hw⟩ := Parser.atNonSealed_iff.1 h
    exact .cons (by rw [hn]; rfl) (.cons (by rw [hh]; rfl) (.cons (by rw [hw]; rfl) .nil))

theorem Modifier.listFits.nested {n : Nat} {ms : List Modifier} {f : List TokenKind}
    (h : Modifier.listFits n ms f) : Nested n (kinds (Modifier.listTokens ms)) := by
  obtain ⟨chain, -⟩ := h
  induction ms with
  | nil => exact .nil
  | cons m ms ih =>
    rw [Modifier.listTokens, List.flatMap_cons, kinds_append]
    exact chain.1.nested.append (ih chain.2)

theorem memberChain.nested {n : Nat} {head : Parser.MemberHead} {trees : List TokenTree}
    {f : List TokenKind} (h : memberChain n head trees f) :
    Nested n (kinds (TokenTree.listTokens trees)) := by
  induction trees generalizing head with
  | nil => exact .nil
  | cons tree trees ih =>
    rw [TokenTree.listTokens, kinds_append]
    exact h.1.2.nested.append (ih h.2)

theorem fitsEnd.nested {n : Nat} {head : Parser.MemberHead} {stop : MethodBody × Bool}
    {f : List TokenKind} (h : fitsEnd n head stop f) : Nested n (kinds stop.1.tokens) := by
  match stop, h with
  | (.semicolon t, _), ⟨hk, _⟩ => exact .cons (by rw [hk]; rfl) .nil
  | (.block g, _), ⟨_, _, _, _, hg⟩ => exact hg.nested

theorem fitsIntroducer.nested {kind : TypeKind} {words : Words} (h : fitsIntroducer kind words) (n : Nat) :
    Nested n (kinds words.tokens) := by
  rcases h.shape with ⟨t, rfl, hk⟩ | ⟨sigil, word, rfl, hs, hw⟩
  · have plain : t.kind.isBracket = false := by
      rcases hk with hk | hk | hk | hk <;> rw [hk] <;> rfl
    exact .cons plain .nil
  · exact .cons (by rw [hs]; rfl) (.cons (by rw [hw]; rfl) .nil)

mutual

/-- The braces of a type cost a level, which the members do not have any more. -/
theorem TypeDeclaration.Fits.nested {n : Nat} {d : TypeDeclaration} {f : List TokenKind}
    (h : d.Fits n f) : Nested n (kinds d.ownTokens) := by
  match d, h with
  | ⟨_, kind, introducer, name, header, opening, members, closing⟩,
      ⟨hi, hname, hh, ho, room, hms, hc⟩ =>
    have inner := Member.listFits.nested hms
    rw [TypeDeclaration.ownTokens, kinds_append, kinds_cons, kinds_append, kinds_cons, kinds_append,
      kinds_cons, kinds_nil, ho, hc]
    apply (hi.nested n).append
    apply Nested.cons (TokenKind.isBracket_of_isIdentifier hname)
    exact hh.1.nested.append (.group .brace room inner)

theorem Member.Fits.nested {n : Nat} {first : Bool} {m : Member} {f : List TokenKind}
    (h : m.Fits n first f) : Nested n (kinds m.tokens) := by
  match m, h with
  | .constants trees none, ⟨_, _, hf, _⟩ =>
    rw [Member.tokens, kinds_append]
    exact hf.nested.append .nil
  | .constants trees (some t), ⟨_, _, hf, _, hk⟩ =>
    have hk : t.kind = .semicolon := hk
    rw [Member.tokens, kinds_append]
    exact hf.nested.append (.cons (by rw [hk]; rfl) .nil)
  | .empty t, ⟨_, hk⟩ => exact .cons (by rw [hk]; rfl) .nil
  | .block ms block, ⟨_, hms, _, hb⟩ =>
    rw [Member.tokens, kinds_append]
    exact hms.nested.append hb.nested
  | .type d, ⟨_, hms, _, hd⟩ =>
    rw [Member.tokens, d.tokens_eq, kinds_append]
    exact hms.nested.append (TypeDeclaration.Fits.nested hd)
  | .field ms trees t, ⟨_, _, hms, _, _, hc, he⟩ =>
    rw [Member.tokens, kinds_append, kinds_append]
    exact (hms.nested.append hc.nested).append he.nested
  | .method ms trees body, ⟨_, _, hms, _, _, hc, he⟩ =>
    rw [Member.tokens, kinds_append, kinds_append]
    exact (hms.nested.append hc.nested).append he.nested

theorem Member.listFits.nested {n : Nat} {first : Bool} {ms : List Member} {f : List TokenKind}
    (h : Member.listFits n first ms f) : Nested n (kinds (Member.listTokens ms)) := by
  match ms, h with
  | [], _ => exact .nil
  | m :: ms, ⟨h, hs⟩ =>
    rw [Member.listTokens, kinds_append]
    exact h.nested.append (Member.listFits.nested hs)

end

/-! ## Files -/

theorem PackageDeclaration.Fits.nested {n : Nat} {p : PackageDeclaration} {f : List TokenKind}
    (h : p.Fits n f) : Nested n (kinds p.tokens) := by
  obtain ⟨hms, hw, hname, hk⟩ := h
  rw [Parser.packageDeclaration_tokens, kinds_append, Parser.packageTokens, kinds_cons, kinds_append]
  apply hms.nested.append
  apply Nested.cons (by rw [hw]; rfl)
  exact (hname.nested n).append (.cons (by rw [hk]; rfl) .nil)

theorem ImportDeclaration.Fits.nested {i : ImportDeclaration} (h : i.Fits) (n : Nat) :
    Nested n (kinds i.tokens) := by
  obtain ⟨hw, hstatic, hname, hwild, hk⟩ := h
  have static : Nested n (kinds i.static?.toList) := by
    cases hs : i.static? with
    | none => exact .nil
    | some t => exact .cons (by rw [hstatic t hs]; rfl) .nil
  have wildcard : Nested n (kinds (wildcardTokens i.wildcard?)) := by
    cases hi : i.wildcard? with
    | none => exact .nil
    | some w =>
      obtain ⟨hdot, hstar⟩ := hwild w hi
      exact .cons (by rw [hdot]; rfl) (.cons (by rw [hstar]; rfl) .nil)
  rw [ImportDeclaration.tokens, kinds_cons, kinds_append, kinds_append, kinds_append]
  apply Nested.cons (by rw [hw]; rfl)
  exact ((static.append (hname.nested n)).append wildcard).append (.cons (by rw [hk]; rfl) .nil)

theorem ImportDeclaration.nested_of_fits {imports : List ImportDeclaration} (h : ∀ i ∈ imports, i.Fits)
    (n : Nat) : Nested n (kinds (imports.flatMap ImportDeclaration.tokens)) := by
  induction imports with
  | nil => exact .nil
  | cons i imports ih =>
    obtain ⟨hi, himports⟩ := List.forall_mem_cons.1 h
    rw [List.flatMap_cons, kinds_append]
    exact (hi.nested n).append (ih himports)

theorem TopLevel.listFits.nested {n : Nat} {ds : List TopLevel} {f : List TokenKind}
    (h : TopLevel.listFits n ds f) : Nested n (kinds (ds.flatMap TopLevel.tokens)) := by
  induction ds with
  | nil => exact .nil
  | cons d ds ih =>
    rw [List.flatMap_cons, kinds_append]
    refine Nested.append ?_ (ih h.2)
    match d, h.1 with
    | .type d, ⟨hms, hd⟩ =>
      rw [TopLevel.tokens, d.tokens_eq, kinds_append]
      exact hms.nested.append hd.nested
    | .empty t, hk =>
      have hk : t.kind = .semicolon := hk
      exact .cons (by rw [hk]; rfl) .nil

theorem CompilationUnit.Fits.nested {n : Nat} {u : CompilationUnit} (h : u.Fits n) :
    Nested n (kinds u.tokens) := by
  have package : Nested n (kinds ((u.package?.map PackageDeclaration.tokens).getD [])) := by
    cases hp : u.package? with
    | none => exact .nil
    | some p => exact (h.package p hp).nested
  rw [CompilationUnit.tokens, kinds_append, kinds_append, kinds_append]
  have imports := ImportDeclaration.nested_of_fits h.imports n
  exact ((package.append imports).append h.types.nested).append (.cons (by rw [h.eof]; rfl) .nil)

/-- **What is accepted is balanced** — if nothing is reported of a text, each bracket among its tokens is
closed by the one that matches it, in the right order, and no more than `maxNesting` are open at a time.
So there is a report on every text that is not so. -/
theorem nests_of_accepted {source : String} {file : Option String}
    (accepted : (parseUnit source file).diagnostics = []) :
    nests maxNesting [] (kinds (tokenize source file)) = true := by
  obtain ⟨body, e, tokens, he, hbody, -⟩ := legible_tokenize source file
  obtain ⟨r⟩ := Parser.exists_fileRun { rest := tokenize source file }
  have parsed : (parseUnit source file).toExcept = .ok r.unit := by
    refine ParseResult.toExcept_eq_ok.2 ⟨?_, accepted⟩
    rw [parseUnit, Parser.parse, r.run_eq]
  obtain ⟨rest, takes⟩ := Parser.parse_eq_ok.1 parsed
  apply Nested.nests
  rcases Parser.compilationUnit_cases takes tokens hbody he with ⟨same, fits⟩ | ⟨ms, fits, -, same, -⟩
  · have same : tokenize source file = r.unit.tokens := same
    rw [same]
    exact fits.nested
  · have same : tokenize source file = Modifier.listTokens ms ++ [e] := same
    rw [same, kinds_append]
    exact fits.nested.append (.cons (by rw [he]; rfl) .nil)

/-- A text with brackets of all kinds within each other. -/
theorem nests_of_array_initializer :
    let source := "@A(x = {@B(1)}) class C { int[] f = g(new int[]{(1)}); }"
    (parseUnit source).diagnostics = [] ∧
      nests maxNesting [] (kinds (tokenize source)) = true := by
  intro source
  have accepted : (parseUnit source).diagnostics = [] := by decide +kernel
  exact ⟨accepted, nests_of_accepted accepted⟩

/-- A bracket that is closed by another one, and one that is not closed. -/
example : nests maxNesting [] [.opening .paren, .closing .bracket] = false ∧
    nests maxNesting [] [.opening .brace] = false := by decide

end DeferFetch
