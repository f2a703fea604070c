/-
# DeferFetch.Proofs.Grammar.Overlay — the same file over other tokens.

What `DeferFetch.Proofs.Grammar.Relabel` shows of trees holds of declarations and files: a file can be
carried over to any other tokens of the same kinds (`CompilationUnit.exists_relabel`). It fits there
just as before, has the annotations that it had, over the new tokens, and declares and imports the
same names. So a readable file, printed and parsed again, is the same file over the tokens of its text
(`CompilationUnit.Readable.exists_parse`).
-/
import DeferFetch.Proofs.Grammar.Relabel
import DeferFetch.Proofs.Grammar.Unit
import DeferFetch.Proofs.Grammar.Text

namespace DeferFetch

/-! ## Replacing tokens -/

/-- Replaces the tokens of some words. -/
def Words.mapTokens (f : Token → Token) (w : Words) : Words := ⟨f w.first, w.others.map f⟩

/-- Replaces the tokens of a group. -/
def Group.mapTokens (f : Token → Token) (g : Group) : Group :=
  ⟨g.delimiter, f g.opening, g.trees.map (TokenTree.mapTokens f), f g.closing⟩

/-- Replaces the tokens of a modifier. -/
def Modifier.mapTokens (f : Token → Token) : Modifier → Modifier
  | .keyword t => .keyword (f t)
  | .contextual words => .contextual (words.mapTokens f)
  | .annot a => .annot (a.mapTokens f)

/-- Replaces the tokens of a method's body. -/
def MethodBody.mapTokens (f : Token → Token) : MethodBody → MethodBody
  | .block g => .block (g.mapTokens f)
  | .semicolon t => .semicolon (f t)

mutual

/-- Replaces the tokens of a type declaration. -/
def TypeDeclaration.mapTokens (f : Token → Token) : TypeDeclaration → TypeDeclaration
  | ⟨modifiers, kind, introducer, name, header, opening, members, closing⟩ =>
    ⟨modifiers.map (Modifier.mapTokens f), kind, introducer.mapTokens f, f name,
      header.map (TokenTree.mapTokens f), f opening, Member.listMapTokens f members, f closing⟩

/-- Replaces the tokens of a member. -/
def Member.mapTokens (f : Token → Token) : Member → Member
  | .field modifiers trees semicolon =>
    .field (modifiers.map (Modifier.mapTokens f)) (trees.map (TokenTree.mapTokens f)) (f semicolon)
  | .method modifiers signature body =>
    .method (modifiers.map (Modifier.mapTokens f)) (signature.map (TokenTree.mapTokens f))
      (body.mapTokens f)
  | .type declaration => .type (declaration.mapTokens f)
  | .block modifiers block => .block (modifiers.map (Modifier.mapTokens f)) (block.mapTokens f)
  | .constants trees semicolon => .constants (trees.map (TokenTree.mapTokens f)) (semicolon.map f)
  | .empty semicolon => .empty (f semicolon)

/-- Replaces the tokens of several members. -/
def Member.listMapTokens (f : Token → Token) : List Member → List Member
  | [] => []
  | member :: members => member.mapTokens f :: Member.listMapTokens f members

end

/-- Replaces the tokens of a top-level declaration. -/
def TopLevel.mapTokens (f : Token → Token) : TopLevel → TopLevel
  | .type d => .type (d.mapTokens f)
  | .empty t => .empty (f t)

/-- Replaces the tokens of a package declaration. -/
def PackageDeclaration.mapTokens (f : Token → Token) (p : PackageDeclaration) : PackageDeclaration :=
  ⟨p.annotations.map (·.mapTokens f), f p.word, p.name.mapTokens f, f p.semicolon⟩

/-- Replaces the tokens of an import. -/
def ImportDeclaration.mapTokens (f : Token → Token) (i : ImportDeclaration) : ImportDeclaration where
  word := f i.word
  static? := i.static?.map f
  name := i.name.mapTokens f
  wildcard? := i.wildcard?.map fun w => ⟨f w.dot, f w.star⟩
  semicolon := f i.semicolon

/-- **`u.mapTokens f`** — replaces every token of a file. -/
def CompilationUnit.mapTokens (f : Token → Token) (u : CompilationUnit) : CompilationUnit where
  package? := u.package?.map (PackageDeclaration.mapTokens f)
  imports := u.imports.map (ImportDeclaration.mapTokens f)
  types := u.types.map (TopLevel.mapTokens f)
  eof := f u.eof

section Equations

variable {f g : Token → Token}

/-! ## The tokens afterwards -/

theorem Words.tokens_mapTokens (w : Words) : (w.mapTokens f).tokens = w.tokens.map f := rfl

theorem Group.tokens_mapTokens (g : Group) : (g.mapTokens f).tokens = g.tokens.map f := by
  simp only [Group.tokens, Group.mapTokens, TokenTree.listTokens_mapTokens, List.map_cons,
    List.map_append, List.map_nil]

theorem Modifier.tokens_mapTokens (m : Modifier) : (m.mapTokens f).tokens = m.tokens.map f := by
  cases m with
  | keyword t => rfl
  | contextual words => rfl
  | annot a => exact a.tokens_mapTokens

theorem Modifier.listTokens_mapTokens (ms : List Modifier) :
    Modifier.listTokens (ms.map (Modifier.mapTokens f)) = (Modifier.listTokens ms).map f := by
  simp only [Modifier.listTokens, List.flatMap_map, List.map_flatMap, Modifier.tokens_mapTokens]

theorem MethodBody.tokens_mapTokens (body : MethodBody) :
    (body.mapTokens f).tokens = body.tokens.map f := by
  cases body with
  | block g => exact g.tokens_mapTokens
  | semicolon t => rfl

mutual

theorem TypeDeclaration.tokens_mapTokens (d : TypeDeclaration) :
    (d.mapTokens f).tokens = d.tokens.map f := by
  match d with
  | ⟨_, _, _, _, _, _, members, _⟩ =>
    simp only [TypeDeclaration.mapTokens, TypeDeclaration.tokens, Modifier.listTokens_mapTokens,
      Words.tokens_mapTokens, TokenTree.listTokens_mapTokens, Member.listTokens_mapTokens members,
      List.map_cons, List.map_append, List.map_nil]

theorem Member.tokens_mapTokens (m : Member) : (m.mapTokens f).tokens = m.tokens.map f := by
  match m with
  | .field _ _ _ =>
    simp only [Member.mapTokens, Member.tokens, Modifier.listTokens_mapTokens,
      TokenTree.listTokens_mapTokens, List.map_append, List.map_cons, List.map_nil]
  | .method _ _ _ =>
    simp only [Member.mapTokens, Member.tokens, Modifier.listTokens_mapTokens,
      TokenTree.listTokens_mapTokens, MethodBody.tokens_mapTokens, List.map_append]
  | .type declaration =>
    simp only [Member.mapTokens, Member.tokens, TypeDeclaration.tokens_mapTokens declaration]
  | .block _ _ =>
    simp only [Member.mapTokens, Member.tokens, Modifier.listTokens_mapTokens,
      Group.tokens_mapTokens, List.map_append]
  | .constants _ semicolon =>
    cases semicolon <;>
      simp only [Member.mapTokens, Member.tokens, TokenTree.listTokens_mapTokens, List.map_append,
        Option.map_none, Option.map_some, Option.toList_none, Option.toList_some, List.map_nil,
        List.map_cons]
  | .empty _ => simp only [Member.mapTokens, Member.tokens, List.map_cons, List.map_nil]

theorem Member.listTokens_mapTokens (ms : List Member) :
    Member.listTokens (Member.listMapTokens f ms) = (Member.listTokens ms).map f := by
  match ms with
  | [] => rfl
  | m :: ms =>
    simp only [Member.listMapTokens, Member.listTokens, Member.tokens_mapTokens m,
      Member.listTokens_mapTokens ms, List.map_append]

end

theorem TopLevel.tokens_mapTokens (d : TopLevel) : (d.mapTokens f).tokens = d.tokens.map f := by
  cases d with
  | type d => exact d.tokens_mapTokens
  | empty t => rfl

theorem TopLevel.listTokens_mapTokens (ds : List TopLevel) :
    (ds.map (TopLevel.mapTokens f)).flatMap TopLevel.tokens = (ds.flatMap TopLevel.tokens).map f := by
  simp only [List.flatMap_map, List.map_flatMap, TopLevel.tokens_mapTokens]

theorem ImportDeclaration.tokens_mapTokens (i : ImportDeclaration) :
    (i.mapTokens f).tokens = i.tokens.map f := by
  obtain ⟨_, static?, _, wildcard?, _⟩ := i
  cases static? <;> cases wildcard? <;>
    simp [ImportDeclaration.tokens, ImportDeclaration.mapTokens, QualifiedName.tokens_mapTokens]

theorem ImportDeclaration.listTokens_mapTokens (is : List ImportDeclaration) :
    (is.map (ImportDeclaration.mapTokens f)).flatMap ImportDeclaration.tokens =
      (is.flatMap ImportDeclaration.tokens).map f := by
  simp only [List.flatMap_map, List.map_flatMap, ImportDeclaration.tokens_mapTokens]

/-! ## Fitting afterwards -/

section Fits

variable (hf : ∀ t, (f t).kind = t.kind) {n : Nat}

/-- Items fit one after the other over other tokens, if each of them does. -/
theorem chain_map {σ α : Type} {tokens : α → List Token} {fits : σ → α → List TokenKind → Prop}
    {next : σ → α → σ} {x : σ} {image : α → α} {as : List α} {k : List TokenKind}
    (ofTokens : ∀ a, kinds (tokens (image a)) = kinds (tokens a))
    (ofFits : ∀ x a k, fits x (image a) k ↔ fits x a k) (ofNext : ∀ x a, next x (image a) = next x a) :
    Parser.chain tokens fits next x (as.map image) k ↔ Parser.chain tokens fits next x as k := by
  have all (as : List α) : kinds ((as.map image).flatMap tokens) = kinds (as.flatMap tokens) := by
    induction as with
    | nil => rfl
    | cons a as ih =>
      rw [List.map_cons, List.flatMap_cons, List.flatMap_cons, kinds_append, kinds_append, ofTokens, ih]
  induction as generalizing x with
  | nil => exact Iff.rfl
  | cons a as ih => simp only [List.map_cons, Parser.chain, all, ofFits, ofNext, ih]

include hf

theorem Group.fits_mapTokens {g : Group} {k : List TokenKind} :
    (g.mapTokens f).Fits n k ↔ g.Fits n k := by
  simp only [Group.fits_iff, Group.mapTokens, hf, TokenTree.listFits_mapTokens hf]

theorem Modifier.fits_mapTokens {m : Modifier} {k : List TokenKind} :
    (m.mapTokens f).Fits n k ↔ m.Fits n k := by
  rcases m with t | ⟨word, _ | ⟨hyphen, _ | ⟨last, _ | ⟨_, _⟩⟩⟩⟩ | a
  · simp only [Modifier.mapTokens, Modifier.Fits, hf]
  · simp only [Modifier.mapTokens, Words.mapTokens, List.map_nil, Modifier.Fits, hf]
  · exact Iff.rfl
  · simp only [Modifier.mapTokens, Words.mapTokens, List.map_cons, List.map_nil, Modifier.Fits, hf]
  · exact Iff.rfl
  · simp only [Modifier.mapTokens, Modifier.Fits, Annotation.tokens_mapTokens, kinds_map hf,
      Annotation.fits_mapTokens hf]

theorem Modifier.listFits_mapTokens {ms : List Modifier} {k : List TokenKind} :
    Modifier.listFits n (ms.map (Modifier.mapTokens f)) k ↔ Modifier.listFits n ms k := by
  unfold Modifier.listFits
  rw [chain_map (fun m => by rw [Modifier.tokens_mapTokens, kinds_map hf])
    (fun _ _ _ => Modifier.fits_mapTokens hf) fun _ _ => rfl]

theorem MemberHead.after_mapTokens (head : Parser.MemberHead) (tree : TokenTree) :
    head.after (tree.mapTokens f) = head.after tree := by
  have paren : Parser.isParenthesized (tree.mapTokens f) = Parser.isParenthesized tree := by
    rcases tree with t | ⟨_, _, _, _⟩ | a
    · rw [TokenTree.mapTokens_token]
      rfl
    · rw [TokenTree.mapTokens_group]
      rfl
    · rw [TokenTree.mapTokens_annot]
      rfl
  simp only [Parser.MemberHead.after, paren, TokenTree.tokens_mapTokens, kinds_map hf]

theorem MemberHead.foldl_mapTokens (head : Parser.MemberHead) (trees : List TokenTree) :
    (trees.map (TokenTree.mapTokens f)).foldl Parser.MemberHead.after head =
      trees.foldl Parser.MemberHead.after head := by
  rw [List.foldl_map]
  simp only [MemberHead.after_mapTokens hf]

theorem memberChain_mapTokens {head : Parser.MemberHead} {trees : List TokenTree}
    {k : List TokenKind} :
    memberChain n head (trees.map (TokenTree.mapTokens f)) k ↔ memberChain n head trees k :=
  chain_map (fun tree => by rw [TokenTree.tokens_mapTokens, kinds_map hf])
    (fun head tree k => by
      rw [TokenTree.tokens_mapTokens, kinds_map hf, TokenTree.fits_mapTokens hf])
    (MemberHead.after_mapTokens hf)

theorem fitsEnd_mapTokens {head : Parser.MemberHead} {body : MethodBody} {isField : Bool}
    {k : List TokenKind} :
    fitsEnd n head (body.mapTokens f, isField) k ↔ fitsEnd n head (body, isField) k := by
  cases body with
  | block g =>
    have delimiter : (g.mapTokens f).delimiter = g.delimiter := rfl
    simp only [MethodBody.mapTokens, fitsEnd, Group.fits_mapTokens hf, delimiter]
  | semicolon t => simp only [MethodBody.mapTokens, fitsEnd, hf]

theorem fitsPlain_mapTokens {ms : List Modifier} {trees : List TokenTree} {body : MethodBody}
    {isField : Bool} {k : List TokenKind} :
    fitsPlain n (ms.map (Modifier.mapTokens f)) (trees.map (TokenTree.mapTokens f))
      (body.mapTokens f, isField) k ↔ fitsPlain n ms trees (body, isField) k := by
  simp only [fitsPlain, TokenTree.listTokens_mapTokens, MethodBody.tokens_mapTokens, kinds_append,
    kinds_map hf, Modifier.listFits_mapTokens hf, memberChain_mapTokens hf,
    MemberHead.foldl_mapTokens hf, fitsEnd_mapTokens hf]

theorem fitsIntroducer_mapTokens {kind : TypeKind} {words : Words} :
    fitsIntroducer kind (words.mapTokens f) ↔ fitsIntroducer kind words := by
  rcases words with ⟨t, _ | ⟨word, _ | ⟨_, _⟩⟩⟩ <;> cases kind <;>
    simp only [Words.mapTokens, List.map_cons, List.map_nil, fitsIntroducer, hf]

theorem fitsConstants_mapTokens {trees : List TokenTree} {semicolon : Option Token}
    {k : List TokenKind} :
    fitsConstants n (trees.map (TokenTree.mapTokens f)) (semicolon.map f) k ↔
      fitsConstants n trees semicolon k := by
  have ends : kinds (semicolon.map f).toList = kinds semicolon.toList := by
    cases semicolon with
    | none => rfl
    | some t => exact congrArg (· :: []) (hf t)
  unfold fitsConstants
  rw [ends, TokenTree.listFits_mapTokens hf, avoids_mapTokens hf]
  cases semicolon with
  | none => exact Iff.rfl
  | some t => simp only [Option.map_some, hf]

omit hf in
theorem TypeDeclaration.modifiers_mapTokens (d : TypeDeclaration) :
    (d.mapTokens f).modifiers = d.modifiers.map (Modifier.mapTokens f) := by
  cases d
  rw [TypeDeclaration.mapTokens]

theorem TypeDeclaration.kinds_ownTokens_mapTokens (d : TypeDeclaration) :
    kinds (d.mapTokens f).ownTokens = kinds d.ownTokens := by
  cases d
  simp only [TypeDeclaration.mapTokens, TypeDeclaration.ownTokens, Words.tokens_mapTokens,
    TokenTree.listTokens_mapTokens, Member.listTokens_mapTokens, kinds_append, kinds_cons,
    kinds_map hf, hf]

mutual

theorem TypeDeclaration.fits_mapTokens {n : Nat} {d : TypeDeclaration} {k : List TokenKind} :
    (d.mapTokens f).Fits n k ↔ d.Fits n k := by
  match d with
  | ⟨_, _, _, _, _, _, members, _⟩ =>
    simp only [TypeDeclaration.mapTokens, TypeDeclaration.Fits, hf, fitsIntroducer_mapTokens hf,
      fitsHeader, TokenTree.listFits_mapTokens hf, avoids_mapTokens hf, Member.listTokens_mapTokens,
      kinds_map hf, Member.listFits_mapTokens]

theorem Member.fits_mapTokens {n : Nat} {first : Bool} {m : Member} {k : List TokenKind} :
    (m.mapTokens f).Fits n first k ↔ m.Fits n first k := by
  match m with
  | .field modifiers trees semicolon =>
    have plain : fitsPlain n (modifiers.map (Modifier.mapTokens f)) (trees.map (TokenTree.mapTokens f))
        ((MethodBody.semicolon semicolon).mapTokens f, true) k ↔
          fitsPlain n modifiers trees (.semicolon semicolon, true) k := fitsPlain_mapTokens hf
    rw [MethodBody.mapTokens] at plain
    simp only [Member.mapTokens, Member.Fits, plain, Modifier.listTokens_mapTokens,
      TokenTree.listTokens_mapTokens, kinds_append, kinds_cons, kinds_nil, kinds_map hf, hf]
  | .method modifiers trees body =>
    simp only [Member.mapTokens, Member.Fits, fitsPlain_mapTokens hf, Modifier.listTokens_mapTokens,
      TokenTree.listTokens_mapTokens, MethodBody.tokens_mapTokens, kinds_append, kinds_map hf]
  | .type d =>
    simp only [Member.mapTokens, Member.Fits, TypeDeclaration.kinds_ownTokens_mapTokens hf,
      TypeDeclaration.modifiers_mapTokens, Modifier.listFits_mapTokens hf,
      TypeDeclaration.fits_mapTokens]
  | .block modifiers block =>
    have delimiter : (block.mapTokens f).delimiter = block.delimiter := rfl
    simp only [Member.mapTokens, Member.Fits, Modifier.listFits_mapTokens hf, delimiter,
      Group.tokens_mapTokens, kinds_map hf, Group.fits_mapTokens hf]
  | .constants trees semicolon =>
    simp only [Member.mapTokens, Member.Fits, fitsConstants_mapTokens hf, List.map_eq_nil_iff,
      Option.map_eq_none_iff]
  | .empty semicolon => simp only [Member.mapTokens, Member.Fits, hf]

theorem Member.listFits_mapTokens {n : Nat} {first : Bool} {ms : List Member}
    {k : List TokenKind} :
    Member.listFits n first (Member.listMapTokens f ms) k ↔ Member.listFits n first ms k := by
  match ms with
  | [] => exact Iff.rfl
  | m :: ms =>
    simp only [Member.listMapTokens, Member.listFits, Member.listTokens_mapTokens, kinds_map hf,
      Member.fits_mapTokens, Member.listFits_mapTokens]

end

theorem TopLevel.fits_mapTokens {d : TopLevel} {k : List TokenKind} :
    (d.mapTokens f).Fits n k ↔ d.Fits n k := by
  cases d with
  | type d =>
    simp only [TopLevel.mapTokens, TopLevel.Fits, TypeDeclaration.modifiers_mapTokens,
      TypeDeclaration.kinds_ownTokens_mapTokens hf, Modifier.listFits_mapTokens hf,
      TypeDeclaration.fits_mapTokens hf]
  | empty t => simp only [TopLevel.mapTokens, TopLevel.Fits, hf]

theorem TopLevel.listFits_mapTokens {ds : List TopLevel} {k : List TokenKind} :
    TopLevel.listFits n (ds.map (TopLevel.mapTokens f)) k ↔ TopLevel.listFits n ds k := by
  induction ds with
  | nil => exact Iff.rfl
  | cons d ds ih =>
    simp only [List.map_cons, TopLevel.listFits, TopLevel.listTokens_mapTokens, kinds_map hf,
      TopLevel.fits_mapTokens hf, ih]

theorem PackageDeclaration.fits_mapTokens {p : PackageDeclaration} {k : List TokenKind} :
    (p.mapTokens f).Fits n k ↔ p.Fits n k := by
  have annotations : (p.mapTokens f).annotations.map Modifier.annot =
      (p.annotations.map Modifier.annot).map (Modifier.mapTokens f) := by
    simp only [PackageDeclaration.mapTokens, List.map_map]
    rfl
  unfold PackageDeclaration.Fits
  rw [annotations, Modifier.listFits_mapTokens hf]
  simp only [PackageDeclaration.mapTokens, hf, QualifiedName.fits_mapTokens hf,
    QualifiedName.tokens_mapTokens, kinds_append, kinds_cons, kinds_nil, kinds_map hf]

theorem ImportDeclaration.fits_mapTokens {i : ImportDeclaration} :
    (i.mapTokens f).Fits ↔ i.Fits := by
  obtain ⟨_, static?, _, wildcard?, _⟩ := i
  cases static? <;> cases wildcard? <;>
    simp [ImportDeclaration.Fits, ImportDeclaration.mapTokens, Wildcard.Fits, hf,
      QualifiedName.fits_mapTokens hf]

/-- **Files fit over other tokens** — of the same kinds. -/
theorem CompilationUnit.fits_mapTokens {u : CompilationUnit} :
    (u.mapTokens f).Fits n ↔ u.Fits n := by
  have package : (∀ p ∈ (u.mapTokens f).package?, p.Fits n
        (kinds ((u.mapTokens f).imports.flatMap ImportDeclaration.tokens
          ++ (u.mapTokens f).types.flatMap TopLevel.tokens ++ [(u.mapTokens f).eof]))) ↔
      ∀ p ∈ u.package?, p.Fits n (kinds (u.imports.flatMap ImportDeclaration.tokens
        ++ u.types.flatMap TopLevel.tokens ++ [u.eof])) := by
    simp only [CompilationUnit.mapTokens, ImportDeclaration.listTokens_mapTokens,
      TopLevel.listTokens_mapTokens, kinds_append, kinds_map hf, kinds_cons, kinds_nil, hf]
    cases u.package? with
    | none => simp
    | some p => simp [PackageDeclaration.fits_mapTokens hf]
  constructor
  · rintro ⟨hp, hi, ht, he⟩
    refine ⟨package.1 hp, fun i hi' => ?_, ?_, (hf u.eof).symm.trans he⟩
    · exact (ImportDeclaration.fits_mapTokens hf).1 (hi _ (List.mem_map_of_mem hi'))
    · have : TopLevel.listFits n (u.types.map (TopLevel.mapTokens f)) [(f u.eof).kind] := ht
      rwa [TopLevel.listFits_mapTokens hf, hf] at this
  · rintro ⟨hp, hi, ht, he⟩
    refine ⟨package.2 hp, List.forall_mem_map.2 fun i hi' => ?_, ?_, (hf u.eof).trans he⟩
    · exact (ImportDeclaration.fits_mapTokens hf).2 (hi i hi')
    · show TopLevel.listFits n (u.types.map (TopLevel.mapTokens f)) [(f u.eof).kind]
      rwa [TopLevel.listFits_mapTokens hf, hf]

end Fits

/-! ## The annotations afterwards -/

mutual

theorem TokenTree.annotations_mapTokens (tree : TokenTree) :
    (tree.mapTokens f).annotations = tree.annotations.map (·.mapTokens f) := by
  match tree with
  | .token _ => simp only [TokenTree.mapTokens_token, TokenTree.annotations, List.map_nil]
  | .group ⟨_, _, trees, _⟩ =>
    simp only [TokenTree.mapTokens_group, TokenTree.annotations,
      TokenTree.listAnnotations_mapTokens trees]
  | .annot a =>
    simp only [TokenTree.mapTokens_annot, TokenTree.annotations, Annotation.annotations_mapTokens a]

theorem TokenTree.listAnnotations_mapTokens (trees : List TokenTree) :
    TokenTree.listAnnotations (trees.map (TokenTree.mapTokens f)) =
      (TokenTree.listAnnotations trees).map (·.mapTokens f) := by
  match trees with
  | [] => rfl
  | tree :: trees =>
    simp only [List.map_cons, TokenTree.listAnnotations, TokenTree.annotations_mapTokens tree,
      TokenTree.listAnnotations_mapTokens trees, List.map_append]

theorem Annotation.annotations_mapTokens (a : Annotation) :
    (a.mapTokens f).annotations = a.annotations.map (·.mapTokens f) := by
  match a with
  | ⟨_, _, none⟩ =>
    simp only [List.map_cons, Annotation.annotations, Annotation.mapTokens_marker, List.map_nil]
  | ⟨_, _, some ⟨_, arguments, _, _⟩⟩ =>
    simp only [Argument.listAnnotations_mapTokens arguments, Annotation.annotations,
      Annotation.mapTokens_withArguments, List.map_append, List.map_cons, List.map_nil]

theorem Argument.listAnnotations_mapTokens (arguments : List Argument) :
    Argument.listAnnotations (arguments.map (Argument.mapTokens f)) =
      (Argument.listAnnotations arguments).map (·.mapTokens f) := by
  match arguments with
  | [] => rfl
  | ⟨_, value⟩ :: arguments =>
    simp only [List.map_cons, Argument.mapTokens, Argument.listAnnotations,
      ElementValue.annotations_mapTokens value, Argument.listAnnotations_mapTokens arguments,
      List.map_append]

theorem ElementValue.annotations_mapTokens (value : ElementValue) :
    (value.mapTokens f).annotations = value.annotations.map (·.mapTokens f) := by
  match value with
  | .expression trees =>
    simp only [ElementValue.mapTokens_expression, ElementValue.annotations,
      TokenTree.listAnnotations_mapTokens trees]
  | .annot a =>
    simp only [ElementValue.mapTokens_annot, ElementValue.annotations,
      Annotation.annotations_mapTokens a]
  | .array _ values _ _ =>
    simp only [ElementValue.mapTokens_array, ElementValue.annotations,
      ElementValue.listAnnotations_mapTokens values]

theorem ElementValue.listAnnotations_mapTokens (values : List ElementValue) :
    ElementValue.listAnnotations (values.map (ElementValue.mapTokens f)) =
      (ElementValue.listAnnotations values).map (·.mapTokens f) := by
  match values with
  | [] => rfl
  | value :: values =>
    simp only [List.map_cons, ElementValue.listAnnotations, ElementValue.annotations_mapTokens value,
      ElementValue.listAnnotations_mapTokens values, List.map_append]

end

theorem Group.annotations_mapTokens (g : Group) :
    (g.mapTokens f).annotations = g.annotations.map (·.mapTokens f) :=
  TokenTree.listAnnotations_mapTokens g.trees

theorem Modifier.listAnnotations_mapTokens (ms : List Modifier) :
    (ms.map (Modifier.mapTokens f)).flatMap Modifier.annotations =
      (ms.flatMap Modifier.annotations).map (·.mapTokens f) := by
  have one (m : Modifier) :
      (m.mapTokens f).annotations = m.annotations.map (·.mapTokens f) := by
    cases m with
    | keyword t => rfl
    | contextual words => rfl
    | annot a => exact a.annotations_mapTokens
  simp only [List.flatMap_map, List.map_flatMap, one]

theorem MethodBody.annotations_mapTokens (body : MethodBody) :
    (body.mapTokens f).annotations = body.annotations.map (·.mapTokens f) := by
  cases body with
  | block g => exact g.annotations_mapTokens
  | semicolon t => rfl

mutual

theorem TypeDeclaration.annotations_mapTokens (d : TypeDeclaration) :
    (d.mapTokens f).allAnnotations = d.allAnnotations.map (·.mapTokens f) := by
  match d with
  | ⟨_, _, _, _, _, _, members, _⟩ =>
    simp only [TypeDeclaration.mapTokens, TypeDeclaration.allAnnotations,
      Modifier.listAnnotations_mapTokens, TokenTree.listAnnotations_mapTokens,
      Member.listAnnotations_mapTokens members, List.map_append]

theorem Member.annotations_mapTokens (m : Member) :
    (m.mapTokens f).annotations = m.annotations.map (·.mapTokens f) := by
  match m with
  | .field _ _ _ =>
    simp only [Member.mapTokens, Member.annotations, Modifier.listAnnotations_mapTokens,
      TokenTree.listAnnotations_mapTokens, List.map_append]
  | .method _ _ _ =>
    simp only [Member.mapTokens, Member.annotations, Modifier.listAnnotations_mapTokens,
      TokenTree.listAnnotations_mapTokens, MethodBody.annotations_mapTokens, List.map_append]
  | .type d =>
    simp only [Member.mapTokens, Member.annotations, TypeDeclaration.annotations_mapTokens d]
  | .block _ _ =>
    simp only [Member.mapTokens, Member.annotations, Modifier.listAnnotations_mapTokens,
      Group.annotations_mapTokens, List.map_append]
  | .constants _ _ =>
    simp only [Member.mapTokens, Member.annotations, TokenTree.listAnnotations_mapTokens]
  | .empty _ => simp only [Member.mapTokens, Member.annotations, List.map_nil]

theorem Member.listAnnotations_mapTokens (ms : List Member) :
    Member.listAnnotations (Member.listMapTokens f ms) =
      (Member.listAnnotations ms).map (·.mapTokens f) := by
  match ms with
  | [] => rfl
  | m :: ms =>
    simp only [Member.listMapTokens, Member.listAnnotations, Member.annotations_mapTokens m,
      Member.listAnnotations_mapTokens ms, List.map_append]

end

theorem TopLevel.listAnnotations_mapTokens (ds : List TopLevel) :
    (ds.map (TopLevel.mapTokens f)).flatMap TopLevel.annotations =
      (ds.flatMap TopLevel.annotations).map (·.mapTokens f) := by
  have one (d : TopLevel) :
      (d.mapTokens f).annotations = d.annotations.map (·.mapTokens f) := by
    cases d with
    | type d => exact d.annotations_mapTokens
    | empty t => rfl
  simp only [List.flatMap_map, List.map_flatMap, one]

/-- **A file over other tokens has its annotations over them.** -/
theorem CompilationUnit.annotations_mapTokens (u : CompilationUnit) :
    (u.mapTokens f).annotations = u.annotations.map (·.mapTokens f) := by
  obtain ⟨package?, _, _, _⟩ := u
  have package (p : PackageDeclaration) :
      (p.mapTokens f).annotations.flatMap Annotation.annotations =
        (p.annotations.flatMap Annotation.annotations).map (·.mapTokens f) := by
    simp only [PackageDeclaration.mapTokens, List.flatMap_map, List.map_flatMap,
      Annotation.annotations_mapTokens]
  cases package? <;>
    simp only [CompilationUnit.annotations, CompilationUnit.mapTokens, Option.map_none,
      Option.map_some, Option.getD_none, Option.getD_some, package, List.map_append, List.map_nil,
      TopLevel.listAnnotations_mapTokens]

/-! ## Other tokens -/

theorem Words.exists_relabel (w : Words) {us : List Token} (h : us.map g = w.tokens.map g) :
    ∃ w' : Words, w'.tokens = us ∧ w'.mapTokens g = w.mapTokens g := by
  obtain ⟨u, vs, rfl, hu, hvs⟩ := exists_of_map_eq_cons h
  exact ⟨⟨u, vs⟩, rfl, by simp only [Words.mapTokens, hu, hvs]⟩

theorem Group.exists_relabel (b : Group) {us : List Token} (h : us.map g = b.tokens.map g) :
    ∃ b' : Group, b'.tokens = us ∧ b'.mapTokens g = b.mapTokens g := by
  obtain ⟨o, vs, rfl, ho, h⟩ := exists_of_map_eq_cons h
  obtain ⟨vs, ws, rfl, hvs, h⟩ := exists_of_map_eq_append h
  obtain ⟨c, ws, rfl, hc, h⟩ := exists_of_map_eq_cons h
  obtain rfl := List.map_eq_nil_iff.1 h
  obtain ⟨trees', rfl, htrees⟩ := TokenTree.exists_relabel_list b.trees hvs
  exact ⟨⟨b.delimiter, o, trees', c⟩, rfl, by simp only [Group.mapTokens, ho, htrees, hc]⟩

theorem Modifier.exists_relabel (m : Modifier) {us : List Token} (h : us.map g = m.tokens.map g) :
    ∃ m' : Modifier, m'.tokens = us ∧ m'.mapTokens g = m.mapTokens g := by
  cases m with
  | keyword t =>
    obtain ⟨u, vs, rfl, hu, hvs⟩ := exists_of_map_eq_cons h
    obtain rfl := List.map_eq_nil_iff.1 hvs
    exact ⟨.keyword u, rfl, congrArg Modifier.keyword hu⟩
  | contextual words =>
    obtain ⟨words', rfl, hwords⟩ := words.exists_relabel h
    exact ⟨.contextual words', rfl, congrArg Modifier.contextual hwords⟩
  | annot a =>
    obtain ⟨a', rfl, ha⟩ := a.exists_relabel h
    exact ⟨.annot a', rfl, congrArg Modifier.annot ha⟩

/-- Parts one after the other are carried over one after the other. -/
theorem exists_relabel_flatMap {α : Type} {tokens : α → List Token} {image : α → α}
    (one : ∀ (a : α) {us : List Token}, us.map g = (tokens a).map g →
      ∃ a', tokens a' = us ∧ image a' = image a)
    (as : List α) {us : List Token} (h : us.map g = (as.flatMap tokens).map g) :
    ∃ as' : List α, as'.flatMap tokens = us ∧ as'.map image = as.map image := by
  induction as generalizing us with
  | nil => exact ⟨[], (List.map_eq_nil_iff.1 h).symm, rfl⟩
  | cons a as ih =>
    obtain ⟨vs, ws, rfl, hvs, hws⟩ := exists_of_map_eq_append h
    obtain ⟨a', rfl, ha⟩ := one a hvs
    obtain ⟨as', rfl, has⟩ := ih hws
    exact ⟨a' :: as', rfl, by rw [List.map_cons, List.map_cons, ha, has]⟩

theorem Modifier.exists_relabel_list (ms : List Modifier) {us : List Token}
    (h : us.map g = (Modifier.listTokens ms).map g) :
    ∃ ms' : List Modifier, Modifier.listTokens ms' = us ∧
      ms'.map (Modifier.mapTokens g) = ms.map (Modifier.mapTokens g) :=
  exists_relabel_flatMap Modifier.exists_relabel ms h

theorem MethodBody.exists_relabel (body : MethodBody) {us : List Token}
    (h : us.map g = body.tokens.map g) :
    ∃ body' : MethodBody, body'.tokens = us ∧ body'.mapTokens g = body.mapTokens g := by
  cases body with
  | block b =>
    obtain ⟨b', rfl, hb⟩ := b.exists_relabel h
    exact ⟨.block b', rfl, congrArg MethodBody.block hb⟩
  | semicolon t =>
    obtain ⟨u, vs, rfl, hu, hvs⟩ := exists_of_map_eq_cons h
    obtain rfl := List.map_eq_nil_iff.1 hvs
    exact ⟨.semicolon u, rfl, congrArg MethodBody.semicolon hu⟩

mutual

theorem TypeDeclaration.exists_relabel (d : TypeDeclaration) {us : List Token}
    (h : us.map g = d.tokens.map g) :
    ∃ d' : TypeDeclaration, d'.tokens = us ∧ d'.mapTokens g = d.mapTokens g := by
  match d with
  | ⟨modifiers, kind, introducer, name, header, opening, members, closing⟩ =>
    simp only [TypeDeclaration.tokens, List.append_assoc, List.cons_append] at h
    obtain ⟨ms, _, rfl, hms, h⟩ := exists_of_map_eq_append h
    obtain ⟨is, _, rfl, his, h⟩ := exists_of_map_eq_append h
    obtain ⟨name', _, rfl, hname, h⟩ := exists_of_map_eq_cons h
    obtain ⟨hs, _, rfl, hhs, h⟩ := exists_of_map_eq_append h
    obtain ⟨opening', _, rfl, hopening, h⟩ := exists_of_map_eq_cons h
    obtain ⟨bs, _, rfl, hbs, h⟩ := exists_of_map_eq_append h
    obtain ⟨closing', _, rfl, hclosing, h⟩ := exists_of_map_eq_cons h
    obtain rfl := List.map_eq_nil_iff.1 h
    obtain ⟨modifiers', rfl, hmodifiers⟩ := Modifier.exists_relabel_list modifiers hms
    obtain ⟨introducer', rfl, hintroducer⟩ := introducer.exists_relabel his
    obtain ⟨header', rfl, hheader⟩ := TokenTree.exists_relabel_list header hhs
    obtain ⟨members', rfl, hmembers⟩ := Member.exists_relabel_list members hbs
    exact ⟨⟨modifiers', kind, introducer', name', header', opening', members', closing'⟩,
      by simp only [TypeDeclaration.tokens, List.append_assoc, List.cons_append],
      by simp only [TypeDeclaration.mapTokens, hmodifiers, hintroducer, hname, hheader, hopening,
        hmembers, hclosing]⟩

theorem Member.exists_relabel (m : Member) {us : List Token} (h : us.map g = m.tokens.map g) :
    ∃ m' : Member, m'.tokens = us ∧ m'.mapTokens g = m.mapTokens g := by
  match m with
  | .field modifiers trees semicolon =>
    simp only [Member.tokens, List.append_assoc] at h
    obtain ⟨ms, _, rfl, hms, h⟩ := exists_of_map_eq_append h
    obtain ⟨ts, _, rfl, hts, h⟩ := exists_of_map_eq_append h
    obtain ⟨semicolon', _, rfl, hsemicolon, h⟩ := exists_of_map_eq_cons h
    obtain rfl := List.map_eq_nil_iff.1 h
    obtain ⟨modifiers', rfl, hmodifiers⟩ := Modifier.exists_relabel_list modifiers hms
    obtain ⟨trees', rfl, htrees⟩ := TokenTree.exists_relabel_list trees hts
    exact ⟨.field modifiers' trees' semicolon', by simp only [Member.tokens, List.append_assoc],
      by simp only [Member.mapTokens, hmodifiers, htrees, hsemicolon]⟩
  | .method modifiers signature body =>
    simp only [Member.tokens, List.append_assoc] at h
    obtain ⟨ms, _, rfl, hms, h⟩ := exists_of_map_eq_append h
    obtain ⟨ts, _, rfl, hts, hbs⟩ := exists_of_map_eq_append h
    obtain ⟨modifiers', rfl, hmodifiers⟩ := Modifier.exists_relabel_list modifiers hms
    obtain ⟨signature', rfl, hsignature⟩ := TokenTree.exists_relabel_list signature hts
    obtain ⟨body', rfl, hbody⟩ := body.exists_relabel hbs
    exact ⟨.method modifiers' signature' body', by simp only [Member.tokens, List.append_assoc],
      by simp only [Member.mapTokens, hmodifiers, hsignature, hbody]⟩
  | .type d =>
    rw [Member.tokens] at h
    obtain ⟨d', rfl, hd⟩ := TypeDeclaration.exists_relabel d h
    exact ⟨.type d', by rw [Member.tokens], by simp only [Member.mapTokens, hd]⟩
  | .block modifiers block =>
    rw [Member.tokens] at h
    obtain ⟨ms, _, rfl, hms, hbs⟩ := exists_of_map_eq_append h
    obtain ⟨modifiers', rfl, hmodifiers⟩ := Modifier.exists_relabel_list modifiers hms
    obtain ⟨block', rfl, hblock⟩ := block.exists_relabel hbs
    exact ⟨.block modifiers' block', by rw [Member.tokens],
      by simp only [Member.mapTokens, hmodifiers, hblock]⟩
  | .constants trees none =>
    simp only [Member.tokens, Option.toList_none, List.append_nil] at h
    obtain ⟨trees', rfl, htrees⟩ := TokenTree.exists_relabel_list trees h
    exact ⟨.constants trees' none,
      by simp only [Member.tokens, Option.toList_none, List.append_nil],
      by simp only [Member.mapTokens, htrees]⟩
  | .constants trees (some semicolon) =>
    simp only [Member.tokens, Option.toList_some] at h
    obtain ⟨vs, ws, rfl, hvs, h⟩ := exists_of_map_eq_append h
    obtain ⟨semicolon', ws, rfl, hsemicolon, h⟩ := exists_of_map_eq_cons h
    obtain rfl := List.map_eq_nil_iff.1 h
    obtain ⟨trees', rfl, htrees⟩ := TokenTree.exists_relabel_list trees hvs
    exact ⟨.constants trees' (some semicolon'), by simp only [Member.tokens, Option.toList_some],
      by simp only [Member.mapTokens, htrees, Option.map_some, hsemicolon]⟩
  | .empty semicolon =>
    rw [Member.tokens] at h
    obtain ⟨u, vs, rfl, hu, hvs⟩ := exists_of_map_eq_cons h
    obtain rfl := List.map_eq_nil_iff.1 hvs
    exact ⟨.empty u, by rw [Member.tokens], by simp only [Member.mapTokens, hu]⟩

theorem Member.exists_relabel_list (ms : List Member) {us : List Token}
    (h : us.map g = (Member.listTokens ms).map g) :
    ∃ ms' : List Member, Member.listTokens ms' = us ∧
      Member.listMapTokens g ms' = Member.listMapTokens g ms := by
  match ms with
  | [] => exact ⟨[], (List.map_eq_nil_iff.1 h).symm, rfl⟩
  | m :: ms =>
    rw [Member.listTokens] at h
    obtain ⟨vs, ws, rfl, hvs, hws⟩ := exists_of_map_eq_append h
    obtain ⟨m', rfl, hm⟩ := Member.exists_relabel m hvs
    obtain ⟨ms', rfl, hms⟩ := Member.exists_relabel_list ms hws
    exact ⟨m' :: ms', by rw [Member.listTokens], by simp only [Member.listMapTokens, hm, hms]⟩

end

theorem TopLevel.exists_relabel (d : TopLevel) {us : List Token} (h : us.map g = d.tokens.map g) :
    ∃ d' : TopLevel, d'.tokens = us ∧ d'.mapTokens g = d.mapTokens g := by
  cases d with
  | type d =>
    obtain ⟨d', rfl, hd⟩ := d.exists_relabel h
    exact ⟨.type d', rfl, congrArg TopLevel.type hd⟩
  | empty t =>
    obtain ⟨u, vs, rfl, hu, hvs⟩ := exists_of_map_eq_cons h
    obtain rfl := List.map_eq_nil_iff.1 hvs
    exact ⟨.empty u, rfl, congrArg TopLevel.empty hu⟩

theorem PackageDeclaration.exists_relabel (p : PackageDeclaration) {us : List Token}
    (h : us.map g = p.tokens.map g) :
    ∃ p' : PackageDeclaration, p'.tokens = us ∧ p'.mapTokens g = p.mapTokens g := by
  obtain ⟨as, _, rfl, has, h⟩ := exists_of_map_eq_append h
  obtain ⟨word', _, rfl, hword, h⟩ := exists_of_map_eq_cons h
  obtain ⟨ns, _, rfl, hns, h⟩ := exists_of_map_eq_append h
  obtain ⟨semicolon', _, rfl, hsemicolon, h⟩ := exists_of_map_eq_cons h
  obtain rfl := List.map_eq_nil_iff.1 h
  obtain ⟨annotations', rfl, hannotations⟩ := exists_relabel_flatMap Annotation.exists_relabel _ has
  obtain ⟨name', rfl, hname⟩ := p.name.exists_relabel hns
  exact ⟨⟨annotations', word', name', semicolon'⟩, rfl,
    by simp only [PackageDeclaration.mapTokens, hannotations, hword, hname, hsemicolon]⟩

/-- A token that may be missing is carried over. -/
theorem exists_relabel_toList (t? : Option Token) {us : List Token}
    (h : us.map g = t?.toList.map g) :
    ∃ t?' : Option Token, t?'.toList = us ∧ t?'.map g = t?.map g := by
  cases t? with
  | none => exact ⟨none, (List.map_eq_nil_iff.1 h).symm, rfl⟩
  | some t =>
    obtain ⟨u, vs, rfl, hu, hvs⟩ := exists_of_map_eq_cons h
    obtain rfl := List.map_eq_nil_iff.1 hvs
    exact ⟨some u, rfl, congrArg some hu⟩

theorem Wildcard.exists_relabel (w? : Option Wildcard) {us : List Token}
    (h : us.map g = (wildcardTokens w?).map g) :
    ∃ w?' : Option Wildcard, wildcardTokens w?' = us ∧
      w?'.map (fun w => Wildcard.mk (g w.dot) (g w.star)) = w?.map fun w => ⟨g w.dot, g w.star⟩ := by
  cases w? with
  | none => exact ⟨none, (List.map_eq_nil_iff.1 h).symm, rfl⟩
  | some w =>
    obtain ⟨dot', vs, rfl, hdot, h⟩ := exists_of_map_eq_cons h
    obtain ⟨star', vs, rfl, hstar, h⟩ := exists_of_map_eq_cons h
    obtain rfl := List.map_eq_nil_iff.1 h
    exact ⟨some ⟨dot', star'⟩, rfl, by simp only [Option.map_some, hdot, hstar]⟩

theorem ImportDeclaration.exists_relabel (i : ImportDeclaration) {us : List Token}
    (h : us.map g = i.tokens.map g) :
    ∃ i' : ImportDeclaration, i'.tokens = us ∧ i'.mapTokens g = i.mapTokens g := by
  obtain ⟨word', _, rfl, hword, h⟩ := exists_of_map_eq_cons h
  obtain ⟨_, _, rfl, hparts, h⟩ := exists_of_map_eq_append h
  obtain ⟨semicolon', _, rfl, hsemicolon, h⟩ := exists_of_map_eq_cons h
  obtain rfl := List.map_eq_nil_iff.1 h
  obtain ⟨_, _, rfl, hparts, hws⟩ := exists_of_map_eq_append hparts
  obtain ⟨_, _, rfl, hss, hns⟩ := exists_of_map_eq_append hparts
  obtain ⟨static?', rfl, hstatic⟩ := exists_relabel_toList i.static? hss
  obtain ⟨name', rfl, hname⟩ := i.name.exists_relabel hns
  obtain ⟨wildcard?', rfl, hwildcard⟩ := Wildcard.exists_relabel i.wildcard? hws
  exact ⟨⟨word', static?', name', wildcard?', semicolon'⟩, rfl,
    by simp only [ImportDeclaration.mapTokens, hword, hstatic, hname, hwildcard, hsemicolon]⟩

/-- **Files over other tokens** — tokens with the same images form the same file up to them. -/
theorem CompilationUnit.exists_relabel (u : CompilationUnit) {us : List Token}
    (h : us.map g = u.tokens.map g) :
    ∃ u' : CompilationUnit, u'.tokens = us ∧ u'.mapTokens g = u.mapTokens g := by
  obtain ⟨_, _, rfl, hbody, h⟩ := exists_of_map_eq_append h
  obtain ⟨eof', _, rfl, heof, h⟩ := exists_of_map_eq_cons h
  obtain rfl := List.map_eq_nil_iff.1 h
  obtain ⟨_, _, rfl, hbody, hts⟩ := exists_of_map_eq_append hbody
  obtain ⟨ps, _, rfl, hps, his⟩ := exists_of_map_eq_append hbody
  obtain ⟨imports', rfl, himports⟩ := exists_relabel_flatMap ImportDeclaration.exists_relabel _ his
  obtain ⟨types', rfl, htypes⟩ := exists_relabel_flatMap TopLevel.exists_relabel _ hts
  obtain ⟨package?', rfl, hpackage⟩ : ∃ package?' : Option PackageDeclaration,
      (package?'.map PackageDeclaration.tokens).getD [] = ps ∧
        package?'.map (PackageDeclaration.mapTokens g) =
          u.package?.map (PackageDeclaration.mapTokens g) := by
    cases hp : u.package? with
    | none =>
      rw [hp] at hps
      exact ⟨none, (List.map_eq_nil_iff.1 hps).symm, rfl⟩
    | some p =>
      rw [hp] at hps
      obtain ⟨p', rfl, hp'⟩ := p.exists_relabel hps
      exact ⟨some p', rfl, congrArg some hp'⟩
  exact ⟨⟨package?', imports', types', eof'⟩, rfl,
    by simp only [CompilationUnit.mapTokens, hpackage, himports, htypes, heof]⟩

end Equations

/-! ## Printing and parsing -/

/-- **Printing and parsing again** — what a readable file is printed as parses without errors, and as
the same file, up to where the tokens stand. -/
theorem CompilationUnit.Readable.exists_parse {u : CompilationUnit} (h : u.Readable)
    (file : Option String) :
    ∃ w, (parseUnit u.source file).toExcept = .ok w ∧
      w.mapTokens Token.bare = u.mapTokens Token.bare := by
  have whole : u.source = print u.body ++ u.eof.leadingText := by
    apply String.toList_injective
    rw [source, u.tokens_eq, String.toList_append, toList_print, toList_print, spelling_append,
      spelling_cons, h.fits.eof]
    simp [TokenKind.text]
  have eof : u.eof.bare = .synthetic .eof u.eof.leadingText := by
    rw [← h.fits.eof]
    rfl
  have read : (tokenize u.source file).map Token.bare = u.tokens.map Token.bare := by
    rw [whole, tokenize_print h.legible h.ends, u.tokens_eq, List.map_append, List.map_singleton, eof]
  obtain ⟨w, tokens, same⟩ := u.exists_relabel read
  have fits : w.Fits maxNesting := by
    rw [← CompilationUnit.fits_mapTokens Token.kind_bare, same,
      CompilationUnit.fits_mapTokens Token.kind_bare]
    exact h.fits
  exact ⟨w, parseUnit_of_tokens fits tokens.symm, same⟩

end DeferFetch
