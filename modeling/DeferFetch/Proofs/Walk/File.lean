/-
# DeferFetch.Proofs.Walk.File — walks over declarations and whole files.

What `DeferFetch.Proofs.Walk.Replace` shows of trees holds of declarations as well: they are made of
trees and of tokens that stay. So a walk keeps files readable (`CompilationUnit.walked`).
-/
import DeferFetch.Proofs.Walk.Replace

namespace DeferFetch

variable {σ : Type}

/-! ## The parts of declarations -/

/-- The tokens and annotations of a modifier. -/
def Modifier.part (m : Modifier) : Part := ⟨m.tokens, m.annotations⟩

/-- The tokens and annotations of several modifiers. -/
def Modifier.listPart (ms : List Modifier) : Part :=
  ⟨Modifier.listTokens ms, ms.flatMap Modifier.annotations⟩

/-- The tokens and annotations of a method's body. -/
def MethodBody.part (body : MethodBody) : Part := ⟨body.tokens, body.annotations⟩

/-- The tokens and annotations of a type declaration after its modifiers. -/
def TypeDeclaration.ownPart (d : TypeDeclaration) : Part :=
  ⟨d.ownTokens, TokenTree.listAnnotations d.header ++ Member.listAnnotations d.members⟩

/-- The tokens and annotations of a type declaration. -/
def TypeDeclaration.part (d : TypeDeclaration) : Part := ⟨d.tokens, d.allAnnotations⟩

/-- The tokens and annotations of a member. -/
def Member.part (m : Member) : Part := ⟨m.tokens, m.annotations⟩

/-- The tokens and annotations of several members. -/
def Member.listPart (ms : List Member) : Part := ⟨Member.listTokens ms, Member.listAnnotations ms⟩

/-- The tokens and annotations of declarations at the top of a file. -/
def TopLevel.listPart (ds : List TopLevel) : Part :=
  ⟨ds.flatMap TopLevel.tokens, ds.flatMap TopLevel.annotations⟩

/-- The tokens and annotations of a file. -/
def CompilationUnit.part (u : CompilationUnit) : Part := ⟨u.tokens, u.annotations⟩

theorem Member.listPart_cons (m : Member) (ms : List Member) :
    m.part ++ Member.listPart ms = Member.listPart (m :: ms) :=
  Part.ext (by simp only [Member.listPart, Member.part, Member.listTokens, Part.tokens_append])
    (by simp only [Member.listPart, Member.part, Member.listAnnotations, Part.annotations_append])

theorem TypeDeclaration.part_eq (d : TypeDeclaration) :
    Modifier.listPart d.modifiers ++ d.ownPart = d.part := by
  cases d
  refine Part.ext (TypeDeclaration.tokens_eq _).symm ?_
  simp only [TypeDeclaration.ownPart, TypeDeclaration.part, TypeDeclaration.allAnnotations,
    Modifier.listPart, Part.annotations_append, List.append_assoc]

theorem TypeDeclaration.ownPart_eq (d : TypeDeclaration) :
    .plain (d.introducer.tokens ++ [d.name]) ++ (TokenTree.listPart d.header ++
        (.plain [d.opening] ++ (Member.listPart d.members ++ .plain [d.closing]))) = d.ownPart :=
  Part.ext
    (by simp [TypeDeclaration.ownPart, TypeDeclaration.ownTokens, TokenTree.listPart,
      Member.listPart])
    (by simp [TypeDeclaration.ownPart, TokenTree.listPart, Member.listPart])

theorem TypeDeclaration.fits_iff {n : Nat} {d : TypeDeclaration} {f : List TokenKind} :
    d.Fits n f ↔ fitsIntroducer d.kind d.introducer ∧ d.name.kind.isIdentifier ∧
      fitsHeader n d.header
        (d.opening.kind :: (kinds (Member.listTokens d.members) ++ d.closing.kind :: f)) ∧
      d.opening.kind = .opening .brace ∧ 0 < n ∧
      Member.listFits (n - 1) (d.kind = .enumeration) d.members (d.closing.kind :: f) ∧
      d.closing.kind = .closing .brace := by
  cases d
  exact Iff.rfl

section Declarations

variable {N : Nat} {R : σ → Part → Part → σ → Prop} {visit : Annotation → StateM σ Annotation}
  {n : Nat} {f : List TokenKind} {tail : List Char}

/-! ## Groups and modifiers -/

theorem Group.walked (v : Visits N R visit) (hn : n ≤ N) {g : Group} (fits : g.Fits n f)
    (legible : Legible g.tokens tail) (s : σ) :
    Walked R s ((g.mapAnnotationsM visit).run s).2 ⟨g.tokens, g.annotations⟩
      ⟨((g.mapAnnotationsM visit).run s).1.tokens, ((g.mapAnnotationsM visit).run s).1.annotations⟩
      f tail (((g.mapAnnotationsM visit).run s).1.Fits n) := by
  have walk : ((TokenTree.group g).mapAnnotationsM visit).run s =
      (.group ((g.mapAnnotationsM visit).run s).1, ((g.mapAnnotationsM visit).run s).2) := by
    cases g
    simp only [TokenTree.mapAnnotationsM, Group.mapAnnotationsM, run_bind_state, run_pure_state]
  have whole := TokenTree.walked v hn (show (TokenTree.group g).Fits n f from fits)
    (by simpa using legible) s
  rw [walk] at whole
  have shape (g : Group) : (TokenTree.group g).part = ⟨g.tokens, g.annotations⟩ :=
    Part.ext (TokenTree.tokens_group g) (by
      cases g
      simp only [TokenTree.part, TokenTree.annotations, Group.annotations])
  exact whole.cast (shape _) (shape _)

theorem Group.delimiter_mapAnnotationsM (g : Group) (s : σ) :
    ((g.mapAnnotationsM visit).run s).1.delimiter = g.delimiter := rfl

theorem MethodBody.walked (v : Visits N R visit) (hn : n ≤ N) {head : Parser.MemberHead}
    {body : MethodBody} {isField : Bool} (fits : fitsEnd n head (body, isField) f)
    (legible : Legible body.tokens tail) (s : σ) :
    Walked R s ((body.mapAnnotationsM visit).run s).2 body.part
      ((body.mapAnnotationsM visit).run s).1.part f tail
      (fitsEnd n head (((body.mapAnnotationsM visit).run s).1, isField)) := by
  cases body with
  | semicolon t =>
    have stays := Walked.plain v.toComposes (s := s) (f := f) fits.plain legible
    exact stays.imp fun _ _ _ _ => fits
  | block g =>
    obtain ⟨field, equals, default, brace, fits⟩ := fits
    exact (Group.walked v hn fits legible s).imp fun _ _ _ h => ⟨field, equals, default, brace, h⟩

theorem Modifier.walked (v : Visits N R visit) (hn : n ≤ N) {m : Modifier} (fits : m.Fits n f)
    (legible : Legible m.tokens tail) (s : σ) :
    Walked R s ((m.mapAnnotationsM visit).run s).2 m.part ((m.mapAnnotationsM visit).run s).1.part
      f tail (((m.mapAnnotationsM visit).run s).1.Fits n) := by
  match m, fits, legible with
  | .annot a, fits, legible =>
    simp only [Modifier.mapAnnotationsM, run_map_state]
    have walked := Annotation.walked v hn fits.2 legible s
    exact walked.imp fun g _ _ h => ⟨h.opens g, h⟩
  | .keyword t, fits, legible =>
    simp only [Modifier.mapAnnotationsM, run_pure_state]
    have stays := Walked.plain v.toComposes (s := s) (f := f) (Modifier.Fits.plain fits) legible
    exact stays.imp fun _ _ _ _ => fits
  | .contextual ⟨word, []⟩, fits, legible =>
    simp only [Modifier.mapAnnotationsM, run_pure_state]
    have stays := Walked.plain v.toComposes (s := s) (f := f) (Modifier.Fits.plain fits) legible
    exact stays.imp fun _ _ kinds _ => (Shortsighted.atSealed.congr kinds).symm.trans fits
  | .contextual ⟨_, [_, _]⟩, fits, legible =>
    simp only [Modifier.mapAnnotationsM, run_pure_state]
    have stays := Walked.plain v.toComposes (s := s) (f := f) (Modifier.Fits.plain fits) legible
    exact stays.imp fun _ _ _ _ => fits

theorem Modifier.listWalked (v : Visits N R visit) (hn : n ≤ N) {ms : List Modifier}
    (fits : Modifier.listFits n ms f) (legible : Legible (Modifier.listTokens ms) tail) (s : σ) :
    Walked R s ((ms.mapM (Modifier.mapAnnotationsM visit)).run s).2 (Modifier.listPart ms)
      (Modifier.listPart ((ms.mapM (Modifier.mapAnnotationsM visit)).run s).1) f tail
      (Modifier.listFits n ((ms.mapM (Modifier.mapAnnotationsM visit)).run s).1) := by
  induction ms generalizing s with
  | nil =>
    rw [List.mapM_nil]
    have stays := Walked.plain v.toComposes (s := s) (f := f) plain_nil (legible_nil tail)
    exact stays.imp fun g same _ _ => ⟨trivial, (Shortsighted.startsModifier.congr same).symm.trans fits.2⟩
  | cons m ms ih =>
    rw [List.mapM_cons]
    simp only [run_bind_state, run_pure_state]
    obtain ⟨⟨first, others⟩, stop⟩ := fits
    obtain ⟨hm, hms⟩ := legible_append.1 legible
    have whole := (Modifier.walked v hn first hm s).append v.toComposes (ih ⟨others, stop⟩ hms _)
    exact whole.imp fun g _ _ h => ⟨⟨h.1, h.2.1⟩, h.2.2⟩

/-! ## Members -/

/-- The trees of a member that goes on fit one after the other. -/
theorem memberChain.listFits {head : Parser.MemberHead} {trees : List TokenTree}
    (h : memberChain n head trees f) : TokenTree.listFits n trees f := by
  induction trees generalizing head with
  | nil => trivial
  | cons tree trees ih =>
    refine ⟨?_, ih h.2⟩
    rw [TokenTree.listTokens_eq_flatMap]
    exact h.1.2

/-- Trees walked over show of a member what the old ones did. -/
theorem Parser.MemberHead.after_congr {head : Parser.MemberHead} {tree tree' : TokenTree}
    {ks ls : List TokenKind} (paren : Parser.isParenthesized tree' = Parser.isParenthesized tree)
    (same : SameKinds (kinds tree.tokens ++ ks) (kinds tree'.tokens ++ ls)) :
    head.after tree' = head.after tree := by
  have test (k : TokenKind) : atKind k (kinds tree'.tokens) = atKind k (kinds tree.tokens) := by
    rw [← atKind_append tree.kinds_ne_nil ks, ← atKind_append tree'.kinds_ne_nil ls,
      (Shortsighted.atKind k).congr same]
  simp only [Parser.MemberHead.after, test, paren]

theorem memberChain.congr {g : List TokenKind} {head : Parser.MemberHead}
    {trees trees' : List TokenTree} (h : memberChain n head trees f)
    (fits : TokenTree.listFits n trees' g) (alike : Alike f g trees trees') :
    memberChain n head trees' g ∧
      trees'.foldl Parser.MemberHead.after head = trees.foldl Parser.MemberHead.after head := by
  induction trees generalizing head trees' with
  | nil =>
    obtain rfl : trees' = [] := alike
    exact ⟨trivial, rfl⟩
  | cons tree trees ih =>
    obtain ⟨tree', others, rfl, paren, same, alike⟩ := alike
    simp only [TokenTree.listTokens, kinds_append, List.append_assoc] at same
    have after : head.after tree' = head.after tree := Parser.MemberHead.after_congr paren same
    obtain ⟨chain, final⟩ := ih h.2 fits.2 alike
    refine ⟨⟨⟨?_, ?_⟩, ?_⟩, ?_⟩
    · rw [← TokenTree.listTokens_eq_flatMap]
      refine ((Shortsighted.endsMember head).congr same).symm.trans ?_
      rw [TokenTree.listTokens_eq_flatMap]
      exact h.1.1
    · rw [← TokenTree.listTokens_eq_flatMap]
      exact fits.1
    · rw [after]
      exact chain
    · rw [List.foldl_cons, List.foldl_cons, after, final]

/-- A field or a method, which ends in a semicolon or a body. -/
theorem Member.plainWalked (v : Visits N R visit) (hn : n ≤ N) {ms : List Modifier}
    {trees : List TokenTree} {body : MethodBody} {isField : Bool} {s t u w : σ}
    {ms' : List Modifier} {trees' : List TokenTree} {body' : MethodBody}
    (hms : (ms.mapM (Modifier.mapAnnotationsM visit)).run s = (ms', t))
    (htrees : (TokenTree.listMapAnnotationsM visit trees).run t = (trees', u))
    (hbody : (body.mapAnnotationsM visit).run u = (body', w))
    (begins : atKind .semicolon (kinds (Modifier.listTokens ms ++
      (TokenTree.listTokens trees ++ body.tokens))) = false)
    (fits : fitsPlain n ms trees (body, isField) f)
    (legible : Legible (Modifier.listTokens ms ++ (TokenTree.listTokens trees ++ body.tokens)) tail) :
    Walked R s w (Modifier.listPart ms ++ (TokenTree.listPart trees ++ body.part))
      (Modifier.listPart ms' ++ (TokenTree.listPart trees' ++ body'.part)) f tail fun g =>
      atKind .semicolon (kinds (Modifier.listTokens ms' ++
        (TokenTree.listTokens trees' ++ body'.tokens))) = false ∧
      fitsPlain n ms' trees' (body', isField) g := by
  obtain ⟨fms, brace, word, chain, ends⟩ := fits
  obtain ⟨lms, lown⟩ := legible_append.1 legible
  obtain ⟨ltrees, lbody⟩ := legible_append.1 lown
  have stop := MethodBody.walked v hn ends lbody u
  rw [hbody] at stop
  have middle := TokenTree.listWalked v hn chain.listFits ltrees t
  rw [htrees] at middle
  have own := middle.append v.toComposes stop
  have before := Modifier.listWalked v hn fms lms s
  rw [hms] at before
  refine (before.append v.toComposes own).imp fun g same whole h => ?_
  obtain ⟨hms', ⟨htrees', alike⟩, hend⟩ := h
  obtain ⟨chain', final⟩ := chain.congr htrees' alike
  -- what tells a member from a block or a type is its first kinds, which stay
  have after := own.sameKinds g same
  have ends (body : MethodBody) (ms : List Modifier) (trees : List TokenTree) :
      kinds (Modifier.listTokens ms ++ (TokenTree.listTokens trees ++ body.tokens)) ≠ [] := by
    cases body <;> simp [MethodBody.tokens, Group.tokens]
  refine ⟨?_, hms', ?_, ?_, chain', ?_⟩
  · rw [← atKind_append (ends body' ms' trees') g]
    rw [← atKind_append (ends body ms trees) f] at begins
    exact ((Shortsighted.atKind _).congr whole).symm.trans begins
  · exact ((Shortsighted.atKind _).congr after).symm.trans brace
  · exact (Shortsighted.atTypeWord.congr after).symm.trans word
  · rw [final]
    exact hend

theorem Walked.constants (v : Visits N R visit) (hn : n ≤ N) {first : Bool}
    {trees trees' : List TokenTree} {semicolon : Option Token} {s t : σ}
    (htrees : (TokenTree.listMapAnnotationsM visit trees).run s = (trees', t))
    (fits : (Member.constants trees semicolon).Fits n first f)
    (legible : Legible (Member.constants trees semicolon).tokens tail) :
    Walked R s t (Member.constants trees semicolon).part (Member.constants trees' semicolon).part f
      tail ((Member.constants trees' semicolon).Fits n first) := by
  obtain ⟨hfirst, some, hf, avoid, ends⟩ := fits
  rw [Member.tokens] at legible
  obtain ⟨ltrees, lsemicolon⟩ := legible_append.1 legible
  have plain : Plain semicolon.toList := by
    cases semicolon with
    | none => exact plain_nil
    | some t =>
      have hk : t.kind = .semicolon := ends
      simp [TokenKind.isPlain_of_eq hk rfl]
  have shape (trees : List TokenTree) : TokenTree.listPart trees ++ .plain semicolon.toList =
      (Member.constants trees semicolon).part :=
    Part.ext (by simp only [TokenTree.listPart, Member.part, Member.tokens, Part.tokens_append,
        Part.tokens_plain])
      (by simp only [TokenTree.listPart, Member.part, Member.annotations, Part.annotations_append,
        Part.annotations_plain, List.append_nil])
  have walked := TokenTree.listWalked v hn hf ltrees s
  rw [htrees] at walked
  have whole := walked.append v.toComposes (Walked.plain v.toComposes (f := f) plain lsemicolon)
  refine (whole.imp fun g same _ h => ?_).cast (shape trees) (shape trees')
  obtain ⟨⟨fits', alike⟩, -⟩ := h
  refine ⟨hfirst, ?_, fits', alike.avoids (.atKind _) avoid, ?_⟩
  · rintro ⟨hnil, hnone⟩
    exact some ⟨Classical.byContradiction fun ne => alike.ne_nil ne hnil, hnone⟩
  · cases semicolon with
    | none => exact (Shortsighted.endsConstants.congr same).symm.trans ends
    | some t => exact ends

theorem Walked.empty (v : Visits N R visit) {first : Bool} {semicolon : Token} {s : σ}
    (fits : (Member.empty semicolon).Fits n first f)
    (legible : Legible (Member.empty semicolon).tokens tail) :
    Walked R s s (Member.empty semicolon).part (Member.empty semicolon).part f tail
      ((Member.empty semicolon).Fits n first) := by
  have plain : Plain [semicolon] := by simp [TokenKind.isPlain_of_eq fits.2 rfl]
  rw [Member.tokens] at legible
  have shape : Part.plain [semicolon] = (Member.empty semicolon).part :=
    Part.ext (by simp only [Member.part, Member.tokens, Part.tokens_plain])
      (by simp only [Member.part, Member.annotations, Part.annotations_plain])
  exact ((Walked.plain v.toComposes plain legible).cast shape shape).imp fun _ _ _ _ => fits

theorem Walked.block (v : Visits N R visit) (hn : n ≤ N) {first : Bool}
    {modifiers modifiers' : List Modifier} {block block' : Group} {s t u : σ}
    (hmodifiers : (modifiers.mapM (Modifier.mapAnnotationsM visit)).run s = (modifiers', t))
    (hblock : (block.mapAnnotationsM visit).run t = (block', u))
    (fits : (Member.block modifiers block).Fits n first f)
    (legible : Legible (Member.block modifiers block).tokens tail) :
    Walked R s u (Member.block modifiers block).part (Member.block modifiers' block').part f tail
      ((Member.block modifiers' block').Fits n first) := by
  obtain ⟨hfirst, hms, brace, hb⟩ := fits
  rw [Member.tokens] at legible
  obtain ⟨lms, lblock⟩ := legible_append.1 legible
  have shape (modifiers : List Modifier) (block : Group) :
      Modifier.listPart modifiers ++ ⟨block.tokens, block.annotations⟩ =
        (Member.block modifiers block).part :=
    Part.ext (by simp only [Modifier.listPart, Member.part, Member.tokens, Part.tokens_append])
      (by simp only [Modifier.listPart, Member.part, Member.annotations, Part.annotations_append])
  have walkedModifiers := Modifier.listWalked v hn hms lms s
  rw [hmodifiers] at walkedModifiers
  have walkedBlock := Group.walked v hn hb lblock t
  have brace' : block'.delimiter = .brace := by
    rw [← brace, ← block.delimiter_mapAnnotationsM t, hblock]
  rw [hblock] at walkedBlock
  have whole := walkedModifiers.append v.toComposes walkedBlock
  exact (whole.imp fun g _ _ h => ⟨hfirst, h.1, brace', h.2⟩).cast (shape _ _) (shape _ _)

theorem Walked.typeMember {first : Bool} {d d' : TypeDeclaration} {s t : σ}
    (fits : (Member.type d).Fits n first f)
    (h : Walked R s t d.part d'.part f tail fun g =>
      Modifier.listFits n d'.modifiers (kinds d'.ownTokens ++ g) ∧ d'.Fits n g ∧
        SameKinds (kinds d.ownTokens ++ f) (kinds d'.ownTokens ++ g)) :
    Walked R s t (Member.type d).part (Member.type d').part f tail
      ((Member.type d').Fits n first) := by
  have shape (d : TypeDeclaration) : d.part = (Member.type d).part :=
    Part.ext (by simp only [TypeDeclaration.part, Member.part, Member.tokens])
      (by simp only [TypeDeclaration.part, Member.part, Member.annotations])
  refine (h.imp fun g _ _ h => ?_).cast (shape d) (shape d')
  exact ⟨fits.1, h.1, (Shortsighted.atTypeWord.congr h.2.2).symm.trans fits.2.2.1, h.2.1⟩

theorem Walked.field (v : Visits N R visit) (hn : n ≤ N) {first : Bool}
    {modifiers modifiers' : List Modifier} {trees trees' : List TokenTree} {semicolon : Token}
    {s t u : σ}
    (hmodifiers : (modifiers.mapM (Modifier.mapAnnotationsM visit)).run s = (modifiers', t))
    (htrees : (TokenTree.listMapAnnotationsM visit trees).run t = (trees', u))
    (fits : (Member.field modifiers trees semicolon).Fits n first f)
    (legible : Legible (Member.field modifiers trees semicolon).tokens tail) :
    Walked R s u (Member.field modifiers trees semicolon).part
      (Member.field modifiers' trees' semicolon).part f tail
      ((Member.field modifiers' trees' semicolon).Fits n first) := by
  obtain ⟨hfirst, begins, fits⟩ := fits
  rw [Member.tokens, List.append_assoc] at legible
  have shape (modifiers : List Modifier) (trees : List TokenTree) :
      Modifier.listPart modifiers ++
          (TokenTree.listPart trees ++ (MethodBody.semicolon semicolon).part) =
        (Member.field modifiers trees semicolon).part :=
    Part.ext (by simp [Modifier.listPart, TokenTree.listPart, MethodBody.part, Member.part,
        Member.tokens, MethodBody.tokens])
      (by simp [Modifier.listPart, TokenTree.listPart, MethodBody.part, Member.part,
        Member.annotations, MethodBody.annotations])
  have whole := Member.plainWalked v hn hmodifiers htrees
    (show ((MethodBody.semicolon semicolon).mapAnnotationsM visit).run _ = _ from rfl) begins
    fits legible
  exact (whole.imp fun g _ _ h => ⟨hfirst, h.1, h.2⟩).cast (shape _ _) (shape _ _)

theorem Walked.method (v : Visits N R visit) (hn : n ≤ N) {first : Bool}
    {modifiers modifiers' : List Modifier} {trees trees' : List TokenTree} {body body' : MethodBody}
    {s t u w : σ}
    (hmodifiers : (modifiers.mapM (Modifier.mapAnnotationsM visit)).run s = (modifiers', t))
    (htrees : (TokenTree.listMapAnnotationsM visit trees).run t = (trees', u))
    (hbody : (body.mapAnnotationsM visit).run u = (body', w))
    (fits : (Member.method modifiers trees body).Fits n first f)
    (legible : Legible (Member.method modifiers trees body).tokens tail) :
    Walked R s w (Member.method modifiers trees body).part
      (Member.method modifiers' trees' body').part f tail
      ((Member.method modifiers' trees' body').Fits n first) := by
  obtain ⟨hfirst, begins, fits⟩ := fits
  rw [Member.tokens, List.append_assoc] at legible
  have shape (modifiers : List Modifier) (trees : List TokenTree) (body : MethodBody) :
      Modifier.listPart modifiers ++ (TokenTree.listPart trees ++ body.part) =
        (Member.method modifiers trees body).part :=
    Part.ext (by simp [Modifier.listPart, TokenTree.listPart, MethodBody.part, Member.part,
        Member.tokens])
      (by simp [Modifier.listPart, TokenTree.listPart, MethodBody.part, Member.part,
        Member.annotations])
  have whole := Member.plainWalked v hn hmodifiers htrees hbody begins fits legible
  exact (whole.imp fun g _ _ h => ⟨hfirst, h.1, h.2⟩).cast (shape _ _ _) (shape _ _ _)

theorem Walked.noMembers (v : Visits N R visit) {first : Bool} {s : σ} :
    Walked R s s (Member.listPart []) (Member.listPart []) f tail (Member.listFits n first []) := by
  have stays := Walked.plain v.toComposes (s := s) (f := f) plain_nil (legible_nil tail)
  have shape : Part.plain [] = Member.listPart [] := Part.ext rfl rfl
  exact (stays.cast shape shape).imp fun _ _ _ _ => trivial

theorem Walked.members (v : Visits N R visit) {first : Bool} {m m' : Member}
    {ms ms' : List Member} {s t u : σ} (fits : Member.listFits n first (m :: ms) f)
    (legible : Legible (Member.listTokens (m :: ms)) tail)
    (h : m.Fits n first (kinds (Member.listTokens ms) ++ f) →
      Legible m.tokens (spelling (Member.listTokens ms) ++ tail) →
      Walked R s t m.part m'.part (kinds (Member.listTokens ms) ++ f)
        (spelling (Member.listTokens ms) ++ tail) (m'.Fits n first))
    (hs : Member.listFits n false ms f → Legible (Member.listTokens ms) tail →
      Walked R t u (Member.listPart ms) (Member.listPart ms') f tail (Member.listFits n false ms')) :
    Walked R s u (Member.listPart (m :: ms)) (Member.listPart (m' :: ms')) f tail
      (Member.listFits n first (m' :: ms')) := by
  rw [Member.listTokens, legible_append] at legible
  rw [← Member.listPart_cons, ← Member.listPart_cons]
  exact (h fits.1 legible.1).append v.toComposes (hs fits.2 legible.2)

/-- A type declaration is walked over if its members are. -/
theorem Walked.typeDeclaration (v : Visits N R visit) (hn : n ≤ N) {d : TypeDeclaration}
    {modifiers : List Modifier} {header : List TokenTree} {members : List Member} {s t u w : σ}
    (hmodifiers : (d.modifiers.mapM (Modifier.mapAnnotationsM visit)).run s = (modifiers, t))
    (hheader : (TokenTree.listMapAnnotationsM visit d.header).run t = (header, u))
    (hms : Modifier.listFits n d.modifiers (kinds d.ownTokens ++ f)) (fits : d.Fits n f)
    (legible : Legible d.tokens tail)
    (h : Member.listFits (n - 1) (d.kind = .enumeration) d.members (d.closing.kind :: f) →
      Legible (Member.listTokens d.members) (spelling [d.closing] ++ tail) →
      Walked R u w (Member.listPart d.members) (Member.listPart members) (d.closing.kind :: f)
        (spelling [d.closing] ++ tail) (Member.listFits (n - 1) (d.kind = .enumeration) members)) :
    Walked R s w d.part (TypeDeclaration.part { d with modifiers, header, members }) f tail fun g =>
      Modifier.listFits n modifiers
          (kinds (TypeDeclaration.ownTokens { d with modifiers, header, members }) ++ g) ∧
        TypeDeclaration.Fits n { d with modifiers, header, members } g ∧
        SameKinds (kinds d.ownTokens ++ f)
          (kinds (TypeDeclaration.ownTokens { d with modifiers, header, members }) ++ g) := by
  obtain ⟨hi, hname, ⟨hh, avoid⟩, ho, deep, hf, hc⟩ := TypeDeclaration.fits_iff.1 fits
  rw [TypeDeclaration.tokens_eq] at legible
  obtain ⟨lms, lown⟩ := legible_append.1 legible
  have tokens : d.ownTokens = (d.introducer.tokens ++ [d.name]) ++ (TokenTree.listTokens d.header ++
      ([d.opening] ++ (Member.listTokens d.members ++ [d.closing]))) := by
    simp [TypeDeclaration.ownTokens]
  rw [tokens] at lown
  obtain ⟨lname, lrest⟩ := legible_append.1 lown
  obtain ⟨lheader, lbody⟩ := legible_append.1 lrest
  obtain ⟨lopening, linside⟩ := legible_append.1 lbody
  obtain ⟨lmembers, lclosing⟩ := legible_append.1 linside
  -- the header is followed by the body, as the walk sees it
  have follow : d.opening.kind :: (kinds (Member.listTokens d.members) ++ d.closing.kind :: f) =
      kinds ([d.opening] ++ (Member.listTokens d.members ++ [d.closing])) ++ f := by simp
  rw [follow] at hh avoid
  have walkedHeader := TokenTree.listWalked v hn hh lheader t
  have walkedModifiers := Modifier.listWalked v hn hms lms s
  rw [hheader] at walkedHeader
  rw [hmodifiers] at walkedModifiers
  have fixed (ts : List Token) {f : List TokenKind} {tail : List Char} {s : σ} (plain : Plain ts)
      (legible : Legible ts tail) : Walked R s s (.plain ts) (.plain ts) f tail fun _ => True :=
    Walked.plain v.toComposes plain legible
  have inside := (h hf lmembers).append v.toComposes
    (fixed (f := f) [d.closing] (by simp [TokenKind.isPlain_of_eq hc rfl]) lclosing)
  have body := (fixed [d.opening] (by simp [TokenKind.isPlain_of_eq ho rfl]) lopening).append
    v.toComposes inside
  have own := (fixed (d.introducer.tokens ++ [d.name])
    (by simp [hi.plain, TokenKind.isPlain_of_isIdentifier hname]) lname).append v.toComposes
    (walkedHeader.append v.toComposes body)
  have own := own.cast d.ownPart_eq
    (TypeDeclaration.ownPart_eq { d with modifiers, header, members })
  have whole := (walkedModifiers.append v.toComposes own).cast d.part_eq
    (TypeDeclaration.part_eq { d with modifiers, header, members })
  -- the header does not go on into the body, because its trees begin alike
  refine whole.imp fun g same _ h => ?_
  obtain ⟨hmodifiers', -, ⟨hheader', alike⟩, -, hmembers', -⟩ := h
  refine ⟨hmodifiers', TypeDeclaration.fits_iff.2 ⟨hi, hname, ⟨?_, ?_⟩, ho, deep, ?_, hc⟩,
    own.sameKinds g same⟩
  · simpa [Member.listPart] using hheader'
  · simpa [Member.listPart] using alike.avoids .endsHeader avoid
  · exact hmembers'

mutual

theorem TypeDeclaration.walked (v : Visits N R visit) {n : Nat} (hn : n ≤ N) {d : TypeDeclaration}
    {f : List TokenKind} {tail : List Char} (hms : Modifier.listFits n d.modifiers (kinds d.ownTokens ++ f))
    (fits : d.Fits n f) (legible : Legible d.tokens tail) (s : σ) :
    Walked R s ((d.mapAnnotationsM visit).run s).2 d.part ((d.mapAnnotationsM visit).run s).1.part
      f tail fun g =>
        Modifier.listFits n ((d.mapAnnotationsM visit).run s).1.modifiers
          (kinds ((d.mapAnnotationsM visit).run s).1.ownTokens ++ g) ∧
        ((d.mapAnnotationsM visit).run s).1.Fits n g ∧
        SameKinds (kinds d.ownTokens ++ f)
          (kinds ((d.mapAnnotationsM visit).run s).1.ownTokens ++ g) := by
  match d, hms, fits, legible with
  | ⟨modifiers, kind, introducer, name, header, opening, members, closing⟩, hms, fits, legible =>
    simp only [TypeDeclaration.mapAnnotationsM, run_bind_state, run_pure_state]
    exact .typeDeclaration v hn rfl rfl hms fits legible fun fits legible =>
      Member.listWalked v (Nat.le_trans (Nat.sub_le n 1) hn) fits legible _

theorem Member.walked (v : Visits N R visit) {n : Nat} (hn : n ≤ N) {first : Bool} {m : Member}
    {f : List TokenKind} {tail : List Char} (fits : m.Fits n first f) (legible : Legible m.tokens tail)
    (s : σ) :
    Walked R s ((m.mapAnnotationsM visit).run s).2 m.part ((m.mapAnnotationsM visit).run s).1.part
      f tail (((m.mapAnnotationsM visit).run s).1.Fits n first) := by
  match m, fits, legible with
  | .constants trees semicolon, fits, legible =>
    simp only [Member.mapAnnotationsM, run_bind_state, run_pure_state]
    exact .constants v hn rfl fits legible
  | .empty semicolon, fits, legible =>
    simp only [Member.mapAnnotationsM, run_pure_state]
    exact .empty v fits legible
  | .block modifiers block, fits, legible =>
    simp only [Member.mapAnnotationsM, run_bind_state, run_pure_state]
    exact .block v hn rfl rfl fits legible
  | .type d, fits, legible =>
    simp only [Member.mapAnnotationsM, run_map_state]
    exact .typeMember fits (TypeDeclaration.walked v hn fits.2.1 fits.2.2.2 legible s)
  | .field modifiers trees semicolon, fits, legible =>
    simp only [Member.mapAnnotationsM, run_bind_state, run_pure_state]
    exact .field v hn rfl rfl fits legible
  | .method modifiers trees body, fits, legible =>
    simp only [Member.mapAnnotationsM, run_bind_state, run_pure_state]
    exact .method v hn rfl rfl rfl fits legible

theorem Member.listWalked (v : Visits N R visit) {n : Nat} (hn : n ≤ N) {first : Bool}
    {ms : List Member} {f : List TokenKind} {tail : List Char} (fits : Member.listFits n first ms f)
    (legible : Legible (Member.listTokens ms) tail) (s : σ) :
    Walked R s ((Member.listMapAnnotationsM visit ms).run s).2 (Member.listPart ms)
      (Member.listPart ((Member.listMapAnnotationsM visit ms).run s).1) f tail
      (Member.listFits n first ((Member.listMapAnnotationsM visit ms).run s).1) := by
  match ms, fits, legible with
  | [], fits, legible =>
    simp only [Member.listMapAnnotationsM, run_pure_state]
    exact .noMembers v
  | m :: ms, fits, legible =>
    simp only [Member.listMapAnnotationsM, run_bind_state, run_pure_state]
    exact .members v fits legible (fun fits legible => Member.walked v hn fits legible s)
      fun fits legible => Member.listWalked v hn fits legible _

end

/-! ## Whole files -/

theorem TopLevel.listWalked (v : Visits N R visit) (hn : n ≤ N) {ds : List TopLevel}
    (fits : TopLevel.listFits n ds f) (legible : Legible (ds.flatMap TopLevel.tokens) tail) (s : σ) :
    Walked R s ((ds.mapM (TopLevel.mapAnnotationsM visit)).run s).2 (TopLevel.listPart ds)
      (TopLevel.listPart ((ds.mapM (TopLevel.mapAnnotationsM visit)).run s).1) f tail
      (TopLevel.listFits n ((ds.mapM (TopLevel.mapAnnotationsM visit)).run s).1) := by
  induction ds generalizing s with
  | nil =>
    rw [List.mapM_nil]
    have stays := Walked.plain v.toComposes (s := s) (f := f) plain_nil (legible_nil tail)
    exact stays.imp fun _ _ _ _ => trivial
  | cons d ds ih =>
    rw [List.mapM_cons]
    simp only [run_bind_state, run_pure_state]
    obtain ⟨hd, hds⟩ := legible_append.1 legible
    have others := ih fits.2 hds
    cases d with
    | type d =>
      obtain ⟨⟨hms, hf⟩, -⟩ := fits
      have first := TypeDeclaration.walked v hn hms hf hd s
      have whole := first.append v.toComposes (others _)
      exact whole.imp fun g _ _ h => ⟨⟨h.1.1, h.1.2.1⟩, h.2⟩
    | empty semicolon =>
      obtain ⟨hk, -⟩ := fits
      have hk : semicolon.kind = .semicolon := hk
      have whole := (Walked.plain v.toComposes
        (show Plain [semicolon] by simp [TokenKind.isPlain_of_eq hk rfl]) hd).append v.toComposes (others s)
      exact whole.imp fun g _ _ h => ⟨hk, h.2⟩

/-- The annotations of a package are walked over as modifiers. -/
theorem PackageDeclaration.run_annotations (annotations : List Annotation) (s : σ) :
    ((annotations.map Modifier.annot).mapM (Modifier.mapAnnotationsM visit)).run s =
      (((annotations.mapM fun a : Annotation => a.mapAnnotationsM visit).run s).1.map Modifier.annot,
        ((annotations.mapM fun a : Annotation => a.mapAnnotationsM visit).run s).2) := by
  induction annotations generalizing s with
  | nil => rfl
  | cons a annotations ih =>
    rw [List.map_cons, List.mapM_cons, List.mapM_cons]
    simp only [run_bind_state, run_pure_state, Modifier.mapAnnotationsM, run_map_state, ih,
      List.map_cons]

/-- The tokens and annotations of a package declaration. -/
def PackageDeclaration.part (p : PackageDeclaration) : Part :=
  ⟨p.tokens, p.annotations.flatMap Annotation.annotations⟩

theorem PackageDeclaration.part_eq (p : PackageDeclaration) :
    Modifier.listPart (p.annotations.map Modifier.annot) ++
      .plain (p.word :: (p.name.tokens ++ [p.semicolon])) = p.part := by
  refine Part.ext ?_ ?_
  · simp [Modifier.listPart, PackageDeclaration.part, PackageDeclaration.tokens,
      Modifier.listTokens, List.flatMap_map, Modifier.tokens]
  · simp [Modifier.listPart, PackageDeclaration.part, List.flatMap_map, Modifier.annotations]

theorem PackageDeclaration.walked (v : Visits N R visit) (hn : n ≤ N) {p : PackageDeclaration}
    (fits : p.Fits n f) (legible : Legible p.tokens tail) (s : σ) :
    Walked R s ((p.mapAnnotationsM visit).run s).2 p.part ((p.mapAnnotationsM visit).run s).1.part
      f tail (((p.mapAnnotationsM visit).run s).1.Fits n) := by
  obtain ⟨hms, hword, hname, hk⟩ := fits
  have tokens : p.tokens = Modifier.listTokens (p.annotations.map Modifier.annot) ++
      p.word :: (p.name.tokens ++ [p.semicolon]) := (congrArg Part.tokens p.part_eq).symm
  rw [tokens] at legible
  obtain ⟨lms, lown⟩ := legible_append.1 legible
  have own := Walked.plain v.toComposes (s := ((p.mapAnnotationsM visit).run s).2) (f := f)
    (show Plain (p.word :: (p.name.tokens ++ [p.semicolon])) by
      simp [TokenKind.isPlain_of_eq hword rfl, hname.plain, TokenKind.isPlain_of_eq hk rfl]) lown
  have walked := Modifier.listWalked v hn hms lms s
  rw [PackageDeclaration.run_annotations] at walked
  have whole := (walked.append v.toComposes own).cast p.part_eq
    (PackageDeclaration.part_eq ((p.mapAnnotationsM visit).run s).1)
  exact whole.imp fun g _ _ h => ⟨h.1, hword, hname, hk⟩

/-- The tokens and annotations of a package declaration that may be missing. -/
def PackageDeclaration.optionPart (package? : Option PackageDeclaration) : Part :=
  (package?.map PackageDeclaration.part).getD (.plain [])

theorem PackageDeclaration.optionWalked (v : Visits N R visit) (hn : n ≤ N)
    {package? : Option PackageDeclaration} (fits : ∀ p ∈ package?, p.Fits n f)
    (legible : Legible (PackageDeclaration.optionPart package?).tokens tail) (s : σ) :
    Walked R s ((package?.mapM (PackageDeclaration.mapAnnotationsM visit)).run s).2
      (PackageDeclaration.optionPart package?)
      (PackageDeclaration.optionPart
        ((package?.mapM (PackageDeclaration.mapAnnotationsM visit)).run s).1) f tail
      fun g => ∀ p ∈ ((package?.mapM (PackageDeclaration.mapAnnotationsM visit)).run s).1,
        p.Fits n g := by
  cases package? with
  | none =>
    have stays := Walked.plain v.toComposes (s := s) (f := f) plain_nil legible
    exact stays.imp fun _ _ _ _ p hp => by cases hp
  | some p =>
    refine (PackageDeclaration.walked v hn (fits p rfl) legible s).imp fun g _ _ h q hq => ?_
    cases hq
    exact h

theorem CompilationUnit.part_eq (u : CompilationUnit) :
    (PackageDeclaration.optionPart u.package? ++
      (.plain (u.imports.flatMap ImportDeclaration.tokens) ++ TopLevel.listPart u.types)) ++
        .plain [u.eof] = u.part := by
  obtain ⟨package?, imports, types, eof⟩ := u
  cases package? <;>
    exact Part.ext (by simp [CompilationUnit.part, CompilationUnit.tokens,
        PackageDeclaration.optionPart, PackageDeclaration.part, TopLevel.listPart])
      (by simp [CompilationUnit.part, CompilationUnit.annotations, PackageDeclaration.optionPart,
        PackageDeclaration.part, TopLevel.listPart])

theorem CompilationUnit.body_eq (u : CompilationUnit) :
    u.body = (PackageDeclaration.optionPart u.package? ++
      (.plain (u.imports.flatMap ImportDeclaration.tokens) ++ TopLevel.listPart u.types)).tokens := by
  obtain ⟨package?, imports, types, eof⟩ := u
  cases package? <;> simp [CompilationUnit.body, PackageDeclaration.optionPart,
    PackageDeclaration.part, TopLevel.listPart]

/-- **Walks keep files readable** — and relate the parts of the file before and after. -/
theorem CompilationUnit.walked (v : Visits maxNesting R visit) {u : CompilationUnit}
    (h : u.Readable) (s : σ) :
    ((u.mapAnnotationsM visit).run s).1.Readable ∧
      R s u.part ((u.mapAnnotationsM visit).run s).1.part ((u.mapAnnotationsM visit).run s).2 := by
  obtain ⟨⟨hpackage, himports, htypes, heof⟩, legible, ends⟩ := h
  rw [u.body_eq] at legible
  obtain ⟨lpackage, lrest⟩ := legible_append.1 legible
  obtain ⟨limports, ltypes⟩ := legible_append.1 lrest
  have hpackage : ∀ p ∈ u.package?, p.Fits maxNesting
      (kinds (u.imports.flatMap ImportDeclaration.tokens ++ u.types.flatMap TopLevel.tokens) ++
        kinds [u.eof]) := by simpa using hpackage
  have types := TopLevel.listWalked v (Nat.le_refl _) htypes ltypes
    ((u.package?.mapM (PackageDeclaration.mapAnnotationsM visit)).run s).2
  have rest := (Walked.plain v.toComposes (Parser.imports_plain himports) limports).append
    v.toComposes types
  have whole := (PackageDeclaration.optionWalked v (Nat.le_refl _) hpackage lpackage s).append
    v.toComposes rest
  simp only [CompilationUnit.mapAnnotationsM, run_bind_state, run_pure_state]
  obtain ⟨package', -, types'⟩ := whole.fits _ (.refl _)
  refine ⟨⟨⟨?_, himports, types', heof⟩, ?_, ends⟩, ?_⟩
  · simpa [TopLevel.listPart] using package'
  · rw [CompilationUnit.body_eq]
    exact whole.legible _ (.refl _)
  · rw [← CompilationUnit.part_eq, ← CompilationUnit.part_eq]
    exact v.append whole.related (v.plain _ [u.eof])

end Declarations

end DeferFetch
