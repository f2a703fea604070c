/-
# DeferFetch.Proofs.Grammar.Bodies — any balanced body is accepted.

The parser reads the body of a method as trees, whatever words and operators it is made of: if its
brackets nest, and no deeper than the budget that is left, it is the body of that method
(`parse_methodBody`). The trees are found along the brackets, those of a group up to its closing bracket
first. Annotations are left out here: they have a grammar of their own.
-/
import DeferFetch.Proofs.Grammar.Balance

namespace DeferFetch

/-! ## Trees from brackets -/

/-- **`Inert ts`** — none of the tokens is an at sign, stands for a lexical error or ends the text. -/
def Inert (ts : List Token) : Prop :=
  ∀ t ∈ ts, t.kind ≠ .at ∧ t.kind.isError = false ∧ t.kind ≠ .eof

/-- **`Groups n ts trees`** — the trees have just those tokens and fit the budget `n` before anything. -/
structure Groups (n : Nat) (ts : List Token) (trees : List TokenTree) : Prop where
  tokens : TokenTree.listTokens trees = ts
  fits : ∀ f, TokenTree.listFits n trees f

namespace Groups

variable {n : Nat} {ts us : List Token} {trees : List TokenTree} {t : Token}

protected theorem nil : Groups n [] [] := ⟨rfl, fun _ => trivial⟩

/-- A token that is no bracket is a tree of its own. -/
theorem token (kind : t.kind.isBracket = false)
    (inert : t.kind ≠ .at ∧ t.kind.isError = false ∧ t.kind ≠ .eof) (h : Groups n ts trees) :
    Groups n (t :: ts) (.token t :: trees) where
  tokens := congrArg (t :: ·) h.tokens
  fits f := by
    obtain ⟨sign, valid, inner⟩ := inert
    rw [TokenKind.isBracket, Bool.or_eq_false_iff] at kind
    exact ⟨⟨kind.1, Parser.atAnnotation_of_ne sign _, inner, kind.2, valid⟩, h.fits f⟩

/-- Trees between brackets that match are a group, if the budget allows for one. -/
theorem group {d : Delimiter} {opening closing : Token} {inner : List TokenTree}
    (within : Groups (n - 1) us inner) (room : 0 < n) (opens : opening.kind = .opening d)
    (closes : closing.kind = .closing d) (h : Groups n ts trees) :
    Groups n (opening :: (us ++ closing :: ts)) (.group ⟨d, opening, inner, closing⟩ :: trees) where
  tokens := by simp [TokenTree.listTokens, TokenTree.tokens, within.tokens, h.tokens]
  fits f := ⟨⟨room, opens, within.fits _, closes⟩, h.fits f⟩

end Groups

/-- **`Closes limit opened ts`** — what is left after some trees, where the brackets `opened` are open:
the closing bracket of the innermost one and tokens in which the others nest. -/
def Closes (limit : Nat) : List Delimiter → List Token → Prop
  | [], ts => ts = []
  | d :: opened, ts =>
    ∃ closing more, ts = closing :: more ∧ closing.kind = .closing d ∧
      nests limit opened (kinds more) = true

/-- **Groups are found along the brackets** — where brackets are open, tokens that nest begin with
trees up to the bracket that closes the innermost one. -/
theorem exists_groups {limit : Nat} {opened : List Delimiter} {ts : List Token} (inert : Inert ts)
    (balanced : nests limit opened (kinds ts) = true) :
    ∃ front back trees, ts = front ++ back ∧ Groups (limit - opened.length) front trees ∧
      Closes limit opened back := by
  match ts with
  | [] =>
    cases opened with
    | nil => exact ⟨[], [], [], rfl, .nil, rfl⟩
    | cons d opened => cases balanced
  | t :: ts =>
    obtain ⟨here, later⟩ := List.forall_mem_cons.1 inert
    rw [kinds_cons] at balanced
    cases kind : t.kind with
    | opening d =>
      rw [kind, nests, Bool.and_eq_true, decide_eq_true_eq] at balanced
      obtain ⟨room, balanced⟩ := balanced
      -- first the trees up to the bracket that closes this one, then those after it
      obtain ⟨inner, _, trees, split, within, closing, more, rfl, closes, balanced⟩ :=
        exists_groups later balanced
      have shorter : more.length < ts.length := by
        rw [split, List.length_append, List.length_cons]
        omega
      have later : Inert more := fun u hu => later u (by simp [split, hu])
      obtain ⟨front, back, others, rfl, after, left⟩ := exists_groups later balanced
      have level : limit - (d :: opened).length = limit - opened.length - 1 := by
        rw [List.length_cons]
        omega
      rw [level] at within
      have whole := within.group (by omega) kind closes after
      exact ⟨_, back, _, by simp [split], whole, left⟩
    | closing e =>
      rw [kind] at balanced
      cases opened with
      | nil => cases balanced
      | cons d opened =>
        rw [nests, Bool.and_eq_true, decide_eq_true_eq] at balanced
        obtain ⟨rfl, balanced⟩ := balanced
        exact ⟨[], t :: ts, [], rfl, .nil, t, ts, rfl, kind, balanced⟩
    | _ =>
      have plain : t.kind.isBracket = false := by
        rw [kind]
        rfl
      rw [nests_cons plain] at balanced
      obtain ⟨front, back, trees, rfl, after, left⟩ := exists_groups later balanced
      exact ⟨t :: front, back, _, rfl, after.token plain here, left⟩
termination_by ts.length
decreasing_by all_goals (simp only [List.length_cons]; omega)

/-! ## A class with one method -/

/-- The word that stands for no result. -/
def Keyword.voidWord : Keyword := ⟨"void", by decide⟩

/-- A word that is no modifier begins none. -/
theorem startsModifier_keyword {w : Keyword} (h : w.isModifier = false) (ks : List TokenKind) :
    startsModifier (.keyword w :: ks) = false := by
  simp [startsModifier, atAnnotation, TokenKind.isModifierKeyword, atSealed, atNonSealed, h]

/-- **`MethodFrame`** — the tokens of `class A { void f() { } }` around the body of the method, and the
one that ends the text; the names may be any. -/
structure MethodFrame where
  classWord : Token
  className : Token
  opening : Token
  voidWord : Token
  methodName : Token
  leftParen : Token
  rightParen : Token
  bodyOpening : Token
  bodyClosing : Token
  closing : Token
  eof : Token
  isClass : classWord.kind = .keyword .classWord
  className_isIdentifier : className.kind.isIdentifier = true
  opens : opening.kind = .opening .brace
  isVoid : voidWord.kind = .keyword .voidWord
  methodName_isIdentifier : methodName.kind.isIdentifier = true
  opensParameters : leftParen.kind = .opening .paren
  closesParameters : rightParen.kind = .closing .paren
  opensBody : bodyOpening.kind = .opening .brace
  closesBody : bodyClosing.kind = .closing .brace
  closes : closing.kind = .closing .brace
  ends : eof.kind = .eof

namespace MethodFrame

attribute [simp] isClass opens isVoid opensParameters closesParameters opensBody closesBody closes ends

variable (frame : MethodFrame) (body : List Token) (trees : List TokenTree)

/-- All tokens before the body. -/
def before : List Token :=
  [frame.classWord, frame.className, frame.opening, frame.voidWord, frame.methodName,
   frame.leftParen, frame.rightParen, frame.bodyOpening]

/-- All tokens after the body. -/
def after : List Token := [frame.bodyClosing, frame.closing, frame.eof]

/-- **`frame.around body`** — the whole file, with the tokens of the body in their place. -/
def around : List Token := frame.before ++ body ++ frame.after

/-- What stands before the body of the method: no result, a name and no parameters. -/
def signature : List TokenTree :=
  [.token frame.voidWord, .token frame.methodName,
   .group ⟨.paren, frame.leftParen, [], frame.rightParen⟩]

/-- The method, with the trees of its body. -/
def method : Member :=
  .method [] frame.signature (.block ⟨.brace, frame.bodyOpening, trees, frame.bodyClosing⟩)

/-- The class, which has just that method. -/
def declaration : TypeDeclaration where
  modifiers := []
  kind := .class
  introducer := ⟨frame.classWord, []⟩
  name := frame.className
  header := []
  opening := frame.opening
  members := [frame.method trees]
  closing := frame.closing

/-- **`frame.unit trees`** — the file, which has just that class. -/
def unit : CompilationUnit := ⟨none, [], [.type (frame.declaration trees)], frame.eof⟩

variable {body trees}

/-- The tokens of the file are those of the frame around those of the trees. -/
theorem tokens_unit : (frame.unit trees).tokens = frame.around (TokenTree.listTokens trees) := by
  simp [unit, CompilationUnit.tokens, TopLevel.tokens, declaration, TypeDeclaration.tokens,
    Modifier.listTokens, Words.tokens, TokenTree.listTokens, Member.listTokens, method, Member.tokens,
    signature, TokenTree.tokens, MethodBody.tokens, Group.tokens, around, before, after]

/-! ## The frame fits -/

/-- The kinds of the tokens of the signature. -/
theorem kinds_signature : kinds (TokenTree.listTokens frame.signature) =
    [.keyword .voidWord, frame.methodName.kind, .opening .paren, .closing .paren] := by
  simp [signature, TokenTree.listTokens, TokenTree.tokens]

/-- The signature is read tree by tree. -/
theorem signature_fits (n : Nat) (f : List TokenKind) : memberChain (n + 1) {} frame.signature f := by
  have name := TokenKind.eq_identifier_text frame.methodName_isIdentifier
  generalize frame.methodName.kind.text = text at name
  -- none of its tokens ends the member, whatever the method is called
  simp [memberChain, signature, Parser.chain, TokenTree.tokens, TokenTree.listTokens, endsMember, atKind,
    name, TokenTree.Fits, TokenTree.listFits, TokenKind.isOpening, TokenKind.opens?,
    TokenKind.isClosing, TokenKind.isError, atAnnotation]

/-- The signature shows parameters, and neither an equals sign nor a default. -/
theorem foldl_signature : frame.signature.foldl Parser.MemberHead.after {} = ⟨true, false, false⟩ := by
  have name := TokenKind.eq_identifier_text frame.methodName_isIdentifier
  generalize frame.methodName.kind.text = text at name
  have plain : (TokenKind.keyword Keyword.voidWord = .keyword .defaultWord) = False := by decide
  simp [signature, Parser.MemberHead.after, TokenTree.tokens, TokenTree.listTokens, atKind, name, plain,
    Parser.isParenthesized]

variable {n : Nat}

/-- The method fits if there is a level more than its body needs. -/
theorem method_fits (groups : Groups n body trees) (f : List TokenKind) :
    (frame.method trees).Fits (n + 1) false f := by
  have block : Group.Fits (n + 1) ⟨.brace, frame.bodyOpening, trees, frame.bodyClosing⟩ f :=
    Group.fits_iff.2 ⟨Nat.succ_pos n, frame.opensBody, groups.fits _, frame.closesBody⟩
  refine ⟨rfl, ?_, ⟨trivial, ?_⟩, ?_, ?_, frame.signature_fits n _, ?_⟩
  · simp [kinds_signature, Modifier.listTokens, atKind]
  · rw [kinds_append, kinds_signature]
    exact startsModifier_keyword (by decide) _
  · simp [kinds_signature, atKind]
  · rw [kinds_append, kinds_signature]
    rfl
  · rw [foldl_signature]
    exact ⟨rfl, rfl, rfl, rfl, block⟩

/-- The class fits if there are two levels more than the body needs. -/
theorem declaration_fits (groups : Groups n body trees) (f : List TokenKind) :
    (frame.declaration trees).Fits (n + 2) f :=
  ⟨frame.isClass, frame.className_isIdentifier, ⟨trivial, trivial⟩, frame.opens, Nat.succ_pos _,
    ⟨frame.method_fits groups _, trivial⟩, frame.closes⟩

/-- So does the file that has just the class. -/
theorem unit_fits (groups : Groups n body trees) : (frame.unit trees).Fits (n + 2) where
  package := by simp [unit]
  imports := by simp [unit]
  types := by
    refine ⟨⟨⟨trivial, ?_⟩, frame.declaration_fits groups _⟩, trivial⟩
    have begins : kinds (frame.declaration trees).ownTokens =
        .keyword .classWord :: kinds (frame.declaration trees).ownTokens.tail := by
      rw [← frame.isClass]
      rfl
    rw [begins]
    exact startsModifier_keyword (by decide) _
  eof := frame.ends

/-- Around the body, two braces are open. -/
theorem nests_around (limit : Nat) : nests (limit + 2) [] (kinds (frame.around body)) =
    nests (limit + 2) [.brace, .brace] (kinds body ++ [.closing .brace, .closing .brace, .eof]) := by
  have method := TokenKind.eq_identifier_text frame.methodName_isIdentifier
  have className := TokenKind.eq_identifier_text frame.className_isIdentifier
  generalize frame.methodName.kind.text = text at method
  generalize frame.className.kind.text = text' at className
  simp [around, before, after, className, method, nests]

/-- Only the last token ends the text. -/
theorem ne_eof (inert : Inert body) :
    ∀ t ∈ frame.before ++ body ++ [frame.bodyClosing, frame.closing], t.kind ≠ .eof := by
  have name {t : Token} (h : t.kind.isIdentifier = true) : t.kind ≠ .eof := by
    intro ends
    rw [ends] at h
    cases h
  have around : ∀ t ∈ frame.before ++ [frame.bodyClosing, frame.closing], t.kind ≠ .eof := by
    simp [before, name frame.className_isIdentifier, name frame.methodName_isIdentifier]
  simp only [List.mem_append] at around ⊢
  rintro t ((outer | inner) | outer)
  · exact around t (.inl outer)
  · exact (inert t inner).2.2
  · exact around t (.inr outer)

end MethodFrame

/-! ## Accepting a body -/

/-- Tokens that nest by themselves nest as deep within brackets as the limit leaves room for. -/
theorem nests_of_within {limit m : Nat} {opened : List Delimiter} {ks rest : List TokenKind}
    (outer : List Delimiter) (balanced : nests limit opened ks = true)
    (within : nests m (opened ++ outer) (ks ++ rest) = true) :
    nests (m - outer.length) opened ks = true := by
  fun_induction nests limit opened ks with
  | case1 opened => exact balanced
  | case2 opened d ks ih =>
    rw [Bool.and_eq_true, decide_eq_true_eq] at balanced
    rw [List.cons_append, nests, Bool.and_eq_true, decide_eq_true_eq, List.length_append] at within
    rw [nests, Bool.and_eq_true, decide_eq_true_eq]
    exact ⟨by omega, ih balanced.2 within.2⟩
  | case3 => cases balanced
  | case4 d opened e ks ih =>
    rw [Bool.and_eq_true] at balanced
    rw [List.cons_append, List.cons_append, nests, Bool.and_eq_true] at within
    rw [nests, Bool.and_eq_true]
    exact ⟨balanced.1, ih balanced.2 within.2⟩
  | case5 opened k ks notOpening notLast notInner ih =>
    have plain : k.isBracket = false := by
      cases k with
      | opening d => exact (notOpening d rfl).elim
      | closing e =>
        cases opened with
        | nil => exact (notLast e rfl rfl).elim
        | cons d opened => exact (notInner d opened e rfl rfl).elim
      | _ => rfl
    rw [List.cons_append, nests_cons plain] at within
    rw [nests_cons plain]
    exact ih balanced within

/-- Tokens of which nothing is reported nest, no deeper than the parser goes. -/
theorem nests_of_parse {ts : List Token} {e : Token} (inner : ∀ t ∈ ts, t.kind ≠ .eof)
    (ends : e.kind = .eof) (clean : (Parser.compilationUnit.parse (ts ++ [e])).diagnostics = []) :
    nests maxNesting [] (kinds (ts ++ [e])) = true := by
  obtain ⟨r⟩ := Parser.exists_fileRun { rest := ts ++ [e] }
  rw [Parser.parse, r.run_eq] at clean
  have takes := Parser.takes_of_run r.run_eq clean
  apply Nested.nests
  rcases Parser.compilationUnit_cases takes rfl inner ends with
    ⟨same, fits⟩ | ⟨ms, fits, -, same, -⟩
  · rw [show ts ++ [e] = _ from same]
    exact fits.nested
  · have eof : e.kind.isBracket = false := by rw [ends]; rfl
    rw [show ts ++ [e] = _ from same, kinds_append]
    exact fits.nested.append (.cons eof .nil)

variable (frame : MethodFrame) {body : List Token} {limit : Nat}

/-- **Any balanced body is accepted** — a body whose brackets nest no more than 62 deep is read as the
body of its method, and nothing is reported, whatever other tokens there are; of one that nests deeper
something is reported. -/
theorem parse_methodBody (inert : Inert body) (balanced : nests limit [] (kinds body) = true) :
    (nests 62 [] (kinds body) = true → ∃ trees, TokenTree.listTokens trees = body ∧
      Parser.compilationUnit.parse (frame.around body) = ⟨some (frame.unit trees), []⟩) ∧
    ((Parser.compilationUnit.parse (frame.around body)).diagnostics = [] →
      nests 62 [] (kinds body) = true) := by
  constructor
  · intro shallow
    obtain ⟨front, back, trees, split, groups, left⟩ := exists_groups inert shallow
    -- no bracket is open outside the body, so the trees reach to its end
    obtain rfl : back = [] := left
    rw [List.append_nil] at split
    subst split
    have tokens : frame.around body = (frame.unit trees).tokens := by
      rw [frame.tokens_unit, groups.tokens]
    have read : Parser.compilationUnit.Takes { rest := frame.around body } (frame.unit trees) [] :=
      Parser.compilationUnit_complete (frame.unit_fits groups) tokens
    refine ⟨trees, groups.tokens, ?_⟩
    rw [Parser.parse, show Parser.run _ _ = _ from read]
    rfl
  · intro clean
    have split : frame.around body =
        frame.before ++ body ++ [frame.bodyClosing, frame.closing] ++ [frame.eof] := by
      simp [MethodFrame.around, MethodFrame.after]
    have whole : nests (62 + 2) [] (kinds (frame.around body)) = true := by
      rw [split] at clean ⊢
      exact nests_of_parse (frame.ne_eof inert) frame.ends clean
    rw [frame.nests_around] at whole
    exact nests_of_within [.brace, .brace] balanced whole

/-- **`MethodFrame.bare`** — the tokens of `class A { void f() { } }` themselves. -/
def MethodFrame.bare : MethodFrame where
  classWord := .synthetic (.keyword .classWord)
  className := .synthetic (.identifier "A")
  opening := .synthetic (.opening .brace)
  voidWord := .synthetic (.keyword .voidWord)
  methodName := .synthetic (.identifier "f")
  leftParen := .synthetic (.opening .paren)
  rightParen := .synthetic (.closing .paren)
  bodyOpening := .synthetic (.opening .brace)
  bodyClosing := .synthetic (.closing .brace)
  closing := .synthetic (.closing .brace)
  eof := .synthetic .eof
  isClass := rfl
  className_isIdentifier := rfl
  opens := rfl
  isVoid := rfl
  methodName_isIdentifier := rfl
  opensParameters := rfl
  closesParameters := rfl
  opensBody := rfl
  closesBody := rfl
  closes := rfl
  ends := rfl

/-- Words that mean something outside of a body, `n` parentheses deep. -/
def parenthesized (n : Nat) : List Token :=
  List.replicate n (.synthetic (.opening .paren)) ++
    [.synthetic (.keyword .classWord), .synthetic (.keyword .defaultWord), .synthetic .equals,
      .synthetic .semicolon] ++
    List.replicate n (.synthetic (.closing .paren))

/-- At the limit the body is accepted, and past it something is reported. -/
theorem parse_parenthesized :
    (Inert (parenthesized 62) ∧ ∃ trees, TokenTree.listTokens trees = parenthesized 62 ∧
      Parser.compilationUnit.parse (MethodFrame.bare.around (parenthesized 62)) =
        ⟨some (MethodFrame.bare.unit trees), []⟩) ∧
    Inert (parenthesized 63) ∧ nests 63 [] (kinds (parenthesized 63)) = true ∧
      (Parser.compilationUnit.parse (MethodFrame.bare.around (parenthesized 63))).diagnostics ≠ [] := by
  have inert : ∀ n ∈ [62, 63], Inert (parenthesized n) := by
    unfold Inert
    decide +kernel
  have atLimit : nests 62 [] (kinds (parenthesized 62)) = true := by decide +kernel
  have past : nests 63 [] (kinds (parenthesized 63)) = true := by decide +kernel
  have tooDeep : nests 62 [] (kinds (parenthesized 63)) ≠ true := by decide +kernel
  have accepted := (parse_methodBody .bare (inert 62 (by decide)) atLimit).1 atLimit
  have reported := (parse_methodBody .bare (inert 63 (by decide)) past).2
  exact ⟨⟨inert 62 (by decide), accepted⟩, inert 63 (by decide), past,
    fun clean => tooDeep (reported clean)⟩

end DeferFetch
