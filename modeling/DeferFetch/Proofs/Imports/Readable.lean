/-
# DeferFetch.Proofs.Imports.Readable — files stay readable when their imports change.

Packages and imports end in a semicolon, and a semicolon is read before anything. So imports can be
inserted and folded without a token around them being read in another way, and the file that results
is readable if the old one was. Of its annotations, at most the blanks before the first one change.
-/
import DeferFetch.Proofs.Laziness.Replacement
import DeferFetch.Proofs.Naming.Visible
import DeferFetch.Proofs.Imports.Folding

namespace DeferFetch

/-! ## Packages -/

/-- Nothing looks past the word that begins a package declaration. -/
theorem Interchangeable.of_packageWord (f g : List TokenKind) :
    Interchangeable (.keyword .packageWord :: f) (.keyword .packageWord :: g) := by
  -- a test sees two kinds at most: both before the word, or the word as one of them
  refine ⟨fun ks => ?_, fun ks => ?_, fun ks => ?_, fun ks => ?_, fun ks => ?_, fun ks => ?_⟩
  · rcases ks with _ | ⟨x, _ | ⟨y, ks⟩⟩
    · rfl
    · cases x <;> rfl
    · cases x <;> first | rfl | (cases y <;> rfl)
  · rcases ks with _ | ⟨x, _ | ⟨y, ks⟩⟩
    · rfl
    · cases x <;> rfl
    · cases x <;> first | rfl | (cases y <;> rfl)
  · rcases ks with _ | ⟨x, _ | ⟨y, ks⟩⟩
    · rfl
    · cases x <;> rfl
    · cases x <;> first | rfl | (cases y <;> rfl)
  · rcases ks with _ | ⟨x, ks⟩
    · rfl
    · cases x with
      | opening delimiter => cases delimiter <;> rfl
      | _ => rfl
  · cases ks <;> rfl
  · cases ks <;> rfl

/-- What comes after a package declaration does not matter to it. -/
theorem PackageDeclaration.Fits.after {n : Nat} {p : PackageDeclaration} {f : List TokenKind}
    (h : p.Fits n f) (g : List TokenKind) : p.Fits n g := by
  obtain ⟨⟨annotations, -⟩, word, name, semicolon⟩ := h
  have alike (ks : List TokenKind) : Interchangeable (p.word.kind :: (ks ++ f)) (p.word.kind :: (ks ++ g)) := by
    rw [word]
    exact .of_packageWord _ _
  refine ⟨⟨?_, ?_⟩, word, name, semicolon⟩
  · revert annotations
    induction p.annotations with
    | nil => exact fun _ => trivial
    | cons a as ih =>
      rintro ⟨⟨sign, fits⟩, others⟩
      have same := (alike (kinds (p.name.tokens ++ [p.semicolon]))).append
        (kinds ((as.map Modifier.annot).flatMap Modifier.tokens))
      exact ⟨⟨(same.annotations _).symm.trans sign, fits.after same⟩, ih others⟩
  · rw [word]
    rfl

/-! ## Imports -/

namespace ImportDeclaration

/-- **`i.Clear`** — the import is made of the right tokens, and they stand alone. -/
structure Clear (i : ImportDeclaration) : Prop where
  fits : i.Fits
  standalone : Standalone i.tokens

/-- The tokens of an import before the semicolon. -/
def front (i : ImportDeclaration) : List Token :=
  i.word :: (i.static?.toList ++ i.name.tokens ++ wildcardTokens i.wildcard?)

theorem Fits.clear {i : ImportDeclaration} {tail : List Char} (fits : i.Fits)
    (legible : Legible i.tokens tail) : i.Clear := by
  have plain : Plain (i.front ++ [i.semicolon]) := Parser.ImportDeclaration.Fits.plain fits
  have legible : Legible (i.front ++ [i.semicolon]) tail := legible
  have valid := (plain_append.1 plain).1.valid
  exact ⟨fits, Standalone.of_separator (c := ';') rfl (by decide) valid fits.2.2.2.2 legible⟩

/-- Imports that are legible one after the other stand alone. -/
theorem clear_of_legible {is : List ImportDeclaration} {tail : List Char} (fits : ∀ i ∈ is, i.Fits)
    (legible : Legible (is.flatMap tokens) tail) : ∀ i ∈ is, i.Clear := by
  induction is with
  | nil => exact fun i hi => absurd hi List.not_mem_nil
  | cons i is ih =>
    obtain ⟨hi, his⟩ := List.forall_mem_cons.1 fits
    obtain ⟨first, others⟩ := legible_append.1 legible
    exact List.forall_mem_cons.2 ⟨hi.clear first, ih his others⟩

/-- An import may stand after other blanks and comments. -/
theorem Clear.withTrivia {i : ImportDeclaration} (h : i.Clear) {trivia : List Trivia}
    (gap : Gap (triviaText trivia).toList) :
    ({ i with word := { i.word with trivia } } : ImportDeclaration).Clear :=
  ⟨h.fits, fun tail => ⟨gap, (h.standalone tail).2⟩⟩

theorem Clear.gap {i : ImportDeclaration} (h : i.Clear) : Gap (triviaText i.word.trivia).toList :=
  (h.standalone []).1

variable {name leading : String}

/-- The word that begins an import is read before a blank. -/
theorem importWord_readsBefore (rest : List Char) :
    (TokenKind.keyword .importWord).ReadsBefore (' ' :: rest) := by
  refine ⟨'i', ['m', 'p', 'o', 'r', 't'], rfl, ?_⟩
  have start : isIdentifierStart 'i' = true := by decide +kernel
  have parts : ∀ d ∈ ['m', 'p', 'o', 'r', 't'], isIdentifierPart d = true := by
    have : ['m', 'p', 'o', 'r', 't'].all isIdentifierPart = true := by decide +kernel
    exact List.all_eq_true.1 this
  have blank : isIdentifierPart ' ' = false := by decide +kernel
  have stop : EndsWord (' ' :: rest) := .of_cons blank
  have word : wordKind "import" = .keyword .importWord := rfl
  rw [scan_word start parts stop]
  exact congrArg LexemeKind.token word

/-- The import of a type that is written out is clear. -/
theorem clear_ofType (gap : Gap leading.toList) (hname : IsName name) :
    (ofType name leading).Clear := by
  have tokens : (ofType name leading).tokens =
      .synthetic (.keyword .importWord) leading ::
        (spelled " " (nameKinds (parts name)) ++ [.synthetic .semicolon]) := by
    simp [ImportDeclaration.tokens, ofType, tokens_ofDotted]
  refine ⟨⟨rfl, fun _ h => absurd h (Option.not_mem_none _), fits_ofDotted name " " rfl,
    fun _ h => absurd h (Option.not_mem_none _), rfl⟩, fun tail => ?_⟩
  rw [tokens]
  refine ⟨by simpa using gap, ?_, legible_append.2 ⟨legible_name gap_blank hname ?_, ?_⟩⟩
  · rw [spelling_append, spelling_name]
    exact importWord_readsBefore _
  · exact EndsWord.of_cons (by decide)
  · exact ⟨by simpa using gap_nil, separator_readsBefore (c := ';') rfl _, legible_nil tail⟩

/-- A dot and a star are read before a semicolon. -/
theorem legible_wildcard (tail : List Char) :
    Legible [.synthetic .dot, .synthetic (.operator "*"), .synthetic .semicolon] tail := by
  have gap {k : TokenKind} : Gap (Token.synthetic k).leadingText.toList := by simpa using gap_nil
  refine ⟨gap, ⟨'.', [], rfl, ?_⟩, gap, ⟨'*', [], rfl, ?_⟩, gap,
    separator_readsBefore (c := ';') rfl _, legible_nil tail⟩
  · show (scan '.' ('*' :: ';' :: tail)).kind = _
    rfl
  · show (scan '*' (';' :: tail)).kind = _
    rfl

/-- The import on demand of a package that is written out is clear. -/
theorem clear_ofPackage (gap : Gap leading.toList) (hname : IsName name) :
    (ofPackage name leading).Clear := by
  have tokens : (ofPackage name leading).tokens =
      .synthetic (.keyword .importWord) leading :: (spelled " " (nameKinds (parts name)) ++
        [.synthetic .dot, .synthetic (.operator "*"), .synthetic .semicolon]) := by
    simp [ImportDeclaration.tokens, ofPackage, ofType, tokens_ofDotted]
  refine ⟨⟨rfl, fun _ h => absurd h (Option.not_mem_none _), fits_ofDotted name " " rfl, ?_, rfl⟩,
    fun tail => ?_⟩
  · intro w hw
    obtain rfl := Option.some.inj hw
    exact ⟨rfl, rfl⟩
  · rw [tokens]
    refine ⟨by simpa using gap, ?_, legible_append.2 ⟨legible_name gap_blank hname ?_,
      legible_wildcard tail⟩⟩
    · rw [spelling_append, spelling_name]
      exact importWord_readsBefore _
    · exact EndsWord.of_cons (by decide)

end ImportDeclaration

/-! ## The parts of a readable file -/

theorem Gap.prepend_lines {xs : List Char} (h : Gap xs) : Gap ("\n\n".toList ++ xs) :=
  h.blanks_append (show ∀ b ∈ ['\n', '\n'], isJavaBlank b = true by simp [isJavaBlank])

theorem gap_empty : Gap "".toList := by simpa using gap_nil

theorem gap_line : Gap "\n".toList :=
  Gap.blanks_append (show ∀ b ∈ ['\n'], isJavaBlank b = true by simp [isJavaBlank]) gap_nil

theorem EndGap.prepend_lines {xs : List Char} (h : EndGap xs) : EndGap ("\n\n".toList ++ xs) := by
  have blanks : ∀ b ∈ ['\n', '\n'], isJavaBlank b = true := by simp [isJavaBlank]
  show ∀ l ∈ lexemes (['\n', '\n'] ++ xs), l.isTrivia = true
  rw [lexemes_blanks_append (List.cons_ne_nil _ _) blanks]
  refine List.forall_mem_cons.2 ⟨rfl, fun l hl => ?_⟩
  cases xs with
  | nil => exact absurd hl (by simp [lexemes])
  | cons x xs =>
    by_cases hx : isJavaBlank x = true
    · rw [List.dropWhile_cons_of_pos hx] at hl
      exact h l (lexemes_blank hx xs ▸ List.mem_cons_of_mem _ hl)
    · rw [List.dropWhile_cons_of_neg hx] at hl
      exact h l hl

namespace CompilationUnit

variable {u : CompilationUnit}

/-- **What makes a file readable** — its package and its imports stand alone, and its types are
legible up to its end. -/
theorem readable_iff : u.Readable ↔
    (∀ p ∈ u.package?, p.Fits maxNesting [] ∧ Standalone p.tokens) ∧
      (∀ i ∈ u.imports, i.Clear) ∧ TopLevel.listFits maxNesting u.types [.eof] ∧
      Legible (u.types.flatMap TopLevel.tokens) u.eof.leadingText.toList ∧
      EndGap u.eof.leadingText.toList ∧ u.eof.kind = .eof := by
  constructor
  · rintro ⟨⟨hp, hi, ht, he⟩, legible, ends⟩
    obtain ⟨front, types⟩ := legible_append.1 legible
    obtain ⟨package, imports⟩ := legible_append.1 front
    rw [kinds_cons, he] at ht
    refine ⟨fun p hpackage => ⟨(hp p hpackage).after [], ?_⟩,
      ImportDeclaration.clear_of_legible hi imports, ht, types, ends, he⟩
    obtain ⟨hms, word, name, semicolon⟩ := hp p hpackage
    have split : p.tokens =
        (p.annotations.flatMap Annotation.tokens ++ p.word :: p.name.tokens) ++ [p.semicolon] := by
      simp [PackageDeclaration.tokens]
    have plain : Plain p.tokens := by
      rw [Parser.packageDeclaration_tokens]
      exact plain_append.2 ⟨hms.plain, Parser.packageTokens_plain word name semicolon⟩
    rw [Option.mem_def.1 hpackage, Option.map_some, Option.getD_some] at package
    rw [split] at plain package ⊢
    exact .of_separator (c := ';') rfl (by decide) (plain_append.1 plain).1.valid semicolon package
  · rintro ⟨package, imports, types, legible, ends, eof⟩
    refine ⟨⟨fun p hp => (package p hp).1.after _, fun i hi => (imports i hi).fits, ?_, eof⟩,
      legible_append.2 ⟨legible_append.2 ⟨?_, ?_⟩, legible⟩, ends⟩
    · rw [kinds_cons, eof]
      exact types
    · cases hp : u.package? with
      | none => exact legible_nil _
      | some p => exact (package p hp).2 _
    · exact Standalone.flatMap (fun i hi => (imports i hi).standalone) _

/-- A readable file stays so with other imports. -/
theorem Readable.withImports (h : u.Readable) {imports : List ImportDeclaration}
    (clear : ∀ i ∈ imports, i.Clear) : ({ u with imports } : CompilationUnit).Readable := by
  obtain ⟨package, -, rest⟩ := readable_iff.1 h
  exact readable_iff.2 ⟨package, clear, rest⟩

end CompilationUnit

/-! ## The first token after the imports -/

section First

variable {f g : Token → Token}

theorem Modifier.mapTokens_mapFirst (hg : ∀ t, g (f t) = g t) (m : Modifier) :
    (m.mapFirst f).mapTokens g = m.mapTokens g := by
  cases m with
  | keyword t => exact congrArg Modifier.keyword (hg t)
  | contextual words =>
    simp only [Modifier.mapFirst, Modifier.mapTokens, Words.mapTokens, hg]
  | annot a =>
    show Modifier.annot ((a.withSigil (f a.sigil)).mapTokens g) = .annot (a.mapTokens g)
    rw [a.mapTokens_withSigil, hg, ← a.mapTokens_sigil g, Annotation.withSigil_sigil]

/-- Up to its first token, the declaration is the same. -/
theorem TypeDeclaration.mapTokens_mapFirst (hg : ∀ t, g (f t) = g t) (d : TypeDeclaration) :
    (d.mapFirst f).mapTokens g = d.mapTokens g := by
  obtain ⟨modifiers, _, _, _, _, _, _, _⟩ := d
  cases modifiers <;>
    simp only [TypeDeclaration.mapFirst, TypeDeclaration.mapTokens, Words.mapTokens, List.map_cons,
      Modifier.mapTokens_mapFirst hg, hg]

theorem Modifier.exists_mapFirst (f : Token → Token) (m : Modifier) :
    ∃ t ts, m.tokens = t :: ts ∧ (m.mapFirst f).tokens = f t :: ts := by
  cases m with
  | keyword t => exact ⟨t, [], rfl, rfl⟩
  | contextual words => exact ⟨words.first, words.others, rfl, rfl⟩
  | annot a =>
    obtain ⟨ts, tokens⟩ := a.tokens_eq_cons
    refine ⟨a.sigil, ts, tokens, ?_⟩
    have := a.tokens_withSigil (f a.sigil)
    rwa [tokens] at this

/-- Only the first token changes. -/
theorem TypeDeclaration.exists_mapFirst (f : Token → Token) (d : TypeDeclaration) :
    ∃ t ts, d.tokens = t :: ts ∧ (d.mapFirst f).tokens = f t :: ts := by
  obtain ⟨modifiers, kind, introducer, name, header, opening, members, closing⟩ := d
  cases modifiers with
  | nil => exact ⟨introducer.first, _, rfl, rfl⟩
  | cons m ms =>
    obtain ⟨t, ts, old, new⟩ := m.exists_mapFirst f
    let own (ms : List Modifier) : List Token :=
      TypeDeclaration.ownTokens ⟨ms, kind, introducer, name, header, opening, members, closing⟩
    refine ⟨t, ts ++ (Modifier.listTokens ms ++ own ms), ?_, ?_⟩
    · rw [TypeDeclaration.tokens_eq, Modifier.listTokens, List.flatMap_cons, old]
      simp [own, Modifier.listTokens, TypeDeclaration.ownTokens]
    · rw [TypeDeclaration.tokens_eq, TypeDeclaration.mapFirst, Modifier.listTokens,
        List.flatMap_cons, new]
      simp [own, Modifier.listTokens, TypeDeclaration.ownTokens]

end First

/-! ## Annotations apart from what stands before them -/

/-- **`a.core`** — the annotation without its place: the kinds of its tokens and, but for the at
sign, what stands before them. -/
def Annotation.core (a : Annotation) : Annotation :=
  (a.withSigil (.synthetic .at)).mapTokens Token.bare

/-- Annotations that are the same up to where their tokens stand have the same core. -/
theorem Annotation.core_congr {a b : Annotation}
    (h : a.mapTokens Token.bare = b.mapTokens Token.bare) : a.core = b.core := by
  rw [core, core, Annotation.mapTokens_withSigil, h, Annotation.mapTokens_withSigil]

theorem Modifier.cores_mapFirst (f : Token → Token) (m : Modifier) :
    (m.mapFirst f).annotations.map Annotation.core = m.annotations.map Annotation.core := by
  cases m with
  | keyword t => rfl
  | contextual words => rfl
  | annot a =>
    -- the annotations within the arguments stay, and the annotation itself gets another sign
    obtain ⟨sigil, name, _ | ⟨opening, arguments, commas, closing⟩⟩ := a
    · rfl
    · simp only [Modifier.mapFirst, Modifier.annotations, Annotation.annotations, List.map_append,
        List.map_cons, List.map_nil]
      rfl

theorem TypeDeclaration.cores_mapFirst (f : Token → Token) (d : TypeDeclaration) :
    (d.mapFirst f).allAnnotations.map Annotation.core = d.allAnnotations.map Annotation.core := by
  obtain ⟨modifiers, _, _, _, _, _, _, _⟩ := d
  cases modifiers with
  | nil => rfl
  | cons m ms =>
    simp only [TypeDeclaration.mapFirst, TypeDeclaration.allAnnotations, List.flatMap_cons,
      List.map_append, Modifier.cores_mapFirst]

/-! ## Inserting imports -/

namespace CompilationUnit

variable {u : CompilationUnit}

theorem clear_insertBefore {imports : List ImportDeclaration} (h : ∀ i ∈ imports, i.Clear)
    (index : Nat) {name : String} (hname : IsName name) :
    ∀ i ∈ insertBefore imports index name, i.Clear := by
  have fresh : (ImportDeclaration.ofType name).Clear := ImportDeclaration.clear_ofType gap_empty hname
  unfold insertBefore
  split
  · exact List.forall_mem_append.2 ⟨h, List.forall_mem_singleton.2 fresh⟩
  · rename_i displaced after behind
    have mem (i : ImportDeclaration) (hi : i ∈ displaced :: after) : i.Clear :=
      h i (List.mem_of_mem_drop (behind ▸ hi))
    have taken := mem displaced List.mem_cons_self
    refine List.forall_mem_append.2 ⟨fun i hi => h i (List.mem_of_mem_take hi),
      List.forall_mem_cons.2 ⟨fresh.withTrivia taken.gap, List.forall_mem_cons.2 ⟨?_, ?_⟩⟩⟩
    · exact taken.withTrivia (by simpa [triviaText, blankTrivia] using gap_line)
    · exact fun i hi => mem i (List.mem_cons_of_mem _ hi)

theorem clear_insertAmong {imports : List ImportDeclaration} (h : ∀ i ∈ imports, i.Clear)
    {name : String} (hname : IsName name) : ∀ i ∈ insertAmong imports name, i.Clear := by
  unfold insertAmong
  split
  · exact clear_insertBefore h _ hname
  · refine List.forall_mem_append.2 ⟨fun i hi => h i (List.mem_of_mem_take hi),
      List.forall_mem_cons.2 ⟨ImportDeclaration.clear_ofType gap_line hname, ?_⟩⟩
    exact fun i hi => h i (List.mem_of_mem_drop hi)

/-- A file stays readable with an empty line before the first token after its imports. -/
theorem Readable.mapFirstAfterImports (h : u.Readable) :
    (u.mapFirstAfterImports (.prependTrivia (blankTrivia "\n\n"))).Readable := by
  let f : Token → Token := .prependTrivia (blankTrivia "\n\n")
  have leading (t : Token) : (f t).leadingText.toList = "\n\n".toList ++ t.leadingText.toList := by
    simp [f, Token.prependTrivia, Token.leadingText, blankTrivia]
  have first {t : Token} {ts : List Token} {tail : List Char} (h : Legible (t :: ts) tail) :
      Legible (f t :: ts) tail := ⟨by rw [leading]; exact h.1.prepend_lines, h.2⟩
  obtain ⟨package, imports, types, legible, ends, eof⟩ := readable_iff.1 h
  unfold CompilationUnit.mapFirstAfterImports
  -- the empty line goes before the first type, or before the end of a file without types
  split
  · rename_i d ds same
    rw [same] at types legible
    obtain ⟨t, ts, old, new⟩ := d.exists_mapFirst f
    refine readable_iff.2 ⟨package, imports, ⟨?_, types.2⟩, ?_, ends, eof⟩
    · have fits := types.1
      rw [← TopLevel.fits_mapTokens Token.kind_stripped] at fits ⊢
      have same := d.mapTokens_mapFirst (f := f) (g := Token.stripped) fun _ => rfl
      rw [TopLevel.mapTokens, same]
      exact fits
    · rw [List.flatMap_cons, TopLevel.tokens, old] at legible
      rw [List.flatMap_cons, TopLevel.tokens, new]
      exact first legible
  · rename_i t ds same
    rw [same] at types legible
    exact readable_iff.2 ⟨package, imports, types, first legible, ends, eof⟩
  · rename_i same
    refine readable_iff.2 ⟨package, imports, types, ?_, ?_, eof⟩
    · show Legible (u.types.flatMap TopLevel.tokens) _
      rw [same]
      exact legible_nil _
    · show EndGap (f u.eof).leadingText.toList
      rw [leading]
      exact ends.prepend_lines

/-- **Inserting an import keeps files readable.** -/
theorem Readable.insertImport (h : u.Readable) {name : String} (hname : IsName name) :
    (u.insertImport name).Readable := by
  unfold CompilationUnit.insertImport
  obtain ⟨-, imports, -⟩ := readable_iff.1 h
  split
  · exact h.withImports (clear_insertAmong imports hname)
  · split
    · have gap : Gap "\n\n".toList := by simpa using gap_nil.prepend_lines
      exact h.withImports (List.forall_mem_singleton.2 (ImportDeclaration.clear_ofType gap hname))
    · exact h.mapFirstAfterImports.withImports
        (List.forall_mem_singleton.2 (ImportDeclaration.clear_ofType gap_empty hname))

/-- Inserting an import leaves the annotations as they are, up to what stands before them. -/
theorem cores_insertImport (u : CompilationUnit) (name : String) :
    (u.insertImport name).annotations.map Annotation.core = u.annotations.map Annotation.core := by
  unfold CompilationUnit.insertImport
  split
  · rfl
  · split
    · rfl
    · unfold CompilationUnit.mapFirstAfterImports
      split
      · rename_i d ds same
        simp only [annotations, same, List.flatMap_cons, TopLevel.annotations, List.map_append,
          TypeDeclaration.cores_mapFirst]
      · rename_i t ds same
        simp only [annotations, same, List.flatMap_cons, TopLevel.annotations]
      · rfl

end CompilationUnit

/-! ## Folding imports -/

/-- Folding the imports of a package keeps imports clear. -/
theorem clear_foldImports {imports : List ImportDeclaration} (h : ∀ i ∈ imports, i.Clear)
    {package : String} (hname : IsName package) (threshold : Nat) :
    ∀ i ∈ foldImports imports package threshold, i.Clear := by
  have folded {i : ImportDeclaration} (hi : i.Clear) : (foldedImport package i).Clear :=
    (ImportDeclaration.clear_ofPackage gap_empty hname).withTrivia hi.gap
  have replaced (is : List ImportDeclaration) (h : ∀ i ∈ is, i.Clear) :
      ∀ i ∈ replaceFirst (·.isSingleTypeOf package) (foldedImport package) is, i.Clear := by
    induction is with
    | nil => exact h
    | cons i is ih =>
      obtain ⟨hi, his⟩ := List.forall_mem_cons.1 h
      unfold replaceFirst
      split
      · exact List.forall_mem_cons.2 ⟨folded hi, fun j hj => his j (List.mem_filter.1 hj).1⟩
      · exact List.forall_mem_cons.2 ⟨hi, ih his⟩
  unfold foldImports
  simp only
  split
  · exact h
  · split
    · exact h
    · exact replaced imports h

/-! ## Carrying out a plan -/

namespace ImportPlan

variable {plan : ImportPlan} {unit : CompilationUnit}

/-- **Plans keep files readable** — with or without folding. -/
theorem readable_applyTo (h : unit.Readable) (types : ∀ name ∈ plan.addedTypes, IsName name)
    (packages : ∀ name ∈ plan.addedPackages, IsName name) (fold? : Option Nat) :
    (plan.applyTo unit fold?).Readable := by
  have extended (names : List String) (hnames : ∀ name ∈ names, IsName name) :
      (names.foldl CompilationUnit.insertImport unit).Readable := by
    induction names generalizing unit with
    | nil => exact h
    | cons name names ih =>
      obtain ⟨hname, hnames⟩ := List.forall_mem_cons.1 hnames
      exact ih (h.insertImport hname) hnames
  have folded (threshold : Nat) (names : List String) (hnames : ∀ name ∈ names, IsName name)
      {imports : List ImportDeclaration} (clear : ∀ i ∈ imports, i.Clear) :
      ∀ i ∈ names.foldl (foldImports · · threshold) imports, i.Clear := by
    induction names generalizing imports with
    | nil => exact clear
    | cons name names ih =>
      obtain ⟨hname, hnames⟩ := List.forall_mem_cons.1 hnames
      exact ih hnames (clear_foldImports clear hname threshold)
  have whole := extended plan.addedTypes types
  unfold applyTo
  split
  · exact whole
  · rename_i threshold
    obtain ⟨-, clear, -⟩ := CompilationUnit.readable_iff.1 whole
    exact whole.withImports (folded threshold plan.addedPackages packages clear)

/-- Carrying out a plan leaves the annotations as they are, up to what stands before them. -/
theorem cores_applyTo (plan : ImportPlan) (unit : CompilationUnit) (fold? : Option Nat) :
    (plan.applyTo unit fold?).annotations.map Annotation.core =
      unit.annotations.map Annotation.core := by
  have inserted := CompilationUnit.foldl_insertImport (·.annotations.map Annotation.core)
    CompilationUnit.cores_insertImport plan.addedTypes unit
  unfold applyTo
  split <;> exact inserted

end ImportPlan

end DeferFetch
