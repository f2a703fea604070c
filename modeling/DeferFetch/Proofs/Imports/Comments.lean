/-
# DeferFetch.Proofs.Imports.Comments — which comments folding loses.

A comment stands before the token that follows it, so a comment at the end of a line is above what the
next line says. Inserting imports keeps all comments. Folding a package keeps what stands above the first
of its imports and loses every other comment above or within them (`lost`), a comment that was on the
line of another import too. So a file keeps its comments just if there is nothing to lose
(`comments_applyTo`).
-/
import Mathlib.Data.List.Flatten
import DeferFetch.Proofs.Imports.Folding
import DeferFetch.Proofs.Imports.Frame

namespace DeferFetch

/-! ## Comments among other marks -/

/-- The mark is a comment. -/
def Mark.isComment : Mark → Bool
  | .comment _ _ => true
  | .token _ => false

theorem comments_append (ts us : List Token) : comments (ts ++ us) = comments ts ++ comments us :=
  List.flatMap_append

/-- All that is marked before a token is comments. -/
theorem Token.filter_comments (t : Token) : t.comments.filter Mark.isComment = t.comments := by
  refine List.filter_eq_self.2 fun mark h => ?_
  obtain ⟨x, -, rfl⟩ := List.mem_map.1 h
  rfl

theorem filter_marks (ts : List Token) : (marks ts).filter Mark.isComment = comments ts := by
  induction ts with
  | nil => rfl
  | cons t ts ih =>
    rw [marks_cons, List.filter_append, t.filter_comments,
      List.filter_cons_of_neg (by simp [Mark.isComment]), ih]
    rfl

/-- Of an old import and of a new one, all comments are kept. -/
theorem Listed.filter_kept (l : Listed) :
    l.kept.filter Mark.isComment = comments l.declaration.tokens := by
  unfold kept
  split
  · refine List.filter_eq_self.2 fun mark h => ?_
    obtain ⟨t, -, h⟩ := List.mem_flatMap.1 h
    exact List.of_mem_filter (t.filter_comments ▸ h)
  · exact filter_marks _

/-- **`importComments imports`** — the comments above and within some imports. -/
def importComments (imports : List ImportDeclaration) : List Mark :=
  imports.flatMap fun i => comments i.tokens

/-- The comments of a file are those before, in and after the imports. -/
theorem CompilationUnit.comments_tokens (u : CompilationUnit) : comments u.tokens =
    comments ((u.package?.map PackageDeclaration.tokens).getD []) ++ importComments u.imports ++
      comments (u.types.flatMap TopLevel.tokens ++ [u.eof]) := by
  simp only [CompilationUnit.tokens, List.append_assoc, comments_append]
  congr 2
  exact List.flatMap_assoc

/-- A file with more imports has the comments that it had. -/
theorem Extends.comments_eq {u v : CompilationUnit} {names : List String} {listed : List Listed}
    (h : Extends u names v listed) : comments v.tokens = comments u.tokens := by
  have kept := congrArg (List.filter Mark.isComment) h.kept
  rw [List.filter_append, List.filter_append, filter_marks, filter_marks, filter_marks,
    List.filter_flatMap] at kept
  rw [← kept, v.comments_tokens, h.imports, importComments, List.flatMap_map]
  simp only [Listed.filter_kept]

/-! ## What folding a package loses -/

section Folding

variable {imports : List ImportDeclaration} {threshold : Nat} {package other : String}

/-- **`lost imports package`** — the comments that go with the imports of the types of a package, when
one on demand takes the place of the first. -/
def lost (imports : List ImportDeclaration) (package : String) : List Mark :=
  match imports.filter (·.isSingleTypeOf package) with
  | [] => []
  | first :: others => comments first.tokens.tail ++ importComments others

/-- A name that is written out comes without comments. -/
theorem comments_ofDotted (name : String) : comments (QualifiedName.ofDotted name " ").tokens = [] := by
  have tokens : (ImportDeclaration.ofType name).tokens = .synthetic (.keyword .importWord) ::
      ((QualifiedName.ofDotted name " ").tokens ++ [.synthetic .semicolon]) := by
    simp [ImportDeclaration.tokens, ImportDeclaration.ofType]
  have whole := ImportDeclaration.comments_ofType name ""
  rw [tokens, comments, List.flatMap_cons, List.flatMap_append] at whole
  exact (List.append_eq_nil_iff.1 (List.append_eq_nil_iff.1 whole).2).1

/-- The import on demand has just the comments above the one in whose place it stands. -/
theorem comments_foldedImport (package : String) (i : ImportDeclaration) :
    comments (foldedImport package i).tokens = i.word.comments := by
  have tokens : (foldedImport package i).tokens.tail = (QualifiedName.ofDotted package " ").tokens ++
      [.synthetic .dot, .synthetic (.operator "*"), .synthetic .semicolon] := by
    simp [foldedImport, ImportDeclaration.tokens, ImportDeclaration.ofPackage, ImportDeclaration.ofType]
  have bare : comments (foldedImport package i).tokens.tail = [] := by
    rw [tokens, comments_append, comments_ofDotted]
    simp [comments, Token.comments_synthetic]
  have split : comments (foldedImport package i).tokens =
      i.word.comments ++ comments (foldedImport package i).tokens.tail := rfl
  rw [split, bare, List.append_nil]

/-- An import is of the types of one package only. -/
theorem eq_of_isSingleTypeOf {i : ImportDeclaration} (h : i.isSingleTypeOf package = true)
    (h' : i.isSingleTypeOf other = true) : other = package := by
  simp only [ImportDeclaration.isSingleTypeOf, Bool.and_eq_true, decide_eq_true_eq] at h h'
  exact Option.some.inj (h'.2.symm.trans h.2)

/-- **What folding a package does to comments** — those that are lost go, and the others stay in their
order. -/
theorem comments_foldImports (h : Foldable imports threshold package) :
    (importComments (foldImports imports package threshold)).Sublist (importComments imports) ∧
      (importComments (foldImports imports package threshold) ++ lost imports package).Perm
        (importComments imports) := by
  obtain ⟨before, i, after, rfl, skipped, hi, replaced⟩ := foldImports_of_foldable h
  let stays (j : ImportDeclaration) : Bool := !j.isSingleTypeOf package
  have folded : importComments (foldImports (before ++ i :: after) package threshold) =
      importComments before ++ (i.word.comments ++ importComments (after.filter stays)) := by
    rw [replaced, importComments, List.flatMap_append, List.flatMap_cons, comments_foldedImport]
    rfl
  have whole : importComments (before ++ i :: after) =
      importComments before ++ (i.word.comments ++
        (comments i.tokens.tail ++ importComments after)) := by
    rw [importComments, List.flatMap_append, List.flatMap_cons, ← List.append_assoc i.word.comments]
    rfl
  have gone : lost (before ++ i :: after) package =
      comments i.tokens.tail ++ importComments (after.filter (·.isSingleTypeOf package)) := by
    have none : before.filter (·.isSingleTypeOf package) = [] :=
      List.filter_eq_nil_iff.2 fun j hj => by simp [skipped j hj]
    rw [lost, List.filter_append, none, List.nil_append, List.filter_cons, if_pos hi]
  rw [folded, whole, gone]
  constructor
  · refine (List.Sublist.refl _).append ((List.Sublist.refl _).append ?_)
    have filtered : (importComments (after.filter stays)).Sublist (importComments after) :=
      List.filter_sublist.flatMap _
    exact filtered.trans (List.sublist_append_right _ _)
  · rw [List.append_assoc, List.append_assoc]
    refine List.Perm.append_left _ (List.Perm.append_left _ ?_)
    refine (List.perm_append_comm_assoc _ _ _).trans (List.Perm.append_left _ ?_)
    have both : importComments (after.filter stays) ++
        importComments (after.filter (·.isSingleTypeOf package)) =
          importComments (after.filter stays ++ after.filter (·.isSingleTypeOf package)) :=
      List.flatMap_append.symm
    rw [both]
    refine List.Perm.flatMap_right _ (List.perm_append_comm.trans ?_)
    exact List.filter_append_perm _ _

/-- Folding a package leaves the imports of types of others. -/
theorem filter_foldImports (h : Foldable imports threshold package) (hne : other ≠ package) :
    (foldImports imports package threshold).filter (·.isSingleTypeOf other) =
      imports.filter (·.isSingleTypeOf other) := by
  obtain ⟨before, i, after, rfl, skipped, hi, replaced⟩ := foldImports_of_foldable h
  have apart {j : ImportDeclaration} (hj : j.isSingleTypeOf other = true) :
      j.isSingleTypeOf package = false := by
    rw [← Bool.not_eq_true]
    exact fun h => hne (eq_of_isSingleTypeOf h hj)
  have demand : (foldedImport package i).isSingleTypeOf other = false := by
    simp [ImportDeclaration.isSingleTypeOf, foldedImport, ImportDeclaration.ofPackage,
      ImportDeclaration.isOnDemand]
  have gone : i.isSingleTypeOf other = false := by
    rw [← Bool.not_eq_true]
    exact fun h => hne (eq_of_isSingleTypeOf hi h)
  rw [replaced, List.filter_append, List.filter_append, List.filter_cons, List.filter_cons, demand, gone,
    List.filter_filter]
  congr 1
  refine List.filter_congr fun j _ => ?_
  cases hj : j.isSingleTypeOf other with
  | false => rfl
  | true => rw [apart hj]; rfl

theorem lost_foldImports (h : Foldable imports threshold package) (hne : other ≠ package) :
    lost (foldImports imports package threshold) other = lost imports other := by
  rw [lost, lost, filter_foldImports h hne]

/-- **What folding several packages does to comments** — what is lost of those that can be folded goes,
and the other comments stay in their order. -/
theorem comments_foldl_foldImports {packages : List String} (nodup : packages.Nodup) :
    let folded := packages.foldl (foldImports · · threshold) imports
    (importComments folded).Sublist (importComments imports) ∧
      (importComments folded ++
        (packages.filter (Foldable imports threshold ·)).flatMap (lost imports)).Perm
          (importComments imports) := by
  induction packages generalizing imports with
  | nil => exact ⟨.refl _, by simp⟩
  | cons package packages ih =>
    rw [List.nodup_cons] at nodup
    by_cases h : Foldable imports threshold package
    · -- the packages after it are folded as if this one were not
      have later {other : String} (hmem : other ∈ packages) : other ≠ package := by
        rintro rfl
        exact nodup.1 hmem
      let left := foldImports imports package threshold
      obtain ⟨kept, gone⟩ := comments_foldImports h
      obtain ⟨kept', gone'⟩ := @ih left nodup.2
      have same : (packages.filter (Foldable left threshold ·)).flatMap (lost left) =
          (packages.filter (Foldable imports threshold ·)).flatMap (lost imports) := by
        rw [List.filter_congr fun other hmem =>
          decide_eq_decide.2 (foldable_foldImports h (later hmem))]
        refine List.flatMap_congr fun other hmem => ?_
        exact lost_foldImports h (later (List.mem_of_mem_filter hmem))
      rw [same] at gone'
      refine ⟨kept'.trans kept, ?_⟩
      rw [List.filter_cons_of_pos (by simpa using h), List.flatMap_cons]
      refine (List.Perm.append_left _ List.perm_append_comm).trans ?_
      rw [← List.append_assoc]
      exact (gone'.append_right _).trans gone
    · rw [List.filter_cons_of_neg (by simpa using h), List.foldl_cons, foldImports_of_not_foldable h]
      exact ih nodup.2

end Folding

/-! ## Plans -/

/-- **Which comments a plan keeps** — inserting its imports keeps all comments of a file. Folding keeps
all but those that are lost of the packages that are folded, in their order; so it keeps all of them
just if nothing of these packages is lost. -/
theorem ImportPlan.comments_applyTo (plan : ImportPlan) (unit : CompilationUnit) (threshold : Nat) :
    let inserted := plan.applyTo unit none
    let folded := plan.applyTo unit (some threshold)
    comments inserted.tokens = comments unit.tokens ∧
      (comments folded.tokens).Sublist (comments unit.tokens) ∧
      (comments folded.tokens = comments unit.tokens ↔
        ∀ package, plan.Folds unit threshold package → lost inserted.imports package = []) := by
  intro inserted folded
  obtain ⟨listed, grown⟩ := (Extends.start unit).insertImports plan.addedTypes
  have all : comments inserted.tokens = comments unit.tokens := grown.comments_eq
  let gone := (plan.addedPackages.filter (Foldable inserted.imports threshold ·)).flatMap
    (lost inserted.imports)
  obtain ⟨kept, perm⟩ : (importComments folded.imports).Sublist (importComments inserted.imports) ∧
      (importComments folded.imports ++ gone).Perm (importComments inserted.imports) :=
    comments_foldl_foldImports (nodup_eraseDups _)
  -- only the imports differ
  have before : comments folded.tokens =
      comments ((inserted.package?.map PackageDeclaration.tokens).getD []) ++
        importComments folded.imports ++
        comments (inserted.types.flatMap TopLevel.tokens ++ [inserted.eof]) := folded.comments_tokens
  have after := inserted.comments_tokens
  refine ⟨all, ?_, ?_⟩
  · rw [← all, before, after]
    exact ((List.Sublist.refl _).append kept).append (.refl _)
  · rw [← all, before, after, List.append_left_inj, List.append_right_inj]
    have count := perm.length_eq
    rw [List.length_append] at count
    have nothing : gone = [] ↔
        ∀ package, plan.Folds unit threshold package → lost inserted.imports package = [] := by
      simp only [gone, List.flatMap_eq_nil_iff, List.mem_filter, decide_eq_true_eq, ImportPlan.Folds,
        inserted]
    rw [← nothing]
    constructor
    · intro same
      rw [same] at count
      exact List.length_eq_zero_iff.1 (by omega)
    · intro none
      rw [none, List.length_nil] at count
      exact kept.eq_of_length count

/-- **Folding can lose a comment on another import** — the comment on the line of `b.B` stands before
the second import of the package that is folded. -/
theorem ImportPlan.folding_loses_comment :
    ((parseUnit "import a.X;\nimport b.B; // kept\nimport a.Y;\nclass A \x7b\x7d\n").toExcept.toOption.map
      fun unit =>
        let plan := ["a.Z"].foldl register (ofUnit unit)
        let folded := plan.applyTo unit (some 2)
        (folded.imports.map ImportDeclaration.importedName, comments unit.tokens,
          comments folded.tokens)) =
    some (["a", "b.B"], [.comment .lineComment "// kept"], []) := by
  decide +kernel

end DeferFetch
