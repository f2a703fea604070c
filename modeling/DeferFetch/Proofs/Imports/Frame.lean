/-
# DeferFetch.Proofs.Imports.Frame — what inserting imports leaves in place.

New imports come between the old ones, and nothing else moves: the old imports keep their order and
their tokens, and if the tokens of the new imports are left out, the comments and tokens of the file are
those that it had, in their order (`Extends`). One insertion does so (`Extends.insertImport`), so a plan
does (`applyTo_extends`). What comes out is readable, so it parses, and as a file with the same package,
the same imports and the same types (`applyTo_frame`).
-/
import Mathlib.Data.List.Basic
import DeferFetch.Proofs.Imports.Readable

namespace DeferFetch

/-! ## Texts without their blanks -/

/-- **`Mark`** — what stands in a text besides blanks: a comment or a token. -/
inductive Mark where
  | comment (kind : TriviaKind) (text : String)
  | token (kind : TokenKind)
deriving DecidableEq, Repr

/-- The comments before a token. -/
def Token.comments (t : Token) : List Mark :=
  (t.trivia.filter Trivia.isComment).map fun x => .comment x.kind x.text

/-- **`marks ts`** — the comments and the tokens, in order. -/
def marks (ts : List Token) : List Mark := ts.flatMap fun t => t.comments ++ [.token t.kind]

/-- **`comments ts`** — the comments before the tokens. -/
def comments (ts : List Token) : List Mark := ts.flatMap Token.comments

theorem marks_cons (t : Token) (ts : List Token) :
    marks (t :: ts) = t.comments ++ .token t.kind :: marks ts := by
  simp [marks]

theorem marks_append (ts us : List Token) : marks (ts ++ us) = marks ts ++ marks us :=
  List.flatMap_append

theorem Token.comments_synthetic (k : TokenKind) (leading : String) :
    (Token.synthetic k leading).comments = [] := by
  unfold Token.synthetic Token.comments
  split <;> simp [Trivia.isComment]

/-- A blank before a token is no comment. -/
theorem Token.comments_prependTrivia (t : Token) (blank : String) :
    (t.prependTrivia (blankTrivia blank)).comments = t.comments := by
  simp [Token.prependTrivia, Token.comments, blankTrivia, Trivia.isComment]

namespace ImportDeclaration

/-- **`i.core`** — the import without what stands before it. -/
def core (i : ImportDeclaration) : ImportDeclaration := { i with word := { i.word with trivia := [] } }

theorem core_ofType (name leading : String) : (ofType name leading).core = (ofType name).core := rfl

/-- An import that is written out comes without comments. -/
theorem comments_ofType (name leading : String) : comments (ofType name leading).tokens = [] := by
  have synthetic (leading : String) (ks : List TokenKind) : comments (spelled leading ks) = [] := by
    cases ks with
    | nil => rfl
    | cons k ks =>
      simp [comments, spelled, Token.comments_synthetic]
  have tokens : (ofType name leading).tokens =
      .synthetic (.keyword .importWord) leading ::
        (spelled " " (nameKinds (parts name)) ++ [.synthetic .semicolon]) := by
    simp [ImportDeclaration.tokens, ofType, tokens_ofDotted]
  have name := synthetic " " (nameKinds (parts name))
  unfold comments at name ⊢
  rw [tokens, List.flatMap_cons, List.flatMap_append, name, List.flatMap_singleton,
    Token.comments_synthetic, Token.comments_synthetic]
  rfl

end ImportDeclaration

/-! ## Lists of imports, old and new -/

/-- **`Listed`** — an import in a list of them, and whether it was inserted. -/
structure Listed where
  declaration : ImportDeclaration
  isNew : Bool

namespace Listed

/-- What of the import was in the file before: of a new one, the comments that it took over. -/
def kept (l : Listed) : List Mark :=
  if l.isNew then comments l.declaration.tokens else marks l.declaration.tokens

/-- The import without what stands before it. -/
def key (l : Listed) : ImportDeclaration × Bool := (l.declaration.core, l.isNew)

end Listed

/-- **`Lists imports names listed`** — the list holds the old imports in their order, up to what stands
before them, and one new import for each name; without the tokens of the new ones, it has the same
comments and tokens. -/
structure Lists (imports : List ImportDeclaration) (names : List String) (listed : List Listed) :
    Prop where
  old : (listed.filter (!·.isNew)).map (·.declaration.core) = imports.map ImportDeclaration.core
  new : ((listed.filter (·.isNew)).map (·.declaration.core)).Perm
    (names.map fun name => (ImportDeclaration.ofType name).core)
  kept : listed.flatMap Listed.kept = marks (imports.flatMap ImportDeclaration.tokens)

namespace Lists

variable {imports : List ImportDeclaration} {names : List String} {listed before after after' : List Listed}
  {name : String} {fresh : ImportDeclaration}

theorem start (imports : List ImportDeclaration) : Lists imports [] (imports.map (⟨·, false⟩)) where
  old := by
    rw [List.filter_eq_self.2 (by simp), List.map_map]
    rfl
  new := by simp [List.filter_map, Function.comp_def]
  kept := by simp [List.flatMap_map, Listed.kept, marks, List.flatMap_assoc]

/-- Imports with the same keys are old and new in the same places. -/
theorem filter_congr (same : after'.map Listed.key = after.map Listed.key) (p : Bool → Bool) :
    (after'.filter fun l => p l.isNew).map (·.declaration.core) =
      (after.filter fun l => p l.isNew).map (·.declaration.core) := by
  have view (ls : List Listed) : (ls.filter fun l => p l.isNew).map (·.declaration.core) =
      ((ls.map Listed.key).filter fun x => p x.2).map Prod.fst := by
    simp [List.filter_map, Listed.key, Function.comp_def]
  rw [view, view, same]

/-- **Inserting** — an import may come in anywhere, with the comments that the imports after it lose. -/
theorem insert (h : Lists imports names (before ++ after))
    (core : fresh.core = (ImportDeclaration.ofType name).core)
    (same : after'.map Listed.key = after.map Listed.key)
    (kept : comments fresh.tokens ++ after'.flatMap Listed.kept = after.flatMap Listed.kept) :
    Lists imports (names ++ [name]) (before ++ ⟨fresh, true⟩ :: after') := by
  refine ⟨?_, ?_, ?_⟩
  · rw [← h.old, List.filter_append, List.filter_append, List.map_append, List.map_append,
      ← filter_congr same (! ·)]
    rfl
  · have order := h.new
    rw [List.filter_append, List.map_append] at order ⊢
    rw [List.filter_cons_of_pos rfl, List.map_cons, filter_congr same (·), core, List.map_append]
    exact List.perm_middle.trans ((order.cons _).trans (List.perm_append_singleton _ _).symm)
  · rw [← h.kept, List.flatMap_append, List.flatMap_append, List.flatMap_cons, ← kept]
    rfl

/-- An import that is written out comes in anywhere. -/
theorem insertFresh (h : Lists imports names (before ++ after)) (name leading : String) :
    Lists imports (names ++ [name]) (before ++ ⟨.ofType name leading, true⟩ :: after) :=
  h.insert (ImportDeclaration.core_ofType name leading) rfl
    (by rw [ImportDeclaration.comments_ofType, List.nil_append])

/-- An import comes in before another one, and takes over the comments above that. -/
theorem insertBefore (h : Lists imports names listed) (index : Nat) (name : String) :
    ∃ listed', DeferFetch.insertBefore (listed.map Listed.declaration) index name =
      listed'.map Listed.declaration ∧ Lists imports (names ++ [name]) listed' := by
  have whole := List.take_append_drop index listed
  unfold DeferFetch.insertBefore
  rw [← List.map_drop]
  -- at the end there is no import whose comments it could take over
  cases behind : listed.drop index with
  | nil =>
    rw [behind] at whole
    rw [← whole] at h
    refine ⟨listed ++ [⟨.ofType name, true⟩], by simp, ?_⟩
    rw [← whole, List.append_nil]
    exact h.insertFresh name ""
  | cons l after =>
    rw [behind] at whole
    rw [← whole] at h
    obtain ⟨displaced, isNew⟩ := l
    let fresh : ImportDeclaration :=
      { ImportDeclaration.ofType name with
        word := { (ImportDeclaration.ofType name).word with trivia := displaced.word.trivia } }
    let moved : ImportDeclaration :=
      { displaced with word := { displaced.word with trivia := [blankTrivia "\n"] } }
    refine ⟨listed.take index ++ ⟨fresh, true⟩ :: ⟨moved, isNew⟩ :: after, ?_, h.insert rfl rfl ?_⟩
    · simp [List.map_take, fresh, moved]
    · -- the comments above go over, and nothing else of the imports changes
      have bare : comments (ImportDeclaration.ofType name).tokens.tail = [] :=
        (List.append_eq_nil_iff.1 (ImportDeclaration.comments_ofType name "")).2
      have taken : comments fresh.tokens = displaced.word.comments := by
        show displaced.word.comments ++ comments (ImportDeclaration.ofType name).tokens.tail = _
        rw [bare, List.append_nil]
      have left : displaced.word.comments ++ Listed.kept ⟨moved, isNew⟩ =
          Listed.kept ⟨displaced, isNew⟩ := by
        have blank : moved.word.comments = [] := rfl
        cases isNew with
        | true =>
          show _ ++ (moved.word.comments ++ comments displaced.tokens.tail) = _
          rw [blank]
          rfl
        | false =>
          show _ ++ marks (moved.word :: displaced.tokens.tail) =
            marks (displaced.word :: displaced.tokens.tail)
          rw [marks_cons, marks_cons, blank]
          rfl
      rw [taken, List.flatMap_cons, List.flatMap_cons, ← List.append_assoc, left]

/-- An import comes to its place among others. -/
theorem insertAmong (h : Lists imports names listed) (name : String) :
    ∃ listed', DeferFetch.insertAmong (listed.map Listed.declaration) name =
      listed'.map Listed.declaration ∧ Lists imports (names ++ [name]) listed' := by
  unfold DeferFetch.insertAmong
  split
  · exact h.insertBefore _ name
  · rename_i index _
    rw [← List.take_append_drop (index + 1) listed] at h
    refine ⟨_, ?_, h.insertFresh name "\n"⟩
    simp [insertAt, List.map_take, List.map_drop]

end Lists

/-! ## Whole files -/

/-- **`Extends u names v listed`** — the file `v` is `u` with an import for each name: besides the
imports, which are those of the list, only blanks before its first declaration may have changed. -/
structure Extends (u : CompilationUnit) (names : List String) (v : CompilationUnit)
    (listed : List Listed) : Prop where
  imports : v.imports = listed.map Listed.declaration
  lists : Lists u.imports names listed
  package : v.package? = u.package?
  types : marks (v.types.flatMap TopLevel.tokens ++ [v.eof]) =
    marks (u.types.flatMap TopLevel.tokens ++ [u.eof])

/-- A blank before the first token after the imports changes no comment and no token. -/
theorem CompilationUnit.marks_mapFirstAfterImports (u : CompilationUnit) (blank : String) :
    let v := u.mapFirstAfterImports (.prependTrivia (blankTrivia blank))
    marks (v.types.flatMap TopLevel.tokens ++ [v.eof]) =
      marks (u.types.flatMap TopLevel.tokens ++ [u.eof]) := by
  have first (t : Token) (ts : List Token) :
      marks (t.prependTrivia (blankTrivia blank) :: ts) = marks (t :: ts) := by
    rw [marks_cons, marks_cons, t.comments_prependTrivia]
    rfl
  obtain ⟨package?, imports, types, eof⟩ := u
  cases types with
  | nil => exact first eof []
  | cons d ds =>
    cases d with
    | type d =>
      obtain ⟨t, ts, old, new⟩ := d.exists_mapFirst (.prependTrivia (blankTrivia blank))
      simp only [CompilationUnit.mapFirstAfterImports, List.flatMap_cons, TopLevel.tokens, old, new,
        List.cons_append, first]
    | empty t => exact first t (ds.flatMap TopLevel.tokens ++ [eof])

namespace Extends

variable {u v : CompilationUnit} {names : List String} {listed : List Listed}

theorem start (u : CompilationUnit) : Extends u [] u (u.imports.map (⟨·, false⟩)) where
  imports := by
    rw [List.map_map]
    exact (List.map_id _).symm
  lists := .start u.imports
  package := rfl
  types := rfl

/-- **One import more** — inserting an import extends the file by it. -/
theorem insertImport (h : Extends u names v listed) (name : String) :
    ∃ listed', Extends u (names ++ [name]) (v.insertImport name) listed' := by
  obtain ⟨imports, lists, package, types⟩ := h
  unfold CompilationUnit.insertImport
  split
  · obtain ⟨listed', new, lists⟩ := lists.insertAmong name
    exact ⟨listed', by rw [← new, ← imports], lists, package, types⟩
  · rename_i empty
    -- there is no import yet, so the list is empty
    have none : listed = [] := by
      rw [Bool.not_eq_true, Bool.not_eq_false', List.isEmpty_iff, imports, List.map_eq_nil_iff] at empty
      exact empty
    rw [none] at lists
    have one (leading : String) : Lists u.imports (names ++ [name]) [⟨.ofType name leading, true⟩] :=
      Lists.insertFresh (show Lists u.imports names ([] ++ []) from lists) name leading
    split
    · exact ⟨_, rfl, one "\n\n", package, types⟩
    · refine ⟨_, rfl, one "", ?_, (v.marks_mapFirstAfterImports "\n\n").trans types⟩
      rw [← package]
      unfold CompilationUnit.mapFirstAfterImports
      split <;> rfl

/-- **Several imports more** — inserting imports one after the other extends the file by all of them. -/
theorem insertImports (h : Extends u names v listed) (more : List String) :
    ∃ listed', Extends u (names ++ more) (more.foldl CompilationUnit.insertImport v) listed' := by
  induction more generalizing names v listed with
  | nil => exact ⟨listed, by rwa [List.append_nil]⟩
  | cons name more ih =>
    obtain ⟨listed', step⟩ := h.insertImport name
    obtain ⟨listed'', run⟩ := ih step
    exact ⟨listed'', by rwa [List.append_assoc] at run⟩

/-- Without the tokens of the new imports, the file has the comments and tokens that it had. -/
theorem kept (h : Extends u names v listed) :
    marks ((v.package?.map PackageDeclaration.tokens).getD []) ++ listed.flatMap Listed.kept ++
      marks (v.types.flatMap TopLevel.tokens ++ [v.eof]) = marks u.tokens := by
  rw [h.package, h.lists.kept, h.types, ← marks_append, ← marks_append]
  simp [CompilationUnit.tokens]

/-- There is one import more for each name. -/
theorem length_imports (h : Extends u names v listed) :
    v.imports.length = u.imports.length + names.length := by
  have old := congrArg List.length h.lists.old
  have new := h.lists.new.length_eq
  have parts : listed.length =
      (listed.filter (·.isNew)).length + (listed.filter (!·.isNew)).length :=
    List.length_eq_length_filter_add _
  simp only [List.length_map] at old new
  rw [h.imports, List.length_map, parts, old, new, Nat.add_comm]

end Extends

/-! ## Plans -/

namespace ImportPlan

/-- Only registered types are added. -/
theorem mem_addedTypes_registerAll {plan : ImportPlan} {names : List String} {type : String}
    (h : type ∈ (names.foldl register plan).addedTypes) : type ∈ plan.addedTypes ∨ type ∈ names := by
  induction names generalizing plan with
  | nil => exact .inl h
  | cons name names ih =>
    rcases ih h with added | later
    · unfold register at added
      split at added
      · rw [addedTypes, List.map_append, List.mem_append, List.map_singleton, List.mem_singleton] at added
        refine added.imp_right fun same => ?_
        rw [same]
        exact List.mem_cons_self
      · exact .inl added
    · exact .inr (List.mem_cons_of_mem _ later)

/-- The package of a type that is named by identifiers is named by identifiers. -/
theorem isName_of_qualifierOf {name package : String} (hname : IsName name)
    (h : qualifierOf name = some package) : IsName package := by
  rcases isSimple_or_append_dot name with simple | ⟨a, x, simple, rfl⟩
  · rw [qualifierOf, splitQualified_of_isSimple simple] at h
    cases h
  · rw [qualifierOf, splitQualified_append_dot a simple] at h
    obtain rfl := Option.some.inj h
    intro part hpart
    refine hname part ?_
    rw [parts_append_dot]
    exact List.mem_append_left _ hpart

variable {source : String} {file : Option String} {u : CompilationUnit} {names : List String}

/-- **Importing types keeps the rest of the file** — from a file that parses without errors, register
types by names made of identifiers. Then as many imports are inserted as types are added, one for each
of them; the old imports keep their order and their tokens, and without the tokens of the new ones the
file has the comments and tokens that it had, in their order. And its text parses without errors, to a
file with the same package, the imports that were written and the same types. -/
theorem applyTo_frame (parsed : (parseUnit source file).toExcept = .ok u)
    (named : ∀ name ∈ names, IsName name) :
    let plan := names.foldl register (.ofUnit u)
    let v := plan.applyTo u none
    plan.insertions = plan.addedTypes.length ∧
      v.imports.length = u.imports.length + plan.insertions ∧
      (∃ listed : List Listed, v.imports = listed.map Listed.declaration ∧
        Lists u.imports plan.addedTypes listed ∧
        marks ((v.package?.map PackageDeclaration.tokens).getD []) ++ listed.flatMap Listed.kept ++
          marks (v.types.flatMap TopLevel.tokens ++ [v.eof]) = marks u.tokens) ∧
      ∃ w, (parseUnit v.source file).toExcept = .ok w ∧
        w.package?.map (PackageDeclaration.mapTokens Token.bare) =
          u.package?.map (PackageDeclaration.mapTokens Token.bare) ∧
        w.imports.map (ImportDeclaration.mapTokens Token.bare) =
          v.imports.map (ImportDeclaration.mapTokens Token.bare) ∧
        w.typeEntries = u.typeEntries := by
  intro plan v
  have types : ∀ type ∈ plan.addedTypes, IsName type := by
    intro type htype
    rcases mem_addedTypes_registerAll htype with start | registered
    · cases start
    · exact named type registered
  have packages : ∀ package ∈ plan.addedPackages, IsName package := by
    intro package hpackage
    obtain ⟨type, htype, qualifier⟩ := List.mem_filterMap.1 (List.mem_eraseDups.1 hpackage)
    exact isName_of_qualifierOf (types type htype) qualifier
  obtain ⟨listed, whole⟩ := (Extends.start u).insertImports plan.addedTypes
  rw [List.nil_append] at whole
  have whole : Extends u plan.addedTypes v listed := whole
  have count : plan.insertions = plan.addedTypes.length := (List.length_map _).symm
  refine ⟨count, by rw [whole.length_imports, count], ⟨listed, whole.imports, whole.lists,
    whole.kept⟩, ?_⟩
  -- the file with its imports can be read again, as what it is
  obtain ⟨w, again, same⟩ :=
    (readable_applyTo (parseUnit_readable parsed).1 types packages none).exists_parse file
  have visible : w.visible = v.visible := CompilationUnit.visible_congr same
  have declared := CompilationUnit.foldl_insertImport CompilationUnit.typeEntries
    (fun u name => by
      rw [CompilationUnit.typeEntries, u.packageName_insertImport, u.declarations_insertImport]
      rfl) plan.addedTypes u
  refine ⟨w, again, ?_, congrArg CompilationUnit.imports same,
    (congrArg Visible.types visible).trans declared⟩
  rw [← whole.package]
  exact congrArg CompilationUnit.package? same

/-- Two of three types are added to a file that has imports of all sorts, with a comment above one. -/
theorem applyTo_frame_commented :
    let source :=
      "package p;\nimport static a.b.C.d;\n// set\nimport java.util.Set; import java.io.*;\nclass A \x7b\x7d"
    ∃ u, (parseUnit source).toExcept = .ok u ∧
      (∀ name ∈ ["java.util.Map", "java.io.File", "a.b.C"], IsName name) ∧
      let plan := ["java.util.Map", "java.io.File", "a.b.C"].foldl register (.ofUnit u)
      plan.addedTypes = ["java.util.Map", "a.b.C"] ∧
        (plan.applyTo u none).imports.length = u.imports.length + plan.insertions := by
  intro source
  have file : (parseUnit source).toExcept.toOption.map
      (fun u => (["java.util.Map", "java.io.File", "a.b.C"].foldl register (.ofUnit u)).addedTypes) =
        some ["java.util.Map", "a.b.C"] := by
    decide +kernel
  have named : ∀ name ∈ ["java.util.Map", "java.io.File", "a.b.C"], IsName name := by decide +kernel
  obtain ⟨u, parsed, added⟩ := exists_of_toOption_map file
  exact ⟨u, parsed, named, added, (applyTo_frame parsed named).2.1⟩

end ImportPlan

end DeferFetch
