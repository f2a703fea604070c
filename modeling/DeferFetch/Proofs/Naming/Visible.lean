/-
# DeferFetch.Proofs.Naming.Visible — what the meaning of names depends on.

Of a file, only its package, the outlines of its imports and the names of the types that it declares
decide what a name means. A file over other tokens of the same kinds has the same, and so has a file
in which annotations have been replaced, whatever they were replaced with.
-/
import DeferFetch.Proofs.Grammar.Overlay
import DeferFetch.Proofs.Imports.Insertion

namespace DeferFetch

/-- **`Visible`** — all that a file has to do with the meaning of names. -/
structure Visible where
  package? : Option String
  imports : List ImportOutline
  types : List (String × String)
deriving DecidableEq, Repr

namespace CompilationUnit

/-- What the file makes visible. -/
def visible (u : CompilationUnit) : Visible :=
  ⟨u.packageName, u.imports.map ImportDeclaration.outline, u.typeEntries⟩

variable {u v : CompilationUnit}

/-- Files that make the same visible have the same symbol table. -/
theorem symbols_congr (same : u.visible = v.visible) (catalog : Catalog) :
    SymbolTable.ofUnit u catalog = SymbolTable.ofUnit v catalog := by
  simp only [visible, Visible.mk.injEq] at same
  obtain ⟨package, imports, types⟩ := same
  have single := ImportDeclaration.filterMap_congr ImportDeclaration.singleType?_congr imports
  have demand := ImportDeclaration.filterMap_congr ImportDeclaration.packageOnDemand?_congr imports
  have static := ImportDeclaration.filterMap_congr ImportDeclaration.staticSingle?_congr imports
  have statics := ImportDeclaration.filterMap_congr ImportDeclaration.staticOnDemand?_congr imports
  have declared : NameMap.firstOfEach u.typeEntries = NameMap.firstOfEach v.typeEntries := by
    rw [types]
  simp only [SymbolTable.ofUnit, SymbolTable.mk.injEq, package, single, demand, static, statics,
    true_and, and_true]
  rw [← package]
  exact declared.trans (by rw [typeEntries, package])

/-- Files that make the same visible have the same import plan. -/
theorem plan_congr (same : u.visible = v.visible) : ImportPlan.ofUnit u = ImportPlan.ofUnit v := by
  simp only [visible, Visible.mk.injEq] at same
  obtain ⟨package, imports, -⟩ := same
  simp only [ImportPlan.ofUnit, package,
    ImportDeclaration.filterMap_congr ImportDeclaration.singleType?_congr imports,
    ImportDeclaration.filterMap_congr ImportDeclaration.packageOnDemand?_congr imports]

end CompilationUnit

/-! ## Other tokens -/

section Overlay

variable {f : Token → Token}

mutual

theorem TypeDeclaration.qualifiedNames_mapTokens (hf : ∀ t, (f t).kind = t.kind)
    (outer : Option String) (d : TypeDeclaration) :
    (d.mapTokens f).qualifiedNames outer = d.qualifiedNames outer := by
  match d with
  | ⟨_, _, _, _, _, _, members, _⟩ =>
    simp only [TypeDeclaration.mapTokens, TypeDeclaration.qualifiedNames, Token.text, hf,
      Member.listQualifiedNames_mapTokens hf _ members]

theorem Member.qualifiedNames_mapTokens (hf : ∀ t, (f t).kind = t.kind) (outer : String)
    (m : Member) :
    (m.mapTokens f).qualifiedNames outer = m.qualifiedNames outer := by
  match m with
  | .type d =>
    simp only [Member.mapTokens, Member.qualifiedNames,
      TypeDeclaration.qualifiedNames_mapTokens hf _ d]
  | .field _ _ _ => simp only [Member.mapTokens, Member.qualifiedNames]
  | .method _ _ _ => simp only [Member.mapTokens, Member.qualifiedNames]
  | .block _ _ => simp only [Member.mapTokens, Member.qualifiedNames]
  | .constants _ _ => simp only [Member.mapTokens, Member.qualifiedNames]
  | .empty _ => simp only [Member.mapTokens, Member.qualifiedNames]

theorem Member.listQualifiedNames_mapTokens (hf : ∀ t, (f t).kind = t.kind) (outer : String)
    (ms : List Member) :
    Member.listQualifiedNames outer (Member.listMapTokens f ms) =
      Member.listQualifiedNames outer ms := by
  match ms with
  | [] => rfl
  | m :: ms =>
    simp only [Member.listMapTokens, Member.listQualifiedNames, Member.qualifiedNames_mapTokens hf _ m,
      Member.listQualifiedNames_mapTokens hf _ ms]

end

variable (hf : ∀ t, (f t).kind = t.kind)

include hf

theorem ImportDeclaration.outline_mapTokens (i : ImportDeclaration) :
    (i.mapTokens f).outline = i.outline := by
  simp only [outline, mapTokens, isStatic, isOnDemand, importedName, Option.isSome_map,
    QualifiedName.dotted_mapTokens hf]

/-- A file over other tokens of the same kinds makes the same visible. -/
theorem CompilationUnit.visible_mapTokens (u : CompilationUnit) :
    (u.mapTokens f).visible = u.visible := by
  have package : (u.mapTokens f).packageName = u.packageName := by
    simp only [packageName, mapTokens, Option.map_map]
    exact congrArg (u.package?.map ·) (funext fun p => QualifiedName.dotted_mapTokens hf p.name)
  have imports : (u.mapTokens f).imports.map ImportDeclaration.outline =
      u.imports.map ImportDeclaration.outline := by
    simp only [mapTokens, List.map_map]
    exact congrArg (u.imports.map ·) (funext (ImportDeclaration.outline_mapTokens hf))
  have types : (u.mapTokens f).typeEntries = u.typeEntries := by
    rw [typeEntries, package, typeEntries, declarations, declarations, mapTokens]
    induction u.types with
    | nil => rfl
    | cons d ds ih =>
      cases d with
      | type d =>
        simp only [List.map_cons, TopLevel.mapTokens, List.filterMap_cons, TopLevel.type?,
          List.flatMap_cons, TypeDeclaration.qualifiedNames_mapTokens hf]
        rw [ih]
      | empty t => simpa only [List.map_cons, TopLevel.mapTokens, List.filterMap_cons,
          TopLevel.type?] using ih
  rw [visible, visible, package, imports, types]

end Overlay

/-- Files that are the same up to where their tokens stand make the same visible. -/
theorem CompilationUnit.visible_congr {v w : CompilationUnit}
    (h : w.mapTokens Token.bare = v.mapTokens Token.bare) : w.visible = v.visible := by
  rw [← w.visible_mapTokens Token.kind_bare, h, v.visible_mapTokens Token.kind_bare]

/-! ## Walks -/

section Walks

variable {σ : Type} {visit : Annotation → StateM σ Annotation}

mutual

theorem TypeDeclaration.qualifiedNames_mapAnnotationsM (outer : Option String) (d : TypeDeclaration)
    (s : σ) :
    ((d.mapAnnotationsM visit).run s).1.qualifiedNames outer = d.qualifiedNames outer := by
  match d with
  | ⟨_, _, _, _, _, _, members, _⟩ =>
    simp only [TypeDeclaration.mapAnnotationsM, run_bind_state, run_pure_state,
      TypeDeclaration.qualifiedNames, Member.listQualifiedNames_mapAnnotationsM _ members]

theorem Member.qualifiedNames_mapAnnotationsM (outer : String) (m : Member) (s : σ) :
    ((m.mapAnnotationsM visit).run s).1.qualifiedNames outer = m.qualifiedNames outer := by
  match m with
  | .type d =>
    simp only [Member.mapAnnotationsM, run_map_state, Member.qualifiedNames,
      TypeDeclaration.qualifiedNames_mapAnnotationsM _ d]
  | .field _ _ _ =>
    simp only [Member.mapAnnotationsM, run_bind_state, run_pure_state, Member.qualifiedNames]
  | .method _ _ _ =>
    simp only [Member.mapAnnotationsM, run_bind_state, run_pure_state, Member.qualifiedNames]
  | .block _ _ =>
    simp only [Member.mapAnnotationsM, run_bind_state, run_pure_state, Member.qualifiedNames]
  | .constants _ _ =>
    simp only [Member.mapAnnotationsM, run_bind_state, run_pure_state, Member.qualifiedNames]
  | .empty _ => simp only [Member.mapAnnotationsM, run_pure_state, Member.qualifiedNames]

theorem Member.listQualifiedNames_mapAnnotationsM (outer : String) (ms : List Member) (s : σ) :
    Member.listQualifiedNames outer ((Member.listMapAnnotationsM visit ms).run s).1 =
      Member.listQualifiedNames outer ms := by
  match ms with
  | [] => simp only [Member.listMapAnnotationsM, run_pure_state]
  | m :: ms =>
    simp only [Member.listMapAnnotationsM, run_bind_state, run_pure_state,
      Member.listQualifiedNames, Member.qualifiedNames_mapAnnotationsM _ m,
      Member.listQualifiedNames_mapAnnotationsM _ ms]

end

/-- The types declared at the top of a file keep their names. -/
theorem TopLevel.flatMap_mapAnnotationsM (outer : Option String) (ds : List TopLevel) (s : σ) :
    ((((ds.mapM (TopLevel.mapAnnotationsM visit)).run s).1.filterMap TopLevel.type?).flatMap
        (·.qualifiedNames outer)) =
      (ds.filterMap TopLevel.type?).flatMap (·.qualifiedNames outer) := by
  induction ds generalizing s with
  | nil => rw [List.mapM_nil, run_pure_state]
  | cons d ds ih =>
    rw [List.mapM_cons]
    simp only [run_bind_state, run_pure_state]
    cases d with
    | type d =>
      simp only [TopLevel.mapAnnotationsM, run_map_state, List.filterMap_cons, TopLevel.type?,
        List.flatMap_cons, TypeDeclaration.qualifiedNames_mapAnnotationsM, ih]
    | empty t =>
      simp only [TopLevel.mapAnnotationsM, run_pure_state, List.filterMap_cons, TopLevel.type?, ih]

/-- **Walks change no name** — whatever annotations are replaced with, the file makes the same
visible. -/
theorem CompilationUnit.visible_mapAnnotationsM (u : CompilationUnit) (s : σ) :
    ((u.mapAnnotationsM visit).run s).1.visible = u.visible := by
  have package : ((u.mapAnnotationsM visit).run s).1.packageName = u.packageName := by
    obtain ⟨_ | p, _, _, _⟩ := u
    · rfl
    · simp only [packageName, mapAnnotationsM, PackageDeclaration.mapAnnotationsM, Option.mapM_some,
        run_bind_state, run_map_state, run_pure_state, Option.map_some]
  have types : ((u.mapAnnotationsM visit).run s).1.typeEntries = u.typeEntries := by
    rw [typeEntries, package]
    exact TopLevel.flatMap_mapAnnotationsM u.packageName u.types _
  have imports : ((u.mapAnnotationsM visit).run s).1.imports = u.imports := rfl
  rw [visible, visible, package, types, imports]

end Walks

end DeferFetch
