/-
# DeferFetch.Proofs.Imports.Insertion — a pending import is as good as one that is written out.

While a file is walked, the types to be imported are only pending. Here is shown that they mean then
what they mean in the file that is written in the end: wherever the new imports are put among the old
ones, every name means the same in both scopes.
-/
import DeferFetch.Proofs.Naming.Agreement
import DeferFetch.Proofs.Naming.Meaning
import DeferFetch.Imports.Placement

namespace DeferFetch

/-! ## What an import says -/

/-- **`ImportOutline`** — all that an import has to do with the meaning of names. -/
structure ImportOutline where
  isStatic : Bool
  isOnDemand : Bool
  name : String
deriving DecidableEq, Repr

namespace ImportDeclaration

/-- The outline of an import, without the tokens that it is made of. -/
def outline (i : ImportDeclaration) : ImportOutline := ⟨i.isStatic, i.isOnDemand, i.importedName⟩

theorem importedName_ofType (name leading : String) : (ofType name leading).importedName = name :=
  dotted_ofDotted name " "

theorem outline_ofType (name leading : String) :
    (ofType name leading).outline = ⟨false, false, name⟩ := by
  rw [outline, importedName_ofType]
  rfl

variable {i j : ImportDeclaration}

theorem singleType?_congr (h : i.outline = j.outline) : i.singleType? = j.singleType? := by
  simp only [outline, ImportOutline.mk.injEq] at h
  simp only [singleType?, h.1, h.2.1, h.2.2]

theorem packageOnDemand?_congr (h : i.outline = j.outline) :
    i.packageOnDemand? = j.packageOnDemand? := by
  simp only [outline, ImportOutline.mk.injEq] at h
  simp only [packageOnDemand?, h.1, h.2.1, h.2.2]

theorem staticSingle?_congr (h : i.outline = j.outline) : i.staticSingle? = j.staticSingle? := by
  simp only [outline, ImportOutline.mk.injEq] at h
  simp only [staticSingle?, h.1, h.2.1, h.2.2]

theorem staticOnDemand?_congr (h : i.outline = j.outline) :
    i.staticOnDemand? = j.staticOnDemand? := by
  simp only [outline, ImportOutline.mk.injEq] at h
  simp only [staticOnDemand?, h.1, h.2.1, h.2.2]

/-- The import of a single type is no import of another kind. -/
theorem singleType?_ofType (name leading : String) :
    (ofType name leading).singleType? = some (simpleNameOf name, name) := by
  simp only [singleType?, importedName_ofType]
  rfl

/-- What is read off the outlines of imports is the same for imports of the same outlines. -/
theorem filterMap_congr {α : Type} {g : ImportDeclaration → Option α}
    (congr : ∀ {i j : ImportDeclaration}, i.outline = j.outline → g i = g j)
    {imports imports' : List ImportDeclaration}
    (same : imports.map outline = imports'.map outline) :
    imports.filterMap g = imports'.filterMap g := by
  induction imports generalizing imports' with
  | nil => rw [List.map_eq_nil_iff.1 same.symm]
  | cons i imports ih =>
    obtain ⟨j, others, rfl, head, tail⟩ := List.map_eq_cons_iff.1 same.symm
    rw [List.filterMap_cons, List.filterMap_cons, congr head.symm, ih tail.symm]

end ImportDeclaration

/-! ## Inserting an import -/

/-- **`Inserted name imports imports'`** — the import of a type has been put somewhere among others,
which are still there in their order, with other text between them perhaps. -/
def Inserted (name : String) (imports imports' : List ImportDeclaration) : Prop :=
  ∃ before fresh after after', imports = before ++ after ∧ imports' = before ++ fresh :: after' ∧
    fresh.outline = ⟨false, false, name⟩ ∧
    after'.map ImportDeclaration.outline = after.map ImportDeclaration.outline

theorem inserted_insertBefore (imports : List ImportDeclaration) (index : Nat) (name : String) :
    Inserted name imports (insertBefore imports index name) := by
  have whole := List.take_append_drop index imports
  unfold insertBefore
  cases behind : imports.drop index with
  | nil => exact ⟨imports, _, [], [], by simp, rfl, ImportDeclaration.outline_ofType name "", rfl⟩
  | cons displaced after =>
    rw [behind] at whole
    exact ⟨_, _, _, _, whole.symm, rfl, ImportDeclaration.outline_ofType name "", rfl⟩

theorem inserted_insertAmong (imports : List ImportDeclaration) (name : String) :
    Inserted name imports (insertAmong imports name) := by
  unfold insertAmong
  split
  · exact inserted_insertBefore imports _ name
  · rename_i index _
    refine ⟨_, _, _, _, (List.take_append_drop (index + 1) imports).symm, rfl, ?_, rfl⟩
    exact ImportDeclaration.outline_ofType name "\n"

namespace CompilationUnit

theorem inserted_insertImport (u : CompilationUnit) (name : String) :
    Inserted name u.imports (u.insertImport name).imports := by
  unfold insertImport
  split
  · exact inserted_insertAmong u.imports name
  · rename_i none
    -- a file without imports gets its first one
    have none : u.imports = [] := by simpa using none
    rw [none]
    split
    · exact ⟨[], _, [], [], rfl, rfl, ImportDeclaration.outline_ofType name "\n\n", rfl⟩
    · exact ⟨[], _, [], [], rfl, rfl, ImportDeclaration.outline_ofType name "", rfl⟩

/-! ## What an insertion leaves alone -/

theorem packageName_insertImport (u : CompilationUnit) (name : String) :
    (u.insertImport name).packageName = u.packageName := by
  unfold insertImport mapFirstAfterImports
  split
  · rfl
  · split
    · rfl
    · split <;> rfl

theorem qualifiedNames_mapFirst (f : Token → Token) (outer : Option String)
    (d : TypeDeclaration) : (d.mapFirst f).qualifiedNames outer = d.qualifiedNames outer := by
  obtain ⟨modifiers, _, _, _, _, _, _, _⟩ := d
  cases modifiers <;> simp only [TypeDeclaration.mapFirst, TypeDeclaration.qualifiedNames]

theorem declarations_insertImport (u : CompilationUnit) (name : String) :
    (u.insertImport name).declarations.flatMap (·.qualifiedNames u.packageName) =
      u.declarations.flatMap (·.qualifiedNames u.packageName) := by
  unfold insertImport
  split
  · rfl
  · split
    · rfl
    · obtain ⟨_, _, types, _⟩ := u
      unfold mapFirstAfterImports
      rcases types with _ | ⟨_ | _, types⟩
      · rfl
      · simp only [declarations, List.filterMap_cons, TopLevel.type?, List.flatMap_cons,
          qualifiedNames_mapFirst]
      · rfl

/-- What is not read off the import of a single type stays. -/
theorem filterMap_insertImport {α : Type} {g : ImportDeclaration → Option α}
    (congr : ∀ {i j : ImportDeclaration}, i.outline = j.outline → g i = g j)
    (u : CompilationUnit) (name : String) (misses : g (.ofType name) = none) :
    (u.insertImport name).imports.filterMap g = u.imports.filterMap g := by
  obtain ⟨before, fresh, after, after', old, new, outline, same⟩ := u.inserted_insertImport name
  have fresh : g fresh = none := by
    rw [congr (outline.trans (ImportDeclaration.outline_ofType name "").symm), misses]
  rw [old, new, List.filterMap_append, List.filterMap_append, List.filterMap_cons_none fresh,
    ImportDeclaration.filterMap_congr congr same]

/-- What no insertion changes, several do not. -/
theorem foldl_insertImport {α : Type} (view : CompilationUnit → α)
    (step : ∀ u name, view (CompilationUnit.insertImport u name) = view u) (names : List String)
    (u : CompilationUnit) : view (names.foldl insertImport u) = view u := by
  induction names generalizing u with
  | nil => rfl
  | cons name names ih => rw [List.foldl_cons, ih, step]

/-! ## What an insertion adds -/

/-- The types that the file imports by name. -/
def singleTypes (u : CompilationUnit) : List (String × String) :=
  u.imports.filterMap ImportDeclaration.singleType?

/-- One more type is imported by name, somewhere among the others. -/
theorem singleTypes_insertImport (u : CompilationUnit) (name : String) :
    ∃ before after, u.singleTypes = before ++ after ∧
      (u.insertImport name).singleTypes = before ++ (simpleNameOf name, name) :: after := by
  obtain ⟨before, fresh, after, after', old, new, outline, same⟩ := u.inserted_insertImport name
  have fresh : fresh.singleType? = some (simpleNameOf name, name) := by
    rw [ImportDeclaration.singleType?_congr
      (outline.trans (ImportDeclaration.outline_ofType name "").symm)]
    exact ImportDeclaration.singleType?_ofType name ""
  have same : after'.filterMap ImportDeclaration.singleType? =
      after.filterMap ImportDeclaration.singleType? :=
    ImportDeclaration.filterMap_congr ImportDeclaration.singleType?_congr same
  refine ⟨before.filterMap ImportDeclaration.singleType?,
    after.filterMap ImportDeclaration.singleType?, ?_, ?_⟩
  · rw [singleTypes, old, List.filterMap_append]
  · rw [singleTypes, new, List.filterMap_append, List.filterMap_cons_some fresh, same]

/-- One more type is imported, under a simple name that was free. -/
theorem get?_singleTypes_insertImport (u : CompilationUnit) (name simple : String)
    (free : NameMap.get? u.singleTypes (simpleNameOf name) = none) :
    NameMap.get? (u.insertImport name).singleTypes simple =
      (NameMap.get? u.singleTypes simple <|>
        NameMap.get? [(simpleNameOf name, name)] simple) := by
  obtain ⟨before, after, old, new⟩ := u.singleTypes_insertImport name
  simp only [old, NameMap.get?_append, Option.orElse_eq_orElse, Option.orElse_eq_or,
    Option.or_eq_none_iff] at free
  simp only [old, new, NameMap.get?_append, NameMap.get?, Option.orElse_eq_orElse,
    Option.orElse_eq_or]
  by_cases here : simple = simpleNameOf name
  · rw [here, free.1, free.2, if_pos rfl, Option.none_or, Option.none_or, Option.none_or]
  · simp only [if_neg here, Option.or_none]

/-- **The new imports are added to the old ones** — several types that are imported under simple
names of their own. -/
theorem get?_singleTypes_foldl (entries : List (String × String)) (u : CompilationUnit)
    (simple : String) (named : ∀ entry ∈ entries, entry.1 = simpleNameOf entry.2)
    (free : ∀ entry ∈ entries, NameMap.get? u.singleTypes entry.1 = none)
    (nodup : (entries.map Prod.fst).Nodup) :
    NameMap.get? ((entries.map Prod.snd).foldl insertImport u).singleTypes simple =
      (NameMap.get? u.singleTypes simple <|> NameMap.get? entries simple) := by
  induction entries generalizing u with
  | nil => simp [NameMap.get?]
  | cons entry entries ih =>
    obtain ⟨key, type⟩ := entry
    obtain rfl : key = simpleNameOf type := named _ List.mem_cons_self
    have one (other : String) := u.get?_singleTypes_insertImport type other
      (free _ List.mem_cons_self)
    rw [List.map_cons, List.nodup_cons] at nodup
    have free : ∀ entry ∈ entries,
        NameMap.get? (u.insertImport type).singleTypes entry.1 = none := by
      intro entry hentry
      have apart : entry.1 ≠ simpleNameOf type := fun same =>
        nodup.1 (List.mem_map.2 ⟨entry, hentry, same⟩)
      rw [one, free entry (List.mem_cons_of_mem _ hentry)]
      simp [NameMap.get?, apart]
    have named : ∀ entry ∈ entries, entry.1 = simpleNameOf entry.2 :=
      fun entry hentry => named entry (List.mem_cons_of_mem _ hentry)
    rw [List.map_cons, List.foldl_cons, ih _ named free nodup.2, one]
    have cons : (simpleNameOf type, type) :: entries = [(simpleNameOf type, type)] ++ entries := rfl
    rw [cons, NameMap.get?_append]
    simp only [Option.orElse_eq_orElse, Option.orElse_eq_or, Option.or_assoc]

end CompilationUnit

/-! ## Plans -/

namespace ImportPlan

/-- **`plan.Plans unit`** — the plan is one for that file: each type that it adds is not visible yet
and has a simple name of its own. -/
structure Plans (plan : ImportPlan) (unit : CompilationUnit) : Prop where
  base : { plan with added := [] } = ofUnit unit
  named : ∀ entry ∈ plan.added, entry.1 = simpleNameOf entry.2
  free : ∀ entry ∈ plan.added, plan.singleType.get? entry.1 = none
  hidden : ∀ entry ∈ plan.added, plan.isImplicit (qualifierOf entry.2) = false
  nodup : (plan.added.map Prod.fst).Nodup

namespace Plans

variable {plan : ImportPlan} {unit : CompilationUnit}

theorem ofUnit (unit : CompilationUnit) : (ImportPlan.ofUnit unit).Plans unit :=
  ⟨rfl, nofun, nofun, nofun, List.nodup_nil⟩

/-- A plan stays one for the file when a type is registered. -/
theorem register (h : plan.Plans unit) (name : String) : (plan.register name).Plans unit := by
  unfold ImportPlan.register
  split
  · rename_i added
    -- it is added only if nothing is imported under its name and its package is not visible
    unfold ImportPlan.outcome at added
    split at added
    · split at added <;> cases added
    · rename_i unknown
      split at added
      · cases added
      rename_i hidden
      simp only [imported?, Option.orElse_eq_orElse, Option.orElse_eq_or, Option.or_eq_none_iff]
        at unknown
      refine ⟨h.base, ?_, ?_, ?_, ?_⟩
      · exact List.forall_mem_append.2 ⟨h.named, by simp⟩
      · exact List.forall_mem_append.2 ⟨h.free, by simpa using unknown.1⟩
      · refine List.forall_mem_append.2 ⟨h.hidden, ?_⟩
        intro entry hentry
        rw [List.mem_singleton.1 hentry]
        exact (Bool.not_eq_true _).mp hidden
      · rw [List.map_append, List.nodup_append]
        refine ⟨h.nodup, by simp, fun key hkey other hother => ?_⟩
        rw [List.mem_singleton.1 hother]
        rintro rfl
        exact NameMap.not_mem_of_get?_eq_none unknown.2 hkey
  · exact h

theorem registerAll (h : plan.Plans unit) (names : List String) :
    (names.foldl ImportPlan.register plan).Plans unit := by
  induction names generalizing plan with
  | nil => exact h
  | cons name names ih => exact ih (h.register name)

/-- **Pending imports and written ones agree** — a file with the imports of a plan makes the same
names visible as the file without them does together with the plan. -/
theorem agree (h : plan.Plans unit) (catalog : Catalog) :
    Scope.Agree ⟨.ofUnit (plan.applyTo unit none) catalog, []⟩ ⟨.ofUnit unit catalog, plan.added⟩ := by
  have package := CompilationUnit.foldl_insertImport CompilationUnit.packageName
    CompilationUnit.packageName_insertImport plan.addedTypes unit
  have kept {α : Type} {g : ImportDeclaration → Option α}
      (congr : ∀ {i j : ImportDeclaration}, i.outline = j.outline → g i = g j)
      (misses : ∀ name, g (.ofType name) = none) :
      (plan.applyTo unit none).imports.filterMap g = unit.imports.filterMap g :=
    CompilationUnit.foldl_insertImport (·.imports.filterMap g)
      (fun u name => u.filterMap_insertImport congr name (misses name)) plan.addedTypes unit
  refine ⟨rfl, package, ?_, ?_, ?_, ?_, ?_⟩
  · have declarations := CompilationUnit.foldl_insertImport CompilationUnit.typeEntries
      (fun u name => by
        rw [CompilationUnit.typeEntries, u.packageName_insertImport, u.declarations_insertImport]
        rfl) plan.addedTypes unit
    exact congrArg NameMap.firstOfEach declarations
  · intro simple
    have free : ∀ entry ∈ plan.added, NameMap.get? unit.singleTypes entry.1 = none := by
      intro entry hentry
      have := h.free entry hentry
      rwa [congrArg ImportPlan.singleType h.base, ImportPlan.ofUnit,
        NameMap.get?_firstOfEach] at this
    have := CompilationUnit.get?_singleTypes_foldl plan.added unit simple h.named free h.nodup
    simp only [Scope.imported?, SymbolTable.ofUnit, NameMap.get?_firstOfEach, NameMap.get?,
      Option.orElse_eq_orElse, Option.orElse_eq_or, Option.or_none] at this ⊢
    exact this
  · exact congrArg List.eraseDups
      (kept ImportDeclaration.packageOnDemand?_congr fun _ => rfl)
  · exact congrArg NameMap.firstOfEach (kept ImportDeclaration.staticSingle?_congr fun _ => rfl)
  · exact congrArg List.eraseDups (kept ImportDeclaration.staticOnDemand?_congr fun _ => rfl)

end Plans

/-- **What a name means while a file is walked, it means in the file that is written** — whichever
types have been registered, every name means the same with their imports pending and with them
inserted. -/
theorem resolve_applyTo (unit : CompilationUnit) (catalog : Catalog) (types : List String)
    (name : String) :
    let plan := types.foldl register (ofUnit unit)
    Scope.resolve ⟨.ofUnit (plan.applyTo unit none) catalog, []⟩ name =
      Scope.resolve ⟨.ofUnit unit catalog, plan.added⟩ name :=
  (((Plans.ofUnit unit).registerAll types).agree catalog).resolve name

end ImportPlan

end DeferFetch
