/-
# DeferFetch.Proofs.Imports.Folding — what folding the imports of a package does to names.

Folding moves the types of a package from the imports by name to those on demand, which come later in
the search for the meaning of a name. So a name that was imported from the package keeps its meaning
exactly if nothing else offers it: no other import by name, no type of the file's own package, and no
other package on demand.
-/
import DeferFetch.Parser.Unit
import DeferFetch.Proofs.Imports.Insertion

namespace DeferFetch

/-! ## Replacing the first of some elements -/

section Replacing

variable {α β : Type} {p : α → Bool}

/-- **What replacing does** — the first element that `p` holds of is replaced, the others are left
out. -/
theorem replaceFirst_of_any (image : α → α) {xs : List α} (h : xs.any p = true) :
    ∃ before x after, xs = before ++ x :: after ∧ (∀ y ∈ before, p y = false) ∧ p x = true ∧
      replaceFirst p image xs = before ++ image x :: after.filter (!p ·) := by
  induction xs with
  | nil => cases h
  | cons x xs ih =>
    cases hx : p x with
    | true => exact ⟨[], x, xs, rfl, nofun, hx, by rw [replaceFirst, if_pos hx]; rfl⟩
    | false =>
      rw [List.any_cons, hx, Bool.false_or] at h
      obtain ⟨before, y, after, rfl, skipped, hy, replaced⟩ := ih h
      refine ⟨x :: before, y, after, rfl, List.forall_mem_cons.2 ⟨hx, skipped⟩, hy, ?_⟩
      rw [replaceFirst, hx, replaced]
      rfl

theorem replaceFirst_of_not_any (image : α → α) {xs : List α} (h : xs.any p = false) :
    replaceFirst p image xs = xs := by
  induction xs with
  | nil => rfl
  | cons x xs ih =>
    rw [List.any_cons, Bool.or_eq_false_iff] at h
    rw [replaceFirst, h.1, ih h.2]
    rfl

/-- Leaving out elements in which nothing is found. -/
theorem filterMap_filter_not {g : α → Option β} (misses : ∀ x, p x = true → g x = none)
    (xs : List α) : (xs.filter (!p ·)).filterMap g = xs.filterMap g := by
  induction xs with
  | nil => rfl
  | cons x xs ih =>
    cases hx : p x with
    | true => rw [List.filter_cons_of_neg (by simp [hx]), List.filterMap_cons_none (misses x hx), ih]
    | false => rw [List.filter_cons_of_pos (by simp [hx]), List.filterMap_cons, List.filterMap_cons, ih]

/-- Looking a name up among some of the entries, if the one that counts is among them. -/
theorem NameMap.get?_filter {m : NameMap α} {name : String} {a : α} (keep : String × α → Bool)
    (h : m.get? name = some a) (kept : keep (name, a) = true) :
    NameMap.get? (m.filter keep) name = some a := by
  induction m with
  | nil => cases h
  | cons entry m ih =>
    obtain ⟨key, b⟩ := entry
    simp only [NameMap.get?] at h
    split at h
    · rename_i hkey
      cases h
      rw [← hkey, List.filter_cons_of_pos kept, NameMap.get?, if_pos rfl]
    · rename_i hkey
      rw [List.filter_cons]
      split
      · rw [NameMap.get?, if_neg hkey, ih h]
      · exact ih h

end Replacing

/-! ## Folding one package -/

/-- The entries of types outside a package. -/
def outside (package : String) (entry : String × String) : Bool :=
  qualifierOf entry.2 ≠ some package

theorem ImportDeclaration.isSingleTypeOf_eq (i : ImportDeclaration) (package : String) :
    i.isSingleTypeOf package = i.singleType?.any (!outside package ·) := by
  unfold isSingleTypeOf singleType?
  cases i.isStatic <;> cases i.isOnDemand <;> simp [outside]

/-- **`Foldable imports threshold package`** — the package has imports of single types, enough of
them, and is not imported on demand yet. -/
def Foldable (imports : List ImportDeclaration) (threshold : Nat) (package : String) : Prop :=
  package ∉ imports.filterMap ImportDeclaration.packageOnDemand? ∧
    threshold ≤ imports.countP (·.isSingleTypeOf package) ∧
    0 < imports.countP (·.isSingleTypeOf package)

instance (imports : List ImportDeclaration) (threshold : Nat) (package : String) :
    Decidable (Foldable imports threshold package) :=
  inferInstanceAs (Decidable (_ ∧ _ ∧ _))

section Folding

variable {imports : List ImportDeclaration} {threshold : Nat} {package : String}

theorem any_packageOnDemand? : imports.any (·.packageOnDemand? = some package) = true ↔
    package ∈ imports.filterMap ImportDeclaration.packageOnDemand? := by
  simp [List.mem_filterMap]

/-- The import on demand of a package, in the place of another import. -/
def foldedImport (package : String) (i : ImportDeclaration) : ImportDeclaration :=
  { ImportDeclaration.ofPackage package with
    word := { (ImportDeclaration.ofPackage package).word with trivia := i.word.trivia } }

theorem singleType?_foldedImport (i : ImportDeclaration) :
    (foldedImport package i).singleType? = none := rfl

theorem packageOnDemand?_foldedImport (i : ImportDeclaration) :
    (foldedImport package i).packageOnDemand? = some package :=
  congrArg some (dotted_ofDotted package " ")

theorem foldImports_eq : foldImports imports package threshold =
    if imports.any (·.packageOnDemand? = some package) then imports
    else if imports.countP (·.isSingleTypeOf package) < threshold then imports
    else replaceFirst (·.isSingleTypeOf package) (foldedImport package) imports := rfl

theorem foldImports_of_not_foldable (h : ¬ Foldable imports threshold package) :
    foldImports imports package threshold = imports := by
  rw [foldImports_eq]
  split
  · rfl
  · rename_i absent
    split
    · rfl
    · rename_i enough
      rw [any_packageOnDemand?] at absent
      refine replaceFirst_of_not_any _ (Bool.eq_false_iff.2 fun any => ?_)
      exact h ⟨absent, Nat.not_lt.1 enough, List.countP_pos_iff.2 (List.any_eq_true.1 any)⟩

/-- **What folding does** — the first import of a type of the package is replaced, the others are left
out. -/
theorem foldImports_of_foldable (h : Foldable imports threshold package) :
    ∃ before i after, imports = before ++ i :: after ∧
      (∀ j ∈ before, j.isSingleTypeOf package = false) ∧ i.isSingleTypeOf package = true ∧
      foldImports imports package threshold =
        before ++ foldedImport package i :: after.filter (!·.isSingleTypeOf package) := by
  obtain ⟨absent, enough, any⟩ := h
  rw [← any_packageOnDemand?] at absent
  rw [foldImports_eq, if_neg absent, if_neg (Nat.not_lt.2 enough)]
  exact replaceFirst_of_any (foldedImport package) (List.any_eq_true.2 (List.countP_pos_iff.1 any))

/-- The types that are still imported by name: those of other packages. -/
theorem filterMap_singleType?_foldImports (h : Foldable imports threshold package) :
    (foldImports imports package threshold).filterMap ImportDeclaration.singleType? =
      (imports.filterMap ImportDeclaration.singleType?).filter (outside package) := by
  obtain ⟨before, i, after, rfl, skipped, hi, replaced⟩ := foldImports_of_foldable h
  have others (imports : List ImportDeclaration) :
      (imports.filter (!·.isSingleTypeOf package)).filterMap ImportDeclaration.singleType? =
        (imports.filterMap ImportDeclaration.singleType?).filter (outside package) := by
    rw [List.filterMap_filter, List.filter_filterMap]
    congr 1
    funext i
    rw [i.isSingleTypeOf_eq]
    cases i.singleType? with
    | none => rfl
    | some entry => simp [Option.filter]
  have before' : before.filter (!·.isSingleTypeOf package) = before :=
    List.filter_eq_self.2 fun j hj => by simp [skipped j hj]
  rw [← others, replaced, List.filter_append, before', List.filter_cons_of_neg (by simp [hi]),
    List.filterMap_append, List.filterMap_append,
    List.filterMap_cons_none (singleType?_foldedImport i)]

/-- The packages on demand: the package is one more. -/
theorem mem_packageOnDemand?_foldImports (h : Foldable imports threshold package) {other : String} :
    other ∈ (foldImports imports package threshold).filterMap ImportDeclaration.packageOnDemand? ↔
      other = package ∨ other ∈ imports.filterMap ImportDeclaration.packageOnDemand? := by
  obtain ⟨before, i, after, rfl, skipped, hi, replaced⟩ := foldImports_of_foldable h
  have single {i : ImportDeclaration} (hi : i.isSingleTypeOf package = true) :
      i.packageOnDemand? = none := by
    unfold ImportDeclaration.isSingleTypeOf at hi
    unfold ImportDeclaration.packageOnDemand?
    cases hd : i.isOnDemand <;> simp_all
  rw [replaced, List.filterMap_append, List.filterMap_append,
    List.filterMap_cons_some (packageOnDemand?_foldedImport i),
    List.filterMap_cons_none (single hi), filterMap_filter_not fun i => single]
  simp only [List.mem_append, List.mem_cons]
  exact or_left_comm

theorem countP_isSingleTypeOf : imports.countP (·.isSingleTypeOf package) =
    (imports.filterMap ImportDeclaration.singleType?).countP (!outside package ·) := by
  rw [List.countP_filterMap]
  congr 1
  funext i
  rw [i.isSingleTypeOf_eq]
  cases i.singleType? <;> rfl

/-- What is left over from folding a package can be folded as before. -/
theorem foldable_foldImports (h : Foldable imports threshold package) {other : String}
    (hne : other ≠ package) : Foldable (foldImports imports package threshold) threshold other ↔
      Foldable imports threshold other := by
  have count : (foldImports imports package threshold).countP (·.isSingleTypeOf other) =
      imports.countP (·.isSingleTypeOf other) := by
    rw [countP_isSingleTypeOf, countP_isSingleTypeOf, filterMap_singleType?_foldImports h,
      List.countP_filter]
    congr 1
    funext entry
    -- a type of the one package is none of the other
    cases hq : qualifierOf entry.2 with
    | none => simp [outside, hq]
    | some q => by_cases hqo : q = other <;> simp [outside, hq, hqo, hne]
  simp only [Foldable, mem_packageOnDemand?_foldImports h, hne, false_or, count]

/-! ## Folding several packages -/

/-- **Folding several packages** — the types of those that can be folded are no longer imported by
name, and exactly those packages are imported on demand besides. -/
theorem foldl_foldImports (imports : List ImportDeclaration) (threshold : Nat)
    {packages : List String} (nodup : packages.Nodup) :
    let folded := packages.foldl (foldImports · · threshold) imports
    folded.filterMap ImportDeclaration.singleType? =
        (imports.filterMap ImportDeclaration.singleType?).filter (fun entry =>
          ∀ package ∈ packages, Foldable imports threshold package → outside package entry = true) ∧
      ∀ other, other ∈ folded.filterMap ImportDeclaration.packageOnDemand? ↔
        other ∈ imports.filterMap ImportDeclaration.packageOnDemand? ∨
          (other ∈ packages ∧ Foldable imports threshold other) := by
  -- each package is folded before the others, which can be folded after it just if they could before
  induction packages generalizing imports with
  | nil => exact ⟨(List.filter_eq_self.2 (by simp)).symm, by simp⟩
  | cons package packages ih =>
    rw [List.nodup_cons] at nodup
    by_cases h : Foldable imports threshold package
    · have apart {other : String} (hmem : other ∈ packages) : other ≠ package := by
        rintro rfl
        exact nodup.1 hmem
      have same {other : String} (hmem : other ∈ packages) :=
        foldable_foldImports h (apart hmem)
      obtain ⟨single, demand⟩ := ih (foldImports imports package threshold) nodup.2
      refine ⟨?_, fun other => ?_⟩
      · rw [List.foldl_cons, single, filterMap_singleType?_foldImports h, List.filter_filter]
        congr 1
        funext entry
        rw [Bool.eq_iff_iff]
        simp only [Bool.and_eq_true, decide_eq_true_eq, List.forall_mem_cons, h, true_implies]
        rw [and_comm]
        exact and_congr_right fun _ => forall₂_congr fun other hmem => by rw [same hmem]
      · rw [List.foldl_cons, demand, mem_packageOnDemand?_foldImports h, List.mem_cons]
        constructor
        · rintro ((rfl | hother) | ⟨hmem, hother⟩)
          · exact .inr ⟨.inl rfl, h⟩
          · exact .inl hother
          · exact .inr ⟨.inr hmem, (same hmem).1 hother⟩
        · rintro (hother | ⟨rfl | hmem, hother⟩)
          · exact .inl (.inr hother)
          · exact .inl (.inl rfl)
          · exact .inr ⟨hmem, (same hmem).2 hother⟩
    · obtain ⟨single, demand⟩ := ih imports nodup.2
      rw [List.foldl_cons, foldImports_of_not_foldable h]
      refine ⟨?_, fun other => ?_⟩
      · rw [single]
        congr 1
        funext entry
        simp [h]
      · rw [demand, List.mem_cons]
        constructor
        · rintro (hother | ⟨hmem, hother⟩)
          · exact .inl hother
          · exact .inr ⟨.inr hmem, hother⟩
        · rintro (hother | ⟨rfl | hmem, hother⟩)
          · exact .inl hother
          · exact absurd hother h
          · exact .inr ⟨hmem, hother⟩

end Folding

/-! ## Plans -/

namespace ImportPlan

/-- **`plan.Folds unit threshold package`** — a type of the package is added, and then the imports of
the package are folded. -/
def Folds (plan : ImportPlan) (unit : CompilationUnit) (threshold : Nat) (package : String) : Prop :=
  package ∈ plan.addedPackages ∧ Foldable (plan.applyTo unit none).imports threshold package

/-- A package that gets an import is not the file's own one. -/
theorem Plans.package?_ne {plan : ImportPlan} {unit : CompilationUnit} (h : plan.Plans unit)
    {package : String} (mem : package ∈ plan.addedPackages) : unit.packageName ≠ some package := by
  rw [addedPackages, List.mem_eraseDups, List.mem_filterMap] at mem
  obtain ⟨type, htype, hq⟩ := mem
  obtain ⟨entry, hentry, rfl⟩ := List.mem_map.1 htype
  have hidden := h.hidden entry hentry
  rw [hq, isImplicit, Bool.or_eq_false_iff, Bool.or_eq_false_iff, decide_eq_false_iff_not,
    decide_eq_false_iff_not] at hidden
  rw [show unit.packageName = plan.package? from (congrArg ImportPlan.package? h.base).symm]
  exact hidden.1.2

end ImportPlan

/-- **`Unrivalled t package name`** — what a file makes visible offers no other type for the name than
that of a package on demand. -/
structure Unrivalled (t : SymbolTable) (package name : String) : Prop where
  imports : t.singleType.get? name = none
  own : ∀ own, t.package? = some own → t.catalog.contains (own ++ "." ++ name) = false
  onDemand : ∀ other ∈ t.onDemand, other ≠ package →
    t.catalog.contains (other ++ "." ++ name) = false

section Scopes

variable {t : SymbolTable} {package other name : String}

theorem append_dot_inj (simple : IsSimple name)
    (same : other ++ "." ++ name = package ++ "." ++ name) : other = package := by
  have := congrArg splitQualified same
  rw [splitQualified_append_dot _ simple, splitQualified_append_dot _ simple] at this
  exact Option.some.inj (congrArg Prod.fst this)

/-- **A name on demand** — a name that the file neither declares nor takes from its own package means
the type of a package on demand exactly if it has no rivals. -/
theorem resolveSimple_eq_iff_unrivalled (simple : IsSimple name) (nodup : t.onDemand.Nodup)
    (undeclared : t.declared.get? name = none) (demand : package ∈ t.onDemand)
    (known : t.catalog.contains (package ++ "." ++ name) = true)
    (foreign : t.package? ≠ some package)
    (gone : t.singleType.get? name ≠ some (package ++ "." ++ name)) :
    Scope.resolveSimple ⟨t, []⟩ name = some (package ++ "." ++ name) ↔
      Unrivalled t package name := by
  have hit : Scope.inPackage? ⟨t, []⟩ package name = some (package ++ "." ++ name) := if_pos known
  simp only [Scope.resolveSimple, undeclared, NameMap.get?, Option.orElse_eq_orElse,
    Option.orElse_eq_or, Option.none_or, Option.or_eq_some_iff]
  constructor
  · rintro (single | ⟨single, own | ⟨own, hits⟩⟩)
    · exact absurd single gone
    · -- the own package cannot have a type of that very name
      obtain ⟨p, hp, found⟩ := Option.bind_eq_some_iff.1 own
      have same := (Scope.inPackage?_eq_some found).1
      rw [append_dot_inj simple same.symm] at hp
      exact absurd hp foreign
    · refine ⟨single, fun p hp => ?_, fun other hother hne => ?_⟩
      · rw [hp, Option.bind_some, Scope.inPackage?] at own
        split at own
        · cases own
        · rename_i missing
          exact Bool.eq_false_iff.2 missing
      · refine Bool.eq_false_iff.2 fun found => hne ?_
        have second : other ++ "." ++ name ∈ Scope.onDemandHits ⟨t, []⟩ name :=
          List.mem_filterMap.2 ⟨other, hother, if_pos found⟩
        -- the name would be ambiguous with two hits
        split at hits
        · rename_i none
          rw [none] at second
          cases second
        · rw [only?_eq_some.1 hits, List.mem_singleton] at second
          exact append_dot_inj simple second
  · rintro ⟨single, own, others⟩
    refine .inr ⟨single, .inr ⟨?_, ?_⟩⟩
    · rw [Option.bind_eq_none_iff]
      intro p hp
      exact if_neg (by simp [own p hp])
    · have hits : Scope.onDemandHits ⟨t, []⟩ name = [package ++ "." ++ name] := by
        refine filterMap_eq_singleton nodup demand hit fun other hother found => ?_
        obtain ⟨type, found⟩ := Option.isSome_iff_exists.1 found
        obtain ⟨rfl, found⟩ := Scope.inPackage?_eq_some found
        by_cases same : other = package
        · exact same
        · rw [others other hother same] at found
          cases found
      rw [hits]
      rfl

end Scopes

/-! ## Names in a folded file -/

/-- A name with a package is made of that and the simple name. -/
theorem eq_append_dot_of_qualifierOf {type package : String} (h : qualifierOf type = some package) :
    IsSimple (simpleNameOf type) ∧ type = package ++ "." ++ simpleNameOf type := by
  rcases isSimple_or_append_dot type with simple | ⟨outer, x, simple, rfl⟩
  · rw [qualifierOf, splitQualified_of_isSimple simple] at h
    cases h
  · rw [qualifierOf, splitQualified_append_dot outer simple] at h
    rw [simpleNameOf, splitQualified_append_dot outer simple]
    cases h
    exact ⟨simple, rfl⟩

/-- An entry of the imports by name has the simple name of the type. -/
theorem eq_simpleNameOf_of_get? {u : CompilationUnit} {name type : String}
    (h : NameMap.get? u.singleTypes name = some type) : name = simpleNameOf type := by
  obtain ⟨i, -, hi⟩ := List.mem_filterMap.1 (NameMap.mem_of_get? h)
  unfold ImportDeclaration.singleType? at hi
  split at hi
  · cases hi
  · cases hi
    rfl

/-- **What folding does to a name** — a name that means a type of the catalog by the import of that
type keeps its meaning in the folded file, unless the package is folded and the name has rivals there;
and then it loses it. -/
theorem ImportPlan.resolveSimple_folded_iff (unit : CompilationUnit) (catalog : Catalog)
    (types : List String) (threshold : Nat) {name type : String} :
    let plan := types.foldl register (ofUnit unit)
    let inserted := SymbolTable.ofUnit (plan.applyTo unit none) catalog
    let folded := SymbolTable.ofUnit (plan.applyTo unit (some threshold)) catalog
    inserted.declared.get? name = none → inserted.singleType.get? name = some type →
    catalog.contains type = true →
    (Scope.resolveSimple ⟨folded, []⟩ name = some type ↔
      ∀ package, qualifierOf type = some package → plan.Folds unit threshold package →
        Unrivalled folded package name) := by
  intro plan inserted folded undeclared imported known
  have plans : plan.Plans unit := (Plans.ofUnit unit).registerAll types
  have nodup : plan.addedPackages.Nodup := nodup_eraseDups _
  obtain ⟨single, demand⟩ := foldl_foldImports (plan.applyTo unit none).imports threshold nodup
  change (plan.applyTo unit (some threshold)).singleTypes = _ at single
  simp only [inserted, SymbolTable.ofUnit, NameMap.get?_firstOfEach] at imported
  have undeclared : folded.declared.get? name = none := undeclared
  have gone : (∃ package, qualifierOf type = some package ∧ plan.Folds unit threshold package) →
      folded.singleType.get? name ≠ some type := by
    rintro ⟨package, hq, hmem, foldable⟩ left
    simp only [folded, SymbolTable.ofUnit, NameMap.get?_firstOfEach] at left
    have mem := NameMap.mem_of_get? left
    rw [show List.filterMap _ _ = _ from single, List.mem_filter, decide_eq_true_eq] at mem
    have outside := mem.2 package hmem foldable
    simp [DeferFetch.outside, hq] at outside
  -- with its own import gone, the name can only come from the package on demand
  by_cases folds : ∃ package, qualifierOf type = some package ∧ plan.Folds unit threshold package
  · have gone := gone folds
    obtain ⟨package, hq, hmem, foldable⟩ := folds
    obtain rfl : name = simpleNameOf type := eq_simpleNameOf_of_get? imported
    obtain ⟨simple, whole⟩ := eq_append_dot_of_qualifierOf hq
    have gone : folded.singleType.get? (simpleNameOf type) ≠
        some (package ++ "." ++ simpleNameOf type) :=
      fun left => gone (left.trans (congrArg some whole.symm))
    have foreign : folded.package? ≠ some package := by
      have := plans.package?_ne hmem
      rwa [← CompilationUnit.foldl_insertImport CompilationUnit.packageName
        CompilationUnit.packageName_insertImport plan.addedTypes unit] at this
    have visible : package ∈ folded.onDemand :=
      List.mem_eraseDups.2 ((demand package).2 (.inr ⟨hmem, foldable⟩))
    rw [whole] at known
    have iff := resolveSimple_eq_iff_unrivalled simple (nodup_eraseDups _) undeclared visible
      known foreign gone
    rw [← whole] at iff
    rw [iff]
    constructor
    · intro unrivalled other hother _
      rw [hq] at hother
      cases hother
      exact unrivalled
    · intro h
      exact h package hq ⟨hmem, foldable⟩
  · -- the import of the type is still there, and nothing comes before it
    have kept : folded.singleType.get? name = some type := by
      simp only [folded, SymbolTable.ofUnit, NameMap.get?_firstOfEach]
      rw [show List.filterMap _ _ = _ from single]
      refine NameMap.get?_filter _ imported ?_
      rw [decide_eq_true_eq]
      intro package hmem foldable
      rw [outside, decide_eq_true_eq]
      exact fun hq => folds ⟨package, hq, hmem, foldable⟩
    refine iff_of_true ?_ fun package hq h => absurd ⟨package, hq, h⟩ folds
    simp [Scope.resolveSimple, undeclared, kept]

/-- Nothing else in this file offers the name `X`, so it means the type of the folded package. -/
theorem ImportPlan.resolveSimple_of_folded_import :
    let unit : CompilationUnit := ⟨none, [.ofType "a.X"], [], .synthetic .eof⟩
    let catalog : Catalog := .registerAll ⟨[]⟩ [.ofClass "a.X", .ofClass "a.Y"]
    let plan := ["a.Y"].foldl register (ofUnit unit)
    (plan.applyTo unit (some 2)).imports.map ImportDeclaration.source = ["import a.*;"] ∧
      Scope.resolveSimple ⟨.ofUnit (plan.applyTo unit (some 2)) catalog, []⟩ "X" = some "a.X" := by
  refine ⟨by decide, (ImportPlan.resolveSimple_folded_iff _ _ ["a.Y"] 2 (by decide) (by decide)
    (by decide)).2 ?_⟩
  intro package hq _
  obtain rfl : "a" = package :=
    Option.some.inj ((show qualifierOf "a.X" = some "a" by decide).symm.trans hq)
  exact ⟨by decide, nofun, by decide⟩

/-- **Folding can take a name its meaning** — in this file `FetchType` is ambiguous between two
packages on demand, so it is imported, and then the import is folded to a third one. -/
theorem ImportPlan.folding_makes_ambiguous :
    let source := "import jakarta.persistence.OneToOne;\nimport q.*;\nimport r.*;\n" ++
      "class A \x7b\n  @OneToOne B b;\n\x7d\n"
    ((parseUnit source).toExcept.toOption.map fun unit =>
        let catalog := (Catalog.persistence .jakarta).registerAll
          [.ofClass "q.FetchType", .ofClass "r.FetchType"]
        let plan := ["jakarta.persistence.FetchType"].foldl register (ofUnit unit)
        let inserted := SymbolTable.ofUnit (plan.applyTo unit none) catalog
        let folded := SymbolTable.ofUnit (plan.applyTo unit (some 1)) catalog
        (inserted.declared.get? "FetchType", inserted.singleType.get? "FetchType",
          catalog.contains "jakarta.persistence.FetchType",
          Scope.resolveSimple ⟨inserted, []⟩ "FetchType",
          Scope.resolveSimple ⟨folded, []⟩ "FetchType")) =
    some (none, some "jakarta.persistence.FetchType", true, some "jakarta.persistence.FetchType",
      none) := by
  decide +kernel

end DeferFetch
