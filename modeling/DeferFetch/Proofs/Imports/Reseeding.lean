/-
# DeferFetch.Proofs.Imports.Reseeding — planning from the written file instead of the plan.

A plan remembers what it adds to a file. Here is shown that the file remembers it as well: a plan made
anew from the file with the new imports answers every registration as the old plan does, and after
folding it still knows every type that was added.
-/
import Mathlib.Data.List.Nodup
import DeferFetch.Proofs.Imports.Folding

namespace DeferFetch

/-! ## What a file needs imports for -/

/-- **`u.NeedsImport type`** — a file that is to name a type by its simple name has to import it, and
can: nothing is imported under that name, and the type is of a package that is not visible. -/
structure CompilationUnit.NeedsImport (u : CompilationUnit) (type : String) : Prop where
  unimported : ∀ entry ∈ u.singleTypes, entry.1 ≠ simpleNameOf type
  hidden : ∃ package, qualifierOf type = some package ∧ package ≠ "java.lang" ∧
    u.packageName ≠ some package ∧
    package ∉ u.imports.filterMap ImportDeclaration.packageOnDemand?

namespace NameMap

variable {α : Type} {m : NameMap α} {name : String}

theorem get?_eq_none_iff : m.get? name = none ↔ ∀ entry ∈ m, entry.1 ≠ name := by
  constructor
  · intro missing entry hentry same
    exact not_mem_of_get?_eq_none missing (List.mem_map.2 ⟨entry, hentry, same⟩)
  · intro absent
    cases found : m.get? name with
    | none => rfl
    | some a => exact absurd rfl (absent _ (mem_of_get? found))

end NameMap

namespace ImportPlan

variable {unit : CompilationUnit} {p q : ImportPlan} {name type : String}

theorem imported?_ofUnit (unit : CompilationUnit) (simple : String) :
    (ofUnit unit).imported? simple = NameMap.get? unit.singleTypes simple := by
  simp only [imported?, ofUnit, NameMap.get?_firstOfEach, NameMap.get?, Option.orElse_eq_orElse,
    Option.orElse_eq_or, Option.or_none]
  rfl

/-- A plan without additions takes exactly the types that the file needs imports for. -/
theorem outcome_ofUnit_eq_added : (ofUnit unit).outcome type = .added ↔ unit.NeedsImport type := by
  constructor
  · intro added
    unfold outcome at added
    rw [imported?_ofUnit] at added
    split at added
    · split at added <;> cases added
    · rename_i missing
      split at added
      · cases added
      rename_i hidden
      -- no other outcome is left: the name is neither imported nor implicit
      refine ⟨NameMap.get?_eq_none_iff.1 missing, ?_⟩
      cases hq : qualifierOf type with
      | none => exact absurd rfl (hq ▸ hidden)
      | some package =>
        rw [hq, isImplicit] at hidden
        simp only [ofUnit, Bool.or_eq_true, decide_eq_true_eq, List.contains_iff_mem,
          List.mem_eraseDups, not_or] at hidden
        obtain ⟨⟨lang, own⟩, demand⟩ := hidden
        exact ⟨package, rfl, lang, of_decide_eq_false (Bool.eq_false_iff.2 own), demand⟩
  · rintro ⟨unimported, package, hq, lang, own, demand⟩
    have hidden : (ofUnit unit).isImplicit (qualifierOf type) = false := by
      rw [hq, isImplicit]
      simp only [ofUnit, Bool.or_eq_false_iff, decide_eq_false_iff_not]
      refine ⟨⟨lang, decide_eq_false own⟩, Bool.eq_false_iff.2 fun mem => demand ?_⟩
      rwa [List.contains_iff_mem, List.mem_eraseDups] at mem
    rw [outcome, imported?_ofUnit, NameMap.get?_eq_none_iff.2 unimported, hidden]
    rfl

/-- The types that a plan adds are types that the file needs imports for. -/
theorem Plans.needsImport (h : p.Plans unit) (mem : type ∈ p.addedTypes) :
    unit.NeedsImport type := by
  obtain ⟨entry, hentry, rfl⟩ := List.mem_map.1 mem
  rw [← outcome_ofUnit_eq_added, ← h.base, outcome]
  have free : imported? { p with added := [] } (simpleNameOf entry.2) = none := by
    rw [← h.named entry hentry, imported?, h.free entry hentry]
    rfl
  have hidden : isImplicit { p with added := [] } (qualifierOf entry.2) = false :=
    h.hidden entry hentry
  rw [free, hidden]
  rfl

theorem Plans.nodup_simpleNames (h : p.Plans unit) : (p.addedTypes.map simpleNameOf).Nodup := by
  have same : p.addedTypes.map simpleNameOf = p.added.map Prod.fst := by
    rw [addedTypes, List.map_map]
    exact List.map_congr_left fun entry hentry => (h.named entry hentry).symm
  rw [same]
  exact h.nodup

/-! ## Registering several types -/

/-- **`p.outcomes names`** — what registering types one after the other comes to, each of them with
those before it registered. -/
def outcomes (p : ImportPlan) : List String → List ImportOutcome
  | [] => []
  | name :: names => p.outcome name :: (p.register name).outcomes names

theorem addedTypes_register : (p.register name).addedTypes =
    p.addedTypes ++ if p.outcome name = .added then [name] else [] := by
  unfold register
  cases p.outcome name <;> simp [addedTypes]

/-- **The types that a plan adds are those for which it said so** — in the order of their
registration. -/
theorem addedTypes_foldl_register (p : ImportPlan) (names : List String) :
    (names.foldl register p).addedTypes = p.addedTypes ++
      ((names.zip (p.outcomes names)).filter (·.2 = .added)).map Prod.fst := by
  induction names generalizing p with
  | nil => simp
  | cons name names ih =>
    rw [List.foldl_cons, ih, addedTypes_register, outcomes, List.zip_cons_cons, List.filter_cons]
    by_cases added : p.outcome name = .added <;> simp [added]

/-- A type is taken at most once, since the types that a plan adds have names of their own. -/
theorem count_outcomes_le_one (unit : CompilationUnit) (names : List String) (type : String) :
    (names.zip ((ofUnit unit).outcomes names)).count (type, .added) ≤ 1 := by
  have plans : (names.foldl register (ofUnit unit)).Plans unit :=
    (Plans.ofUnit unit).registerAll names
  have nodup : (names.foldl register (ofUnit unit)).addedTypes.Nodup :=
    List.Nodup.of_map _ plans.nodup_simpleNames
  rw [addedTypes_foldl_register] at nodup
  calc (names.zip ((ofUnit unit).outcomes names)).count (type, .added)
    _ = ((names.zip ((ofUnit unit).outcomes names)).filter (·.2 = .added)).count
          (type, .added) := (List.count_filter (by simp)).symm
    _ ≤ (((names.zip ((ofUnit unit).outcomes names)).filter (·.2 = .added)).map Prod.fst).count
          type := List.count_le_count_map (f := Prod.fst) (x := (type, ImportOutcome.added))
    _ ≤ 1 := List.nodup_iff_count_le_one.1 (List.nodup_append.1 nodup).2.1 type

/-! ## Plans that answer alike -/

/-- **`p.Alike q`** — two plans know the same types under each simple name, and the same packages are
visible to them. -/
structure Alike (p q : ImportPlan) : Prop where
  imported : ∀ simple, p.imported? simple = q.imported? simple
  implicit : ∀ package?, p.isImplicit package? = q.isImplicit package?

theorem isImplicit_register (p : ImportPlan) (name : String) (package? : Option String) :
    (p.register name).isImplicit package? = p.isImplicit package? := by
  unfold register
  split <;> rfl

theorem imported?_register (p : ImportPlan) (name simple : String) :
    (p.register name).imported? simple =
      (p.imported? simple <|>
        if p.outcome name = .added then NameMap.get? [(simpleNameOf name, name)] simple
        else none) := by
  unfold register
  cases p.outcome name with
  | added =>
    simp only [imported?, NameMap.get?_append, Option.orElse_eq_orElse, Option.orElse_eq_or,
      Option.or_assoc, if_true]
  | _ => simp

namespace Alike

theorem outcome (h : p.Alike q) (name : String) : p.outcome name = q.outcome name := by
  rw [ImportPlan.outcome, ImportPlan.outcome, h.imported, h.implicit]

theorem register (h : p.Alike q) (name : String) : (p.register name).Alike (q.register name) where
  imported simple := by rw [imported?_register, imported?_register, h.imported, h.outcome]
  implicit package? := by rw [isImplicit_register, isImplicit_register, h.implicit]

/-- Plans that answer alike go on doing so. -/
theorem outcomes (h : p.Alike q) (names : List String) : p.outcomes names = q.outcomes names := by
  induction names generalizing p q with
  | nil => rfl
  | cons name names ih =>
    rw [ImportPlan.outcomes, ImportPlan.outcomes, h.outcome name, ih (h.register name)]

end Alike

/-- **A plan made anew from the file with the new imports answers as the old one does.** -/
theorem Plans.alike (h : p.Plans unit) :
    ImportPlan.Alike (ImportPlan.ofUnit (p.applyTo unit none)) p where
  imported simple := by
    have agree := (h.agree ⟨[]⟩).imported? simple
    have single : p.singleType = .firstOfEach unit.singleTypes :=
      congrArg ImportPlan.singleType h.base
    simp only [Scope.imported?, SymbolTable.ofUnit] at agree
    rw [ImportPlan.imported?, ImportPlan.imported?, single]
    exact agree
  implicit package? := by
    have agree := h.agree ⟨[]⟩
    have package : p.package? = unit.packageName := congrArg ImportPlan.package? h.base
    have demand : p.onDemand = (SymbolTable.ofUnit unit ⟨[]⟩).onDemand :=
      congrArg ImportPlan.onDemand h.base
    have own : (p.applyTo unit none).packageName = p.package? := agree.package?.trans package.symm
    have visible : (ImportPlan.ofUnit (p.applyTo unit none)).onDemand = p.onDemand :=
      agree.onDemand.trans demand.symm
    cases package? with
    | none => rfl
    | some package =>
      rw [isImplicit, isImplicit, visible, ← own]
      rfl

end ImportPlan

/-! ## After folding -/

namespace CompilationUnit

/-- What the imports of a file name after some were inserted, in whichever places. -/
theorem mem_singleTypes_foldl (types : List String) (u : CompilationUnit)
    (entry : String × String) : entry ∈ (types.foldl insertImport u).singleTypes ↔
      entry ∈ u.singleTypes ∨ ∃ type ∈ types, entry = (simpleNameOf type, type) := by
  induction types generalizing u with
  | nil => simp
  | cons type types ih =>
    obtain ⟨before, after, old, new⟩ := u.singleTypes_insertImport type
    have one : entry ∈ (u.insertImport type).singleTypes ↔
        entry ∈ u.singleTypes ∨ entry = (simpleNameOf type, type) := by
      rw [old, new, List.mem_append, List.mem_append, List.mem_cons]
      exact or_left_comm.trans or_comm
    rw [List.foldl_cons, ih, one, or_assoc]
    simp only [List.exists_mem_cons_iff]

end CompilationUnit

namespace ImportPlan

variable {unit : CompilationUnit} {plan : ImportPlan} {type : String}

/-- The written file imports no other type under the simple name of one that was added. -/
theorem Plans.eq_of_mem_singleTypes (h : plan.Plans unit) (mem : type ∈ plan.addedTypes)
    {other : String}
    (hother : (simpleNameOf type, other) ∈ (plan.applyTo unit none).singleTypes) :
    other = type := by
  rcases (CompilationUnit.mem_singleTypes_foldl _ _ _).1 hother with old | ⟨added, hadded, same⟩
  · exact absurd rfl ((h.needsImport mem).unimported _ old)
  · rw [Prod.mk.injEq] at same
    rw [same.2]
    exact (List.inj_on_of_nodup_map h.nodup_simpleNames mem hadded same.1).symm

theorem Plans.mem_singleTypes (mem : type ∈ plan.addedTypes) :
    (simpleNameOf type, type) ∈ (plan.applyTo unit none).singleTypes :=
  (CompilationUnit.mem_singleTypes_foldl _ _ _).2 (.inr ⟨type, mem, rfl⟩)

/-- The imports by name of a folded file. -/
theorem mem_singleTypes_folded (plan : ImportPlan) (unit : CompilationUnit) (threshold : Nat)
    (entry : String × String) :
    entry ∈ (plan.applyTo unit (some threshold)).singleTypes ↔
      entry ∈ (plan.applyTo unit none).singleTypes ∧
        ∀ package, qualifierOf entry.2 = some package → ¬ plan.Folds unit threshold package := by
  have nodup : plan.addedPackages.Nodup := nodup_eraseDups _
  have single : (plan.applyTo unit (some threshold)).singleTypes = _ :=
    (foldl_foldImports (plan.applyTo unit none).imports threshold nodup).1
  rw [single, List.mem_filter, decide_eq_true_eq]
  refine and_congr_right fun _ => ?_
  constructor
  · intro apart package hq folds
    have away := apart package folds.1 folds.2
    rw [outside, decide_eq_true_eq] at away
    exact away hq
  · intro apart package hmem foldable
    rw [outside, decide_eq_true_eq]
    exact fun hq => apart package hq ⟨hmem, foldable⟩

/-- **What a folded file knows of an added type** — it imports the type, unless it has the package of
the type on demand now. -/
theorem Plans.outcome_folded (h : plan.Plans unit) (threshold : Nat) (mem : type ∈ plan.addedTypes)
    {package : String} (hq : qualifierOf type = some package) :
    (plan.Folds unit threshold package →
        (ImportPlan.ofUnit (plan.applyTo unit (some threshold))).outcome type = .implicit) ∧
      (¬ plan.Folds unit threshold package →
        (ImportPlan.ofUnit (plan.applyTo unit (some threshold))).outcome type =
          .alreadyImported) := by
  -- under the simple name, the folded file can import nothing but the type
  have only {other : String}
      (hother : (simpleNameOf type, other) ∈ (plan.applyTo unit (some threshold)).singleTypes) :
      other = type :=
    h.eq_of_mem_singleTypes mem ((mem_singleTypes_folded plan unit threshold _).1 hother).1
  constructor
  · intro folds
    have missing : NameMap.get? (plan.applyTo unit (some threshold)).singleTypes
        (simpleNameOf type) = none := by
      rw [Option.eq_none_iff_forall_ne_some]
      intro other found
      have hother := NameMap.mem_of_get? found
      obtain rfl := only hother
      exact ((mem_singleTypes_folded plan unit threshold _).1 hother).2 package hq folds
    have visible : package ∈ (ImportPlan.ofUnit (plan.applyTo unit (some threshold))).onDemand :=
      List.mem_eraseDups.2 (((foldl_foldImports (plan.applyTo unit none).imports threshold
        (nodup_eraseDups _)).2 package).2 (.inr folds))
    have implicit : (ImportPlan.ofUnit (plan.applyTo unit (some threshold))).isImplicit
        (some package) = true := by
      rw [isImplicit, Bool.or_eq_true]
      exact .inr (List.contains_iff_mem.2 visible)
    rw [outcome, imported?_ofUnit, missing, hq, implicit]
    rfl
  · intro kept
    have written : (simpleNameOf type, type) ∈
        (plan.applyTo unit (some threshold)).singleTypes := by
      refine (mem_singleTypes_folded plan unit threshold _).2 ⟨mem_singleTypes mem, ?_⟩
      intro other hother folds
      obtain rfl : package = other := Option.some.inj (hq.symm.trans hother)
      exact kept folds
    cases found : NameMap.get? (plan.applyTo unit (some threshold)).singleTypes
        (simpleNameOf type) with
    | none => exact absurd rfl (NameMap.get?_eq_none_iff.1 found _ written)
    | some other =>
      obtain rfl := only (NameMap.mem_of_get? found)
      rw [outcome, imported?_ofUnit, found]
      exact if_pos rfl

/-- **A plan can be made anew from the file it is for** — whatever types are registered one after the
other, those that are added have simple names of their own, the file needed an import for each of them,
and none is taken twice. A plan made from the file with the new imports answers all later registrations
as the old plan does, and one made from the folded file knows every added type. -/
theorem planned_and_reseeded (unit : CompilationUnit) (names : List String) :
    let plan := names.foldl register (ofUnit unit)
    (plan.addedTypes.map simpleNameOf).Nodup ∧
      (∀ type ∈ plan.addedTypes, unit.NeedsImport type) ∧
      (∀ type, (names.zip ((ofUnit unit).outcomes names)).count (type, .added) ≤ 1) ∧
      (∀ later, (ofUnit (plan.applyTo unit none)).outcomes later = plan.outcomes later) ∧
      ∀ threshold, ∀ type ∈ plan.addedTypes,
        let folded := ofUnit (plan.applyTo unit (some threshold))
        folded.outcome type = .alreadyImported ∨ folded.outcome type = .implicit := by
  intro plan
  have plans : plan.Plans unit := (Plans.ofUnit unit).registerAll names
  refine ⟨plans.nodup_simpleNames, fun type => plans.needsImport, count_outcomes_le_one unit names,
    plans.alike.outcomes, ?_⟩
  intro threshold type mem
  obtain ⟨package, hq, -⟩ := (plans.needsImport mem).hidden
  have known := plans.outcome_folded threshold mem hq
  by_cases folds : plan.Folds unit threshold package
  · exact .inr (known.1 folds)
  · exact .inl (known.2 folds)

end ImportPlan

end DeferFetch
