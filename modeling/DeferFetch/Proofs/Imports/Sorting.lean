/-
# DeferFetch.Proofs.Imports.Sorting — a new import joins the nearest ones, in alphabetical order.

The nearest imports of a type are those, static ones aside, that share the most leading segments with
its package (`Nearest`); they need not stand together. Where a new import goes among the others is said
once, by what stands before and after it (`Place`). So it comes beside one of the nearest, and if these
stood in alphabetical order, they do so with it (`Joins`). Every insertion of a plan is of this kind, in
the list as the ones before have left it (`joins_applyTo`).
-/
import Mathlib.Data.String.Basic
import DeferFetch.Proofs.Imports.Insertion

namespace DeferFetch

/-! ## Shared segments -/

/-- The segments of the name of a package; there are none without a name. -/
def segments (package? : Option String) : List String := (package?.map parts).getD []

/-- **`Share n a b`** — two packages begin with the same `n` segments. -/
def Share (n : Nat) (a b : Option String) : Prop :=
  ∃ common : List String, common.length = n ∧ common <+: segments a ∧ common <+: segments b

theorem le_commonLength {n : Nat} {xs ys : List String} : n ≤ commonLength xs ys ↔
    ∃ common : List String, common.length = n ∧ common <+: xs ∧ common <+: ys := by
  induction n generalizing xs ys with
  | zero => simp
  | succ n ih =>
    cases xs with
    | nil => simp [commonLength]
    | cons x xs =>
      cases ys with
      | nil => simp [commonLength]
      | cons y ys =>
        rw [commonLength]
        constructor
        · intro h
          split at h
          · rename_i same
            obtain ⟨common, rfl, hx, hy⟩ := ih.1 (Nat.le_of_succ_le_succ h)
            exact ⟨x :: common, rfl, List.cons_prefix_cons.2 ⟨rfl, hx⟩,
              List.cons_prefix_cons.2 ⟨same, hy⟩⟩
          · cases h
        · rintro ⟨_ | ⟨z, common⟩, length, hx, hy⟩
          · cases length
          · obtain ⟨rfl, inX⟩ := List.cons_prefix_cons.1 hx
            obtain ⟨rfl, inY⟩ := List.cons_prefix_cons.1 hy
            rw [if_pos rfl]
            exact Nat.succ_le_succ (ih.2 ⟨common, Nat.succ.inj length, inX, inY⟩)

theorem share_iff {n : Nat} {a b : Option String} : Share n a b ↔ n ≤ sharedSegments a b := by
  have segmentwise : sharedSegments a b = commonLength (segments a) (segments b) := by
    cases a <;> cases b <;> simp [sharedSegments, segments, parts, commonLength]
  rw [segmentwise, le_commonLength]
  rfl

/-! ## The nearest imports -/

section Nearest

variable {imports : List ImportDeclaration} {package? : Option String} {i j : ImportDeclaration}

/-- **`Nearest imports package i`** — the import is not static, and shares as many leading segments
with the package as any that is not. -/
def Nearest (imports : List ImportDeclaration) (package? : Option String) (i : ImportDeclaration) :
    Prop :=
  i.isStatic = false ∧ ∀ j ∈ imports, j.isStatic = false →
    ∀ n, Share n j.filedUnder package? → Share n i.filedUnder package?

theorem nearest_iff : Nearest imports package? i ↔ i.isStatic = false ∧
    ∀ j ∈ imports, j.isStatic = false →
      sharedSegments j.filedUnder package? ≤ sharedSegments i.filedUnder package? := by
  simp only [Nearest, share_iff]
  refine and_congr_right fun _ => forall₃_congr fun j _ _ => ?_
  exact ⟨fun h => h _ le_rfl, fun h n shared => shared.trans h⟩

instance : DecidablePred (Nearest imports package?) := fun _ => decidable_of_iff _ nearest_iff.symm

theorem ImportDeclaration.filedUnder_congr (h : i.outline = j.outline) : i.filedUnder = j.filedUnder := by
  simp only [outline, ImportOutline.mk.injEq] at h
  simp only [filedUnder, h.2.1, h.2.2]

theorem Nearest.congr (h : i.outline = j.outline) :
    Nearest imports package? i ↔ Nearest imports package? j := by
  have static : i.isStatic = j.isStatic := congrArg ImportOutline.isStatic h
  rw [Nearest, Nearest, static, ImportDeclaration.filedUnder_congr h]

theorem largest?_eq_some_iff {ns : List (Option Nat)} {best : Nat} :
    largest? ns = some best ↔ some best ∈ ns ∧ ∀ n, some n ∈ ns → n ≤ best := by
  simp [largest?, List.max?_eq_some_iff]

theorem nearness?_eq_some_iff {n : Nat} : i.nearness? package? = some n ↔
    i.isStatic = false ∧ sharedSegments i.filedUnder package? = n := by
  unfold ImportDeclaration.nearness?
  cases i.isStatic <;> simp

/-- The nearest imports are those with the largest score. -/
theorem nearest_iff_largest (mem : i ∈ imports) : Nearest imports package? i ↔
    ∃ best, largest? (imports.map (·.nearness? package?)) = some best ∧
      i.nearness? package? = some best := by
  simp only [largest?_eq_some_iff, nearest_iff, nearness?_eq_some_iff, List.mem_map]
  constructor
  · rintro ⟨dynamic, most⟩
    refine ⟨_, ⟨⟨i, mem, dynamic, rfl⟩, ?_⟩, dynamic, rfl⟩
    rintro n ⟨j, hj, dynamic', rfl⟩
    exact most j hj dynamic'
  · rintro ⟨best, ⟨-, most⟩, dynamic, rfl⟩
    exact ⟨dynamic, fun j hj dynamic' => most _ ⟨j, hj, dynamic', rfl⟩⟩

/-- Of imports that are not all static, one is nearest. -/
theorem exists_nearest (mem : i ∈ imports) (dynamic : i.isStatic = false) :
    ∃ j ∈ imports, Nearest imports package? j := by
  cases top : largest? (imports.map (·.nearness? package?)) with
  | none =>
    have score : some (sharedSegments i.filedUnder package?) ∈ imports.map (·.nearness? package?) :=
      List.mem_map.2 ⟨i, mem, nearness?_eq_some_iff.2 ⟨dynamic, rfl⟩⟩
    rw [largest?, List.max?_eq_none_iff, List.filterMap_eq_nil_iff] at top
    cases top _ score
  | some best =>
    obtain ⟨j, hj, score⟩ := List.mem_map.1 (largest?_eq_some_iff.1 top).1
    exact ⟨j, hj, (nearest_iff_largest hj).2 ⟨best, top, score⟩⟩

/-- At just the positions of the nearest imports one of them is found. -/
theorem mem_nearest {k : Nat} : k ∈ nearest imports package? ↔
    ∃ i, imports[k]? = some i ∧ Nearest imports package? i := by
  have scored : k ∈ nearest imports package? ↔ ∃ best,
      largest? (imports.map (·.nearness? package?)) = some best ∧
        (imports.map (·.nearness? package?))[k]? = some (some best) := by
    rw [nearest]
    cases largest? (imports.map (·.nearness? package?)) with
    | none => simp
    | some best =>
      simp only [List.mem_filter, List.mem_range, decide_eq_true_eq, Option.some.injEq,
        exists_eq_left', and_iff_right_iff_imp]
      intro score
      have inside := (List.getElem?_eq_some_iff.1 score).1
      rwa [List.length_map] at inside
  rw [scored]
  constructor
  · rintro ⟨best, top, score⟩
    rw [List.getElem?_map, Option.map_eq_some_iff] at score
    obtain ⟨i, found, score⟩ := score
    exact ⟨i, found, (nearest_iff_largest (List.mem_of_getElem? found)).2 ⟨best, top, score⟩⟩
  · rintro ⟨i, found, near⟩
    obtain ⟨best, top, score⟩ := (nearest_iff_largest (List.mem_of_getElem? found)).1 near
    exact ⟨best, top, by rw [List.getElem?_map, found, Option.map_some, score]⟩

theorem nearest_ascending : (nearest imports package?).Pairwise (· < ·) := by
  rw [nearest]
  cases largest? (imports.map (·.nearness? package?)) with
  | none => exact .nil
  | some best => exact List.pairwise_lt_range.filter _

end Nearest

/-! ## The place of a new import -/

/-- A list is cut at an element: those at lower positions stand before it, those at higher ones after. -/
theorem exists_split {α : Type} {xs : List α} {k : Nat} {x : α} (found : xs[k]? = some x) :
    ∃ earlier later, xs = earlier ++ x :: later ∧ earlier.length = k ∧
      (∀ y ∈ earlier, ∃ m < k, xs[m]? = some y) ∧ ∀ y ∈ later, ∃ m, k < m ∧ xs[m]? = some y := by
  obtain ⟨inside, rfl⟩ := List.getElem?_eq_some_iff.1 found
  refine ⟨xs.take k, xs.drop (k + 1), ?_, ?_, fun y hy => ?_, fun y hy => ?_⟩
  · rw [← List.drop_eq_getElem_cons, List.take_append_drop]
  · rw [List.length_take]
    omega
  · obtain ⟨m, below, rfl⟩ := List.mem_take_iff_getElem.1 hy
    exact ⟨m, by omega, List.getElem?_eq_getElem _⟩
  · obtain ⟨m, below, rfl⟩ := List.mem_drop_iff_getElem.1 hy
    exact ⟨k + 1 + m, by omega, List.getElem?_eq_getElem _⟩

/-- **`Place imports name place`** — what it takes for a new import to go to a place: all the nearest
imports that come earlier in the alphabet, and only those, stand before it up to the first that does
not; it stands directly before that one, or else directly after the last of them. -/
inductive Place (imports : List ImportDeclaration) (name : String) : ImportPlace → Prop where
  | before (earlier : List ImportDeclaration) (i : ImportDeclaration) (later : List ImportDeclaration)
      (split : imports = earlier ++ i :: later) (near : Nearest imports (qualifierOf name) i)
      (less : name < i.importedName)
      (others : ∀ j ∈ earlier, Nearest imports (qualifierOf name) j → j.importedName ≤ name) :
      Place imports name (.before earlier.length)
  | after (earlier : List ImportDeclaration) (i : ImportDeclaration) (later : List ImportDeclaration)
      (split : imports = earlier ++ i :: later) (near : Nearest imports (qualifierOf name) i)
      (others : ∀ j ∈ earlier ++ [i], Nearest imports (qualifierOf name) j → j.importedName ≤ name)
      (far : ∀ j ∈ later, ¬ Nearest imports (qualifierOf name) j) :
      Place imports name (.after earlier.length)
  | first (far : ∀ j ∈ imports, ¬ Nearest imports (qualifierOf name) j) :
      Place imports name (.before 0)

theorem place_placeFor (imports : List ImportDeclaration) (name : String) :
    Place imports name (placeFor imports name) := by
  have ascending : (nearest imports (qualifierOf name)).Pairwise (· < ·) := nearest_ascending
  unfold placeFor
  simp only
  cases later : (nearest imports (qualifierOf name)).find? fun k =>
      imports[k]?.any fun other => name < other.importedName with
  | some k =>
    obtain ⟨isLater, front, back, whole, notLater⟩ := List.find?_eq_some_iff_append.1 later
    obtain ⟨i, found, near⟩ := mem_nearest.1 (List.mem_of_find?_eq_some later)
    obtain ⟨earlier, rest, split, rfl, below, -⟩ := exists_split found
    rw [found, Option.any_some, decide_eq_true_eq] at isLater
    refine .before earlier i rest split near isLater fun j hj nearJ => ?_
    -- a nearest one before it has been looked at already
    obtain ⟨m, less, foundJ⟩ := below j hj
    have listed := mem_nearest.2 ⟨j, foundJ, nearJ⟩
    rw [whole] at ascending listed
    have passed : m ∈ front := by
      rw [List.mem_append, List.mem_cons] at listed
      rcases listed with front | rfl | back
      · exact front
      · exact absurd less (Nat.lt_irrefl _)
      · have := (List.pairwise_cons.1 (List.pairwise_append.1 ascending).2.1).1 m back
        omega
    have := notLater m passed
    rw [foundJ, Option.any_some, Bool.not_eq_true', decide_eq_false_iff_not] at this
    exact le_of_not_gt this
  | none =>
    have notLater {m : Nat} {j : ImportDeclaration} (found : imports[m]? = some j)
        (near : Nearest imports (qualifierOf name) j) : j.importedName ≤ name := by
      have := List.find?_eq_none.1 later m (mem_nearest.2 ⟨j, found, near⟩)
      rw [found, Option.any_some, decide_eq_true_eq] at this
      exact le_of_not_gt this
    cases last : (nearest imports (qualifierOf name)).getLast? with
    | some k =>
      obtain ⟨front, whole⟩ := List.getLast?_eq_some_iff.1 last
      obtain ⟨i, found, near⟩ := mem_nearest.1 (List.mem_of_getLast? last)
      obtain ⟨earlier, rest, split, rfl, below, above⟩ := exists_split found
      refine .after earlier i rest split near ?_ fun j hj nearJ => ?_
      · refine List.forall_mem_append.2 ⟨fun j hj nearJ => ?_, ?_⟩
        · obtain ⟨m, -, foundJ⟩ := below j hj
          exact notLater foundJ nearJ
        · exact List.forall_mem_singleton.2 (notLater found)
      · -- no position of a nearest one comes after the last of them
        obtain ⟨m, more, foundJ⟩ := above j hj
        have listed := mem_nearest.2 ⟨j, foundJ, nearJ⟩
        rw [whole] at ascending listed
        rcases List.mem_append.1 listed with front | last
        · have := (List.pairwise_append.1 ascending).2.2 m front _ (List.mem_singleton_self _)
          omega
        · rw [List.mem_singleton] at last
          omega
    | none =>
      refine .first fun j hj near => ?_
      obtain ⟨m, found⟩ := List.mem_iff_getElem?.1 hj
      have listed := mem_nearest.2 ⟨j, found, near⟩
      rw [List.getLast?_eq_none_iff.1 last] at listed
      cases listed

/-! ## Joining the nearest imports -/

/-- The names of the nearest imports among some of them, in their order. -/
def nearestNames (imports : List ImportDeclaration) (package? : Option String)
    (among : List ImportDeclaration) : List String :=
  among.filterMap fun i => if Nearest imports package? i then some i.importedName else none

/-- **`Joins imports name imports' before fresh after after'`** — the import of a type has been put
between those before and those after it, which may have got other text between them. It is beside one
of the nearest, and if their names were in ascending order, they are so with its own. Without nearest
ones, as when all are static, it comes first. -/
structure Joins (imports : List ImportDeclaration) (name : String) (imports' : List ImportDeclaration)
    (before : List ImportDeclaration) (fresh : ImportDeclaration)
    (after after' : List ImportDeclaration) : Prop where
  old : imports = before ++ after
  new : imports' = before ++ fresh :: after'
  outline : fresh.outline = ⟨false, false, name⟩
  kept : after'.map ImportDeclaration.outline = after.map ImportDeclaration.outline
  beside : nearestNames imports (qualifierOf name) imports ≠ [] →
    (∃ i ∈ before.getLast?, Nearest imports (qualifierOf name) i) ∨
      ∃ i ∈ after'.head?, Nearest imports (qualifierOf name) i
  sorted : (nearestNames imports (qualifierOf name) imports).Pairwise (· ≤ ·) →
    (nearestNames imports (qualifierOf name) before ++
      name :: nearestNames imports (qualifierOf name) after').Pairwise (· ≤ ·)
  first : nearestNames imports (qualifierOf name) imports = [] →
    (∀ i ∈ imports, i.isStatic = true) ∧ before = []

section Joins

variable {imports among before after : List ImportDeclaration} {package? : Option String} {name : String}

theorem mem_nearestNames : name ∈ nearestNames imports package? among ↔
    ∃ i ∈ among, Nearest imports package? i ∧ i.importedName = name := by
  simp [nearestNames]

theorem nearestNames_append : nearestNames imports package? (before ++ after) =
    nearestNames imports package? before ++ nearestNames imports package? after :=
  List.filterMap_append

theorem nearestNames_cons {i : ImportDeclaration} (near : Nearest imports package? i) :
    nearestNames imports package? (i :: after) =
      i.importedName :: nearestNames imports package? after :=
  List.filterMap_cons_some (if_pos near)

/-- There are no nearest imports just if all are static. -/
theorem nearestNames_eq_nil_iff :
    nearestNames imports package? imports = [] ↔ ∀ i ∈ imports, i.isStatic = true := by
  simp only [nearestNames, List.filterMap_eq_nil_iff, ite_eq_right_iff, reduceCtorEq, imp_false]
  constructor
  · intro far i hi
    by_contra dynamic
    obtain ⟨j, hj, near⟩ := exists_nearest hi (Bool.eq_false_iff.2 dynamic)
    exact far j hj near
  · intro static i hi near
    exact absurd near.1 (by simp [static i hi])

/-- A name that is put between others, in alphabetical order, leaves them so. -/
theorem pairwise_le_insert {names names' : List String} (sorted : (names ++ names').Pairwise (· ≤ ·))
    (below : ∀ other ∈ names, other ≤ name) (above : ∀ other ∈ names', name ≤ other) :
    (names ++ name :: names').Pairwise (· ≤ ·) := by
  obtain ⟨front, back, across⟩ := List.pairwise_append.1 sorted
  refine List.pairwise_append.2 ⟨front, List.pairwise_cons.2 ⟨above, back⟩, fun other h => ?_⟩
  exact List.forall_mem_cons.2 ⟨below other h, across other h⟩

/-- The names do not depend on what the tokens of the imports are. -/
theorem nearestNames_congr {among' : List ImportDeclaration}
    (same : among'.map ImportDeclaration.outline = among.map ImportDeclaration.outline) :
    nearestNames imports package? among' = nearestNames imports package? among := by
  refine ImportDeclaration.filterMap_congr (fun {i j} h => ?_) same
  have name : i.importedName = j.importedName := congrArg ImportOutline.name h
  simp only [Nearest.congr h, name]

/-- An import joins the others at a place that is beside a nearest one, or else first, if no nearest one
before it comes later in the alphabet and none after it earlier. -/
theorem Joins.of_bounds {fresh : ImportDeclaration} {after' : List ImportDeclaration}
    (old : imports = before ++ after) (outline : fresh.outline = ⟨false, false, name⟩)
    (kept : after'.map ImportDeclaration.outline = after.map ImportDeclaration.outline)
    (beside : (∃ i ∈ before.getLast?, Nearest imports (qualifierOf name) i) ∨
      (∃ i ∈ after.head?, Nearest imports (qualifierOf name) i) ∨
      before = [] ∧ ∀ i ∈ imports, ¬ Nearest imports (qualifierOf name) i)
    (below : ∀ i ∈ before, Nearest imports (qualifierOf name) i → i.importedName ≤ name)
    (above : (nearestNames imports (qualifierOf name) imports).Pairwise (· ≤ ·) →
      ∀ i ∈ after, Nearest imports (qualifierOf name) i → name ≤ i.importedName) :
    Joins imports name (before ++ fresh :: after') before fresh after after' where
  old := old
  new := rfl
  outline := outline
  kept := kept
  beside some := by
    rcases beside with last | ⟨i, hi, near⟩ | ⟨-, far⟩
    · exact .inl last
    · -- the one that it is put before is the same import there
      obtain ⟨rest, rfl⟩ := List.head?_eq_some_iff.1 hi
      obtain ⟨j, _, rfl, same, -⟩ := List.map_eq_cons_iff.1 kept
      exact .inr ⟨j, rfl, (Nearest.congr same).2 near⟩
    · refine absurd ?_ some
      simpa [nearestNames] using far
  sorted sorted := by
    have whole := (congrArg (nearestNames imports (qualifierOf name)) old).trans nearestNames_append
    rw [nearestNames_congr kept]
    refine pairwise_le_insert ?_ ?_ ?_
    · rwa [← whole]
    · rintro _ h
      obtain ⟨i, hi, near, rfl⟩ := mem_nearestNames.1 h
      exact below i hi near
    · rintro _ h
      obtain ⟨i, hi, near, rfl⟩ := mem_nearestNames.1 h
      exact above sorted i hi near
  first none := by
    refine ⟨nearestNames_eq_nil_iff.1 none, ?_⟩
    have far {i : ImportDeclaration} (hi : i ∈ imports) : ¬ Nearest imports (qualifierOf name) i := by
      intro near
      have listed := mem_nearestNames.2 ⟨i, hi, near, rfl⟩
      rw [none] at listed
      cases listed
    rcases beside with ⟨i, hi, near⟩ | ⟨i, hi, near⟩ | ⟨empty, -⟩
    · exact absurd near (far (by simp [old, List.mem_of_getLast? hi]))
    · exact absurd near (far (by simp [old, List.mem_of_head? hi]))
    · exact empty

/-- What is inserted before others is an import of the type, and the others stay what they were. -/
theorem insertBefore_append (earlier later : List ImportDeclaration) (name : String) :
    ∃ fresh later', fresh.outline = ⟨false, false, name⟩ ∧
      later'.map ImportDeclaration.outline = later.map ImportDeclaration.outline ∧
      insertBefore (earlier ++ later) earlier.length name = earlier ++ fresh :: later' := by
  unfold insertBefore
  rw [List.drop_left, List.take_left]
  cases later with
  | nil => exact ⟨_, _, ImportDeclaration.outline_ofType name "", rfl, by rw [List.append_nil]⟩
  | cons displaced later =>
    refine ⟨_, _, ?_, ?_, rfl⟩
    · exact ImportDeclaration.outline_ofType name ""
    · rfl

theorem joins_insertAmong (imports : List ImportDeclaration) (name : String) :
    ∃ before fresh after after',
      Joins imports name (insertAmong imports name) before fresh after after' := by
  have place := place_placeFor imports name
  unfold insertAmong
  generalize placeFor imports name = chosen at place
  cases place with
  | before earlier i later split near less others =>
    obtain ⟨fresh, later', outline, same, inserted⟩ := insertBefore_append earlier (i :: later) name
    rw [← split] at inserted
    simp only [inserted]
    refine ⟨_, _, _, _, .of_bounds split outline same (.inr (.inl ⟨i, rfl, near⟩)) others ?_⟩
    -- if they are in order, the nearest ones after it come no earlier than the first, which is later
    intro sorted
    have whole := (congrArg (nearestNames imports (qualifierOf name)) split).trans nearestNames_append
    rw [nearestNames_cons near] at whole
    rw [whole] at sorted
    have rest := (List.pairwise_cons.1 (List.pairwise_append.1 sorted).2.1).1
    refine List.forall_mem_cons.2 ⟨fun _ => less.le, fun j hj nearJ => ?_⟩
    exact less.le.trans (rest _ (mem_nearestNames.2 ⟨j, hj, nearJ, rfl⟩))
  | after earlier i later split near others far =>
    have old : imports = earlier ++ [i] ++ later := by
      rw [split, List.append_assoc]
      rfl
    have inserted : insertAt imports (earlier.length + 1) (.ofType name "\n") =
        earlier ++ [i] ++ .ofType name "\n" :: later := by
      have length : earlier.length + 1 = (earlier ++ [i]).length := by simp
      rw [insertAt, old, length, List.take_left, List.drop_left]
    simp only [inserted]
    exact ⟨_, _, _, _, .of_bounds old (ImportDeclaration.outline_ofType name "\n") rfl
      (.inl ⟨i, by simp, near⟩) others fun _ j hj near => absurd near (far j hj)⟩
  | first far =>
    obtain ⟨fresh, imports', outline, same, inserted⟩ := insertBefore_append [] imports name
    rw [List.nil_append, List.length_nil] at inserted
    simp only [inserted]
    refine ⟨[], _, _, _, .of_bounds rfl outline same (.inr (.inr ⟨rfl, far⟩)) ?_ ?_⟩
    · simp
    · exact fun _ j hj near => absurd near (far j hj)

end Joins

/-! ## Whole files -/

namespace CompilationUnit

/-- An import that is inserted into a file joins those that it has; if it has none, it is the first. -/
theorem joins_insertImport (u : CompilationUnit) (name : String) : ∃ before fresh after after',
    Joins u.imports name (u.insertImport name).imports before fresh after after' := by
  unfold insertImport
  split
  · exact joins_insertAmong u.imports name
  · rename_i empty
    have none : u.imports = [] := by simpa using empty
    have alone (leading : String) :
        Joins [] name [.ofType name leading] [] (.ofType name leading) [] [] :=
      .of_bounds rfl (ImportDeclaration.outline_ofType name leading) rfl (.inr (.inr ⟨rfl, by simp⟩))
        (by simp) (by simp)
    rw [none]
    split
    · exact ⟨_, _, _, _, alone "\n\n"⟩
    · exact ⟨_, _, _, _, alone ""⟩

end CompilationUnit

/-- **Every new import joins the nearest ones** — when the imports of a plan are inserted one after the
other, each joins those in the file as it stands just before. -/
theorem ImportPlan.joins_applyTo (plan : ImportPlan) (unit : CompilationUnit)
    {earlier later : List String} {name : String}
    (order : plan.addedTypes = earlier ++ name :: later) :
    let u := earlier.foldl CompilationUnit.insertImport unit
    (∃ before fresh after after',
      Joins u.imports name (u.insertImport name).imports before fresh after after') ∧
    plan.applyTo unit none = later.foldl CompilationUnit.insertImport (u.insertImport name) := by
  intro u
  refine ⟨u.joins_insertImport name, ?_⟩
  rw [applyTo, order, List.foldl_append, List.foldl_cons]

/-- The nearest imports of `a.b.O` do not stand together, and one of them has just been inserted. -/
theorem ImportPlan.joins_applyTo_apart :
    let static := { ImportDeclaration.ofType "a.b.C.d" with
      static? := some (.synthetic (.keyword .staticWord) " ") }
    let unit : CompilationUnit := ⟨none, [.ofType "a.b.M", static, .ofType "z.Z", .ofType "a.b.P"], [],
      .synthetic .eof⟩
    let plan := ["a.b.N", "a.b.O"].foldl register (ofUnit unit)
    let u := ["a.b.N"].foldl CompilationUnit.insertImport unit
    plan.addedTypes = ["a.b.N"] ++ "a.b.O" :: [] ∧
      nearestNames u.imports (some "a.b") u.imports = ["a.b.M", "a.b.N", "a.b.P"] ∧
      (∃ before fresh after after',
        Joins u.imports "a.b.O" (u.insertImport "a.b.O").imports before fresh after after') ∧
      (plan.applyTo unit none).imports.map ImportDeclaration.importedName =
        ["a.b.M", "a.b.C.d", "z.Z", "a.b.N", "a.b.O", "a.b.P"] := by
  intro static unit plan u
  have order : plan.addedTypes = ["a.b.N"] ++ "a.b.O" :: [] := by decide +kernel
  refine ⟨order, by decide +kernel, (plan.joins_applyTo unit order).1, by decide +kernel⟩

end DeferFetch
