/-
# DeferFetch.Proofs.Naming.Meaning — how a name can get its meaning.

`Scope.resolve` tries one source of names after the other. Here is what each of them can give:
inversion lemmas from a type back to the entry of the file that a name means it by.
-/
import DeferFetch.Proofs.Naming.Dotted
import DeferFetch.Naming.Scope

namespace DeferFetch

/-! ## Lists without repetitions -/

theorem nodup_eraseDups {α : Type} [BEq α] [LawfulBEq α] (as : List α) : as.eraseDups.Nodup := by
  match as with
  | [] => simp
  | a :: as =>
    rw [List.eraseDups_cons, List.nodup_cons, List.mem_eraseDups]
    exact ⟨by simp, nodup_eraseDups _⟩
termination_by as.length
decreasing_by simp only [List.length_cons]; exact Nat.lt_succ_of_le (List.length_filter_le _ as)

/-- What only one member of a list has is found once. -/
theorem filterMap_eq_singleton {α β : Type} {g : α → Option β} {as : List α} {a : α} {b : β}
    (nodup : as.Nodup) (mem : a ∈ as) (hit : g a = some b) (only : ∀ x ∈ as, (g x).isSome → x = a) :
    as.filterMap g = [b] := by
  obtain ⟨before, after, rfl⟩ := List.append_of_mem mem
  have misses {xs : List α} (hmem : ∀ x ∈ xs, x ∈ before ++ a :: after) (ha : a ∉ xs) :
      xs.filterMap g = [] := by
    rw [List.filterMap_eq_nil_iff]
    intro x hx
    cases hg : g x with
    | none => rfl
    | some c =>
      obtain rfl := only x (hmem x hx) (by rw [hg]; rfl)
      exact absurd hx ha
  have apart := List.nodup_append.1 nodup
  rw [List.filterMap_append, List.filterMap_cons_some hit,
    misses (fun x hx => List.mem_append_left _ hx) fun ha => apart.2.2 a ha a List.mem_cons_self rfl,
    misses (fun x hx => List.mem_append_right _ (List.mem_cons_of_mem a hx))
      (List.nodup_cons.1 apart.2.1).1]
  rfl

/-! ## Maps -/

namespace NameMap

variable {α : Type}

theorem get?_append (m m' : NameMap α) (name : String) :
    get? (m ++ m') name = (get? m name <|> get? m' name) := by
  induction m with
  | nil => rfl
  | cons entry m ih =>
    obtain ⟨key, a⟩ := entry
    simp only [List.cons_append, get?]
    split
    · rfl
    · exact ih

theorem get?_insertNew (m : NameMap α) (key name : String) (a : α) :
    (m.insertNew key a).get? name = (m.get? name <|> get? [(key, a)] name) := by
  unfold insertNew
  split
  · rename_i h
    by_cases hname : name = key
    · subst hname
      obtain ⟨b, hb⟩ := Option.isSome_iff_exists.1 h
      simp [hb]
    · simp [get?, hname]
  · exact get?_append ..

/-- **The first entry of a name counts** — so looking a name up in the map of some entries is
looking it up in the entries. -/
theorem get?_firstOfEach (entries : List (String × α)) (name : String) :
    (firstOfEach entries).get? name = get? entries name := by
  have go (entries : List (String × α)) (m : NameMap α) :
      (entries.foldl (fun m entry => m.insertNew entry.1 entry.2) m).get? name =
        (m.get? name <|> get? entries name) := by
    induction entries generalizing m with
    | nil => simp [get?]
    | cons entry entries ih =>
      obtain ⟨key, a⟩ := entry
      rw [List.foldl_cons, ih, get?_insertNew, Option.orElse_eq_orElse]
      cases m.get? name with
      | some b => simp
      | none => by_cases h : name = key <;> simp [get?, h]
  exact go entries []

theorem mem_of_get? {m : NameMap α} {name : String} {a : α} (h : m.get? name = some a) :
    (name, a) ∈ m := by
  induction m with
  | nil => cases h
  | cons entry m ih =>
    obtain ⟨key, b⟩ := entry
    simp only [get?] at h
    split at h
    · rename_i hkey
      cases h
      simp [hkey]
    · exact List.mem_cons_of_mem _ (ih h)

theorem not_mem_of_get?_eq_none {m : NameMap α} {name : String} (h : m.get? name = none) :
    name ∉ m.map Prod.fst := by
  induction m with
  | nil => exact List.not_mem_nil
  | cons entry m ih =>
    obtain ⟨key, a⟩ := entry
    simp only [get?] at h
    split at h
    · cases h
    · rename_i hkey
      exact List.not_mem_cons_of_ne_of_not_mem hkey (ih h)

end NameMap

/-! ## Names in a scope -/

theorem only?_eq_some {α : Type} {as : List α} {a : α} : only? as = some a ↔ as = [a] := by
  unfold only?
  split <;> simp_all

namespace Scope

variable {s : Scope} {name type : String}

theorem inPackage?_eq_some {package : String} (h : s.inPackage? package name = some type) :
    type = package ++ "." ++ name ∧ s.symbols.catalog.contains type = true := by
  simp only [inPackage?] at h
  split at h
  · rename_i hc
    cases h
    exact ⟨rfl, hc⟩
  · cases h

/-- **`s.Sees package`** — the types of the package are visible by their simple names. -/
def Sees (s : Scope) (package : String) : Prop :=
  s.symbols.package? = some package ∨ package ∈ s.symbols.onDemand ∨ package = "java.lang"

/-- **What a simple name can mean** — a declared type, an imported one, one whose import is pending,
or a type of the catalog in a package that the file sees. -/
theorem resolveSimple_cases (h : s.resolveSimple name = some type) :
    s.symbols.declared.get? name = some type ∨ s.symbols.singleType.get? name = some type ∨
      s.pending.get? name = some type ∨
      ∃ package, s.Sees package ∧ type = package ++ "." ++ name ∧
        s.symbols.catalog.contains type = true := by
  simp only [resolveSimple, Option.orElse_eq_orElse, Option.orElse_eq_or, Option.or_eq_some_iff] at h
  rcases h with h | ⟨-, h | ⟨-, h | ⟨-, h | ⟨-, h⟩⟩⟩⟩
  · exact .inl h
  · exact .inr (.inl h)
  · exact .inr (.inr (.inl h))
  · obtain ⟨package, hp, h⟩ := Option.bind_eq_some_iff.1 h
    exact .inr (.inr (.inr ⟨package, .inl hp, inPackage?_eq_some h⟩))
  · refine .inr (.inr (.inr ?_))
    split at h
    · exact ⟨_, .inr (.inr rfl), inPackage?_eq_some h⟩
    · rename_i hits _
      have hmem : type ∈ s.onDemandHits name := by simp [only?_eq_some.1 h]
      obtain ⟨package, hp, h⟩ := List.mem_filterMap.1 hmem
      exact ⟨package, .inr (.inl hp), inPackage?_eq_some h⟩

/-- **What a dotted name can mean** — what it means as a simple name, a type nested in what its first
part means, or the type of just that name. -/
theorem resolve_cases (h : s.resolve name = some type) :
    (IsSimple name ∧ s.resolveSimple name = some type) ∨
      (∃ first rest outer, IsSimple first ∧ name = first ++ "." ++ rest ∧
        s.resolveSimple first = some outer ∧ type = outer ++ "." ++ rest) ∨
      type = name := by
  unfold resolve at h
  split at h
  · rename_i hfirst
    exact .inl ⟨splitFirst_eq_none hfirst, h⟩
  · rename_i first rest hfirst
    obtain ⟨hsimple, hname⟩ := splitFirst_eq_some hfirst
    simp only [Option.orElse_eq_orElse, Option.orElse_eq_or, Option.or_eq_some_iff,
      Option.filter_eq_some_iff, Option.map_eq_some_iff] at h
    rcases h with ⟨⟨outer, houter, rfl⟩, -⟩ | ⟨-, hsome, -⟩
    · exact .inr (.inl ⟨first, rest, outer, hsimple, hname, houter, rfl⟩)
    · exact .inr (.inr (Option.some.inj hsome).symm)

end Scope

/-! ## Declared types -/

/-- A type nested in others is declared within one of them. -/
def DeclaredIn (outer? : Option String) (entries : List (String × String))
    (entry : String × String) : Prop :=
  entry.2 = qualifyIn outer? entry.1 ∨ ∃ outer ∈ entries, entry.2 = qualifyIn (some outer.2) entry.1

mutual

theorem TypeDeclaration.declaredIn (outer? : Option String) (d : TypeDeclaration) :
    ∀ entry ∈ d.qualifiedNames outer?, DeclaredIn outer? (d.qualifiedNames outer?) entry := by
  match d with
  | ⟨_, _, _, name, _, _, members, _⟩ =>
    intro entry hentry
    rw [TypeDeclaration.qualifiedNames] at hentry ⊢
    rcases List.mem_append.1 hentry with h | h
    · rcases Member.list_declaredIn (qualifyIn outer? name.text) members entry h with
        heq | ⟨outer, houter, heq⟩
      · exact .inr ⟨_, List.mem_append_right _ (List.mem_singleton.2 rfl), heq⟩
      · exact .inr ⟨outer, List.mem_append_left _ houter, heq⟩
    · rw [List.mem_singleton.1 h]
      exact .inl rfl

theorem Member.declaredIn (outer : String) (m : Member) :
    ∀ entry ∈ m.qualifiedNames outer, DeclaredIn (some outer) (m.qualifiedNames outer) entry := by
  match m with
  | .type d => exact TypeDeclaration.declaredIn (some outer) d
  | .field .. | .method .. | .block .. | .constants .. | .empty .. => exact nofun

theorem Member.list_declaredIn (outer : String) (ms : List Member) :
    ∀ entry ∈ Member.listQualifiedNames outer ms,
      DeclaredIn (some outer) (Member.listQualifiedNames outer ms) entry := by
  match ms with
  | [] => exact nofun
  | m :: ms =>
    intro entry hentry
    rw [Member.listQualifiedNames] at hentry ⊢
    rcases List.mem_append.1 hentry with h | h
    · rcases Member.declaredIn outer m entry h with heq | ⟨outer, houter, heq⟩
      · exact .inl heq
      · exact .inr ⟨outer, List.mem_append_left _ houter, heq⟩
    · rcases Member.list_declaredIn outer ms entry h with heq | ⟨outer, houter, heq⟩
      · exact .inl heq
      · exact .inr ⟨outer, List.mem_append_right _ houter, heq⟩

end

namespace CompilationUnit

/-- **`u.typeEntries`** — the types that the file declares: simple and qualified names. -/
def typeEntries (u : CompilationUnit) : List (String × String) :=
  u.declarations.flatMap (·.qualifiedNames u.packageName)

theorem declaredIn (u : CompilationUnit) :
    ∀ entry ∈ u.typeEntries, DeclaredIn u.packageName u.typeEntries entry := by
  intro entry hentry
  obtain ⟨d, hd, h⟩ := List.mem_flatMap.1 hentry
  rcases d.declaredIn u.packageName entry h with heq | ⟨outer, houter, heq⟩
  · exact .inl heq
  · exact .inr ⟨outer, List.mem_flatMap.2 ⟨d, hd, houter⟩, heq⟩

end CompilationUnit

end DeferFetch
