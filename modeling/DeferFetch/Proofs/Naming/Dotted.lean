/-
# DeferFetch.Proofs.Naming.Dotted — the parts of dotted names.

A name is determined by its parts between dots, and putting a dot between two names puts their parts
one after the other. So equations between dotted names are equations between lists.
-/
import DeferFetch.Syntax.Name
import DeferFetch.Naming.SymbolTable

namespace DeferFetch

/-- **`IsSimple name`** — the name has no dot. -/
def IsSimple (name : String) : Prop := '.' ∉ name.toList

/-- **`parts name`** — the parts of a name between its dots. -/
def parts (name : String) : List String := Text.split '.' name

/-! ## Pieces of a list -/

theorem piecesBy_append (sep : Char) (xs ys : List Char) :
    Text.piecesBy sep (xs ++ sep :: ys) =
      ((Text.piecesBy sep xs).1, (Text.piecesBy sep xs).2 ++
        ((Text.piecesBy sep ys).1 :: (Text.piecesBy sep ys).2)) := by
  induction xs with
  | nil => simp [Text.piecesBy]
  | cons x xs ih =>
    simp only [List.cons_append, Text.piecesBy, ih]
    split <;> rfl

theorem piecesBy_of_not_mem {sep : Char} {xs : List Char} (h : sep ∉ xs) :
    Text.piecesBy sep xs = (xs, []) := by
  induction xs with
  | nil => rfl
  | cons x xs ih =>
    rw [List.mem_cons, not_or] at h
    rw [Text.piecesBy, ih h.2]
    simp [Ne.symm h.1]

/-! ## Parts -/

theorem parts_append_dot (a b : String) : parts (a ++ "." ++ b) = parts a ++ parts b := by
  have : (a ++ "." ++ b).toList = a.toList ++ '.' :: b.toList := by simp
  simp [parts, Text.split, this, piecesBy_append]

theorem parts_of_isSimple {name : String} (h : IsSimple name) : parts name = [name] := by
  simp [parts, Text.split, piecesBy_of_not_mem h]

theorem parts_ne_nil (name : String) : parts name ≠ [] := by simp [parts, Text.split]

theorem dotted_cons_cons (x y : String) (names : List String) :
    dotted (x :: y :: names) = x ++ "." ++ dotted (y :: names) := by
  simp [dotted, String.intercalate_cons_cons]

theorem dotted_singleton (x : String) : dotted [x] = x := by simp [dotted]

theorem dotted_append (a b : String) (names : List String) :
    dotted ((a ++ b) :: names) = a ++ dotted (b :: names) := by
  cases names with
  | nil => rw [dotted_singleton, dotted_singleton]
  | cons y names => rw [dotted_cons_cons, dotted_cons_cons]; simp only [String.append_assoc]

/-- Joining the pieces of a text gives the text again. -/
theorem dotted_pieces (xs : List Char) :
    dotted (((Text.piecesBy '.' xs).1 :: (Text.piecesBy '.' xs).2).map String.ofList) =
      String.ofList xs := by
  induction xs with
  | nil => simp [Text.piecesBy, dotted]
  | cons x xs ih =>
    simp only [Text.piecesBy]
    split
    · rename_i hx
      rw [List.map_cons, List.map_cons, dotted_cons_cons, ← List.map_cons, ih, hx]
      apply String.toList_injective
      simp
    · have : String.ofList (x :: (Text.piecesBy '.' xs).1) =
          String.ofList [x] ++ String.ofList (Text.piecesBy '.' xs).1 := by
        rw [← String.ofList_append]
        rfl
      rw [List.map_cons, this, dotted_append, ← List.map_cons, ih, ← String.ofList_append]
      rfl

/-- **A name is determined by its parts.** -/
theorem dotted_parts (name : String) : dotted (parts name) = name := by
  have := dotted_pieces name.toList
  rwa [String.ofList_toList] at this

theorem parts_injective {a b : String} (h : parts a = parts b) : a = b := by
  rw [← dotted_parts a, h, dotted_parts]

/-- The parts of names that are joined are the names. -/
theorem parts_dotted {names : List String} (hne : names ≠ []) (h : ∀ n ∈ names, IsSimple n) :
    parts (dotted names) = names := by
  induction names with
  | nil => exact absurd rfl hne
  | cons x names ih =>
    cases names with
    | nil => rw [dotted_singleton, parts_of_isSimple (h x (by simp))]
    | cons y names =>
      rw [dotted_cons_cons, parts_append_dot, parts_of_isSimple (h x (by simp)),
        ih (by simp) fun n hn => h n (List.mem_cons_of_mem _ hn)]
      rfl

/-! ## Names written out -/

/-- A name written out is made of its parts. -/
theorem exists_parts (name : String) (leading : String := "") : ∃ x others,
    parts name = x :: others ∧ QualifiedName.ofDotted name leading =
      ⟨.synthetic (.identifier x) leading, others.map fun part =>
        ⟨.synthetic .dot, .synthetic (.identifier part)⟩⟩ := by
  refine ⟨_, _, rfl, rfl⟩

theorem dotted_ofDotted (name : String) (leading : String := "") :
    (QualifiedName.ofDotted name leading).dotted = name := by
  obtain ⟨x, others, hparts, hname⟩ := exists_parts name leading
  have texts : (QualifiedName.ofDotted name leading).identifiers.map Token.text = parts name := by
    simp [hname, hparts, QualifiedName.identifiers, Token.text, TokenKind.text, Token.synthetic,
      Function.comp_def]
  rw [QualifiedName.dotted, texts, dotted_parts]

/-! ## Cutting at one dot -/

/-- The first dot of a list. -/
theorem takeWhile_ne_dropWhile (cs : List Char) :
    '.' ∉ cs.takeWhile (· ≠ '.') ∧
      (cs.dropWhile (· ≠ '.') = [] ∨ ∃ rest, cs.dropWhile (· ≠ '.') = '.' :: rest) := by
  constructor
  · intro h
    have := List.all_eq_true.1 (List.all_takeWhile (l := cs) (p := (· ≠ '.'))) '.' h
    simp at this
  · cases hd : cs.dropWhile (· ≠ '.') with
    | nil => exact .inl rfl
    | cons d rest =>
      have := List.head?_dropWhile_not (· ≠ '.') cs
      rw [hd] at this
      obtain rfl : d = '.' := by simpa using this
      exact .inr ⟨rest, rfl⟩

theorem splitFirst_eq_none {name : String} (h : splitFirst name = none) : IsSimple name := by
  obtain ⟨htake, hdrop⟩ := takeWhile_ne_dropWhile name.toList
  unfold splitFirst at h
  rcases hdrop with hdrop | ⟨rest, hdrop⟩
  · have := List.takeWhile_append_dropWhile (p := (· ≠ '.')) (l := name.toList)
    rw [hdrop, List.append_nil] at this
    rwa [this] at htake
  · simp only [hdrop, reduceCtorEq] at h

theorem splitFirst_eq_some {name first rest : String} (h : splitFirst name = some (first, rest)) :
    IsSimple first ∧ name = first ++ "." ++ rest := by
  obtain ⟨htake, hdrop⟩ := takeWhile_ne_dropWhile name.toList
  unfold splitFirst at h
  rcases hdrop with hdrop | ⟨more, hdrop⟩
  · simp only [hdrop, reduceCtorEq] at h
  · simp only [hdrop, Option.some.injEq, Prod.mk.injEq] at h
    obtain ⟨rfl, rfl⟩ := h
    refine ⟨by simpa [IsSimple] using htake, String.toList_injective ?_⟩
    have := List.takeWhile_append_dropWhile (p := (· ≠ '.')) (l := name.toList)
    rw [hdrop] at this
    simpa using this.symm

/-- A dot after a simple name is the first one. -/
theorem splitFirst_append_dot {a : String} (h : IsSimple a) (b : String) :
    splitFirst (a ++ "." ++ b) = some (a, b) := by
  have before : ∀ d ∈ a.toList, decide (d ≠ '.') = true := by
    intro d hd
    simp only [decide_eq_true_eq]
    rintro rfl
    exact h hd
  have whole : (a ++ "." ++ b).toList = a.toList ++ '.' :: b.toList := by simp
  simp only [splitFirst, whole, List.takeWhile_append_of_pos before,
    List.dropWhile_append_of_pos before]
  simp

/-- Seen from its end, a simple name has no dot before which it could be cut. -/
theorem IsSimple.forall_reverse {x : String} (h : IsSimple x) :
    ∀ d ∈ x.toList.reverse, decide (d ≠ '.') = true := by
  intro d hd
  simp only [decide_eq_true_eq]
  rintro rfl
  exact h (List.mem_reverse.1 hd)

theorem splitQualified_append_dot (a : String) {x : String} (h : IsSimple x) :
    splitQualified (a ++ "." ++ x) = (some a, x) := by
  have hrev : (a ++ "." ++ x).toList.reverse = x.toList.reverse ++ '.' :: a.toList.reverse := by
    simp
  simp only [splitQualified, hrev, List.takeWhile_append_of_pos h.forall_reverse,
    List.dropWhile_append_of_pos h.forall_reverse]
  simp

theorem splitQualified_of_isSimple {x : String} (h : IsSimple x) :
    splitQualified x = (none, x) := by
  have hrev : x.toList.reverse = x.toList.reverse ++ [] := by simp
  rw [splitQualified, hrev]
  simp only [List.takeWhile_append_of_pos h.forall_reverse,
    List.dropWhile_append_of_pos h.forall_reverse]
  simp

/-- A name is simple, or it ends in a simple name after a dot. -/
theorem isSimple_or_append_dot (name : String) :
    IsSimple name ∨ ∃ a x, IsSimple x ∧ name = a ++ "." ++ x := by
  by_cases h : IsSimple name
  · exact .inl h
  · have hdot : '.' ∈ name.toList.reverse := List.mem_reverse.2 (Classical.not_not.1 h)
    obtain ⟨as, bs, hab, hmem⟩ := List.eq_append_cons_of_mem hdot
    refine .inr ⟨String.ofList bs.reverse, String.ofList as.reverse, ?_,
      String.toList_injective ?_⟩
    · simpa [IsSimple] using hmem
    · have := congrArg List.reverse hab
      simpa using this

/-! ## Last parts -/

theorem simpleNameOf_of_isSimple {name : String} (h : IsSimple name) : simpleNameOf name = name := by
  rw [simpleNameOf, splitQualified_of_isSimple h]

/-- What stands before a dot does not change the last part. -/
theorem simpleNameOf_append_dot (a b : String) : simpleNameOf (a ++ "." ++ b) = simpleNameOf b := by
  rcases isSimple_or_append_dot b with h | ⟨c, x, h, rfl⟩
  · rw [simpleNameOf, splitQualified_append_dot a h, simpleNameOf_of_isSimple h]
  · have regroup : a ++ "." ++ (c ++ "." ++ x) = (a ++ "." ++ c) ++ "." ++ x := by
      simp only [String.append_assoc]
    rw [regroup, simpleNameOf, simpleNameOf, splitQualified_append_dot _ h, splitQualified_append_dot _ h]

theorem isSimple_simpleNameOf (name : String) : IsSimple (simpleNameOf name) := by
  rcases isSimple_or_append_dot name with h | ⟨a, x, h, rfl⟩
  · rwa [simpleNameOf_of_isSimple h]
  · rwa [simpleNameOf_append_dot, simpleNameOf_of_isSimple h]

theorem getLast?_parts (name : String) : (parts name).getLast? = some (simpleNameOf name) := by
  rcases isSimple_or_append_dot name with h | ⟨a, x, h, rfl⟩
  · rw [parts_of_isSimple h, simpleNameOf_of_isSimple h]
    rfl
  · rw [parts_append_dot, parts_of_isSimple h, simpleNameOf_append_dot, simpleNameOf_of_isSimple h,
      List.getLast?_append]
    rfl

end DeferFetch
