/-
# DeferFetch.Proofs.Laziness.Matching — what a scan with one counter finds.

The gate scans the tokens of a file once and keeps only how much of the pattern it has matched. On a
token that does not go on with the match, it starts again with that token or after it, and forgets what
else the tokens before could have begun. So what it reports stands in the file, but it finds a pattern
everywhere exactly if the pattern resumes (`spellsOrNames_iff_infix`): wherever its first token
occurs in it again, the rest of it is again a beginning of it.
-/
import DeferFetch.Laziness.Gate
import DeferFetch.Proofs.Grammar.Text
import DeferFetch.Proofs.Naming.Dotted

namespace DeferFetch

/-! ## One token -/

section Scan

variable {pattern : List TokenKind} {simple? : Option String} {matched : Nat}

theorem nextMatched_of_next {k : TokenKind} (h : pattern[matched]? = some k) :
    nextMatched pattern matched k = matched + 1 := if_pos h

/-- **What is matched was read** — the matched beginning of the pattern ends in the last token. -/
theorem take_nextMatched_suffix (pattern : List TokenKind) (matched : Nat) (k : TokenKind) :
    pattern.take (nextMatched pattern matched k) <:+ pattern.take matched ++ [k] := by
  unfold nextMatched
  split
  · rename_i next
    rw [List.take_add_one, next]
    exact List.suffix_rfl
  · split
    · rename_i first
      obtain ⟨tail, htail⟩ := List.head?_eq_some_iff.1 first
      refine ⟨pattern.take matched, ?_⟩
      rw [htail, List.take_succ_cons, List.take_zero]
    · exact ⟨_, List.append_nil _⟩

/-! ## Whole texts -/

/-- The scan finds a name wherever it stands. -/
theorem spellsOrNames_of_mem {simple : String} {ks : List TokenKind}
    (h : .identifier simple ∈ ks) (matched : Nat) :
    spellsOrNames pattern (some simple) matched ks = true := by
  induction ks generalizing matched with
  | nil => cases h
  | cons k ks ih =>
    unfold spellsOrNames
    split
    · rfl
    · rename_i hk
      have hne : .identifier simple ≠ k := by
        rintro rfl
        simp at hk
      have hmem := (List.mem_cons.1 h).resolve_left hne
      simp only [ih hmem, ite_self]

/-- **What the scan reports is there** — the name, or the pattern in the matched beginning and what
follows. -/
theorem mem_or_infix_of_spellsOrNames {ks : List TokenKind}
    (found : spellsOrNames pattern simple? matched ks = true) :
    (∃ simple, simple? = some simple ∧ .identifier simple ∈ ks) ∨
      pattern <:+: pattern.take matched ++ ks := by
  induction ks generalizing matched with
  | nil => cases found
  | cons k ks ih =>
    unfold spellsOrNames at found
    split at found
    · rename_i named
      obtain ⟨simple, same, hk⟩ := (Option.any_eq_true _ _).1 named
      rw [decide_eq_true_eq] at hk
      exact .inl ⟨simple, same, hk ▸ List.mem_cons_self⟩
    · have kept : pattern.take (nextMatched pattern matched k) ++ ks <:+
          pattern.take matched ++ k :: ks := by
        obtain ⟨dropped, split⟩ := take_nextMatched_suffix pattern matched k
        refine ⟨dropped, ?_⟩
        rw [← List.append_assoc, split, List.append_assoc]
        rfl
      simp only at found
      split at found
      · rename_i complete
        rw [complete, List.take_length] at kept
        exact .inr ((List.prefix_append pattern ks).isInfix.trans kept.isInfix)
      · rcases ih found with ⟨simple, same, mem⟩ | hit
        · exact .inl ⟨simple, same, List.mem_cons_of_mem _ mem⟩
        · exact .inr (hit.trans kept.isInfix)

/-! ## Where a pattern is found -/

/-- **`Clear pattern before`** — nothing that stands before a pattern misleads the scan: if its end is
a beginning of the pattern that goes on with the first token of the pattern, the pattern goes on as it
began. -/
def Clear (pattern before : List TokenKind) : Prop :=
  ∀ i, 0 < i → i < pattern.length → pattern[i]? = pattern[0]? → pattern.take i <:+ before →
    pattern.drop i <+: pattern

theorem Clear.of_suffix {before before' : List TokenKind} (clear : Clear pattern before)
    (h : before' <:+ before) : Clear pattern before' :=
  fun i hpos hlt again ends => clear i hpos hlt again (ends.trans h)

/-- Where the match breaks off, nothing that is matched belongs to a later pattern. -/
theorem Clear.matched_le {ks before after : List TokenKind} {k : TokenKind}
    (clear : Clear pattern before) (hm : matched < pattern.length)
    (text : pattern.take matched ++ k :: ks = before ++ (pattern ++ after))
    (breaks : pattern[matched]? ≠ some k) : matched ≤ before.length := by
  have hlen : (pattern.take matched).length = matched := by
    rw [List.length_take]
    omega
  refine Nat.not_lt.1 fun within => ?_
  -- the token that is read, as part of the pattern that begins in the matched tokens
  have read : pattern[matched - before.length]? = some k := by
    have := congrArg (·[matched]?) text
    rw [List.getElem?_append_right (by omega), hlen, Nat.sub_self, List.getElem?_cons_zero,
      List.getElem?_append_right (by omega), List.getElem?_append_left (by omega)] at this
    exact this.symm
  rcases Nat.eq_zero_or_pos before.length with start | inside
  · rw [start, Nat.sub_zero] at read
    exact breaks read
  · have again : pattern[before.length]? = pattern[0]? := by
      have := congrArg (·[before.length]?) text
      rw [List.getElem?_append_left (by omega), List.getElem?_take_of_lt within,
        List.getElem?_append_right (by omega), Nat.sub_self,
        List.getElem?_append_left (by omega)] at this
      exact this
    have begins : pattern.take before.length = before := by
      have := congrArg (List.take before.length) text
      rwa [List.take_append_of_le_length (by omega), List.take_take, Nat.min_eq_left (by omega),
        List.take_left] at this
    have ends : pattern.take before.length <:+ before := ⟨[], begins⟩
    obtain ⟨rest, split⟩ := clear before.length inside (by omega) again ends
    -- the pattern goes on as it began, so what is read goes on with the match
    refine breaks ?_
    calc pattern[matched]?
      _ = (pattern.drop before.length)[matched - before.length]? := by
        rw [List.getElem?_drop]
        congr 1
        omega
      _ = (pattern.drop before.length ++ rest)[matched - before.length]? := by
        rw [List.getElem?_append_left]
        rw [List.length_drop]
        omega
      _ = some k := by rw [split, read]

/-- **The scan finds a pattern that nothing hides** — the text is what is matched together with what
follows, and the pattern may begin anywhere in it. -/
theorem spellsOrNames_of_clear {ks before after : List TokenKind} (hm : matched < pattern.length)
    (text : pattern.take matched ++ ks = before ++ (pattern ++ after))
    (clear : Clear pattern before) : spellsOrNames pattern simple? matched ks = true := by
  induction ks generalizing matched before with
  | nil =>
    -- the matched beginning is too short to hold the pattern
    have := congrArg List.length text
    simp only [List.length_append, List.length_take, List.length_nil] at this
    omega
  | cons k ks ih =>
    have go_on {matched' : Nat} {before' : List TokenKind} (hle : matched' ≤ pattern.length)
        (text' : pattern.take matched' ++ ks = before' ++ (pattern ++ after))
        (clear' : Clear pattern before') :
        (if matched' = pattern.length then true
          else spellsOrNames pattern simple? matched' ks) = true := by
      split
      · rfl
      · rename_i incomplete
        exact ih (by omega) text' clear'
    unfold spellsOrNames
    split
    · rfl
    simp only
    by_cases next : pattern[matched]? = some k
    · -- the match goes on, in the same text
      rw [nextMatched_of_next next]
      refine go_on hm ?_ clear
      rw [← text, List.take_add_one, next]
      simp
    · -- the match breaks off, so the pattern begins with this token or later
      have hle := clear.matched_le hm text next
      obtain ⟨behind, rfl, follows⟩ : ∃ behind, before = pattern.take matched ++ behind ∧
          k :: ks = behind ++ (pattern ++ after) := by
        rcases List.append_eq_append_iff.1 text with ⟨behind, split, follows⟩ | ⟨more, split, follows⟩
        · exact ⟨behind, split, follows⟩
        · have := congrArg List.length split
          rw [List.length_append, List.length_take] at this
          obtain rfl : more = [] := List.length_eq_zero_iff.1 (by omega)
          exact ⟨[], by rw [split, List.append_nil, List.append_nil], follows.symm⟩
      have clear := clear.of_suffix (List.suffix_append _ behind)
      rw [nextMatched, if_neg next]
      split
      · rename_i first
        obtain ⟨tail, htail⟩ := List.head?_eq_some_iff.1 first
        have text : pattern.take 1 ++ ks = behind ++ (pattern ++ after) := by
          rw [← follows, htail]
          rfl
        exact go_on (by omega) text clear
      · rename_i first
        cases behind with
        | nil =>
          obtain ⟨x, tail, htail⟩ := List.exists_cons_of_length_pos (Nat.zero_lt_of_lt hm)
          rw [htail] at follows first
          simp at follows first
          exact absurd follows.1.symm first
        | cons x behind =>
          rw [List.cons_append, List.cons.injEq] at follows
          exact go_on (Nat.zero_le _) follows.2 (clear.of_suffix (List.suffix_cons x behind))

/-! ## Patterns that are found everywhere -/

/-- **`Resumes pattern`** — wherever the first token of the pattern occurs in it, it goes on as it
began. -/
def Resumes (pattern : List TokenKind) : Prop :=
  ∀ i, i < pattern.length → pattern[i]? = pattern[0]? → pattern.drop i <+: pattern

instance (pattern : List TokenKind) : Decidable (Resumes pattern) :=
  inferInstanceAs (Decidable (∀ i, i < pattern.length → _))

theorem Resumes.clear (resumes : Resumes pattern) (before : List TokenKind) :
    Clear pattern before :=
  fun i _ hlt again _ => resumes i hlt again

/-- A pattern resumes if its first token does not occur in it again. -/
theorem resumes_of_not_mem {head : TokenKind} {tail : List TokenKind} (hhead : head ∉ tail) :
    Resumes (head :: tail) := by
  intro i hlt again
  cases i with
  | zero => exact List.prefix_rfl
  | succ i =>
    rw [List.getElem?_cons_succ, List.getElem?_cons_zero] at again
    exact absurd (List.mem_of_getElem? again) hhead

/-- The scan matches a beginning of the pattern token by token. -/
theorem spellsOrNames_take_append {i : Nat} (hi : i < pattern.length) (ks : List TokenKind) :
    spellsOrNames pattern none 0 (pattern.take i ++ ks) = spellsOrNames pattern none i ks := by
  induction i generalizing ks with
  | zero => rfl
  | succ i ih =>
    have next : pattern[i]? = some pattern[i] := List.getElem?_eq_getElem (by omega)
    have incomplete : i + 1 ≠ pattern.length := by omega
    rw [List.take_add_one, next, List.append_assoc, ih (by omega)]
    simp [spellsOrNames, nextMatched_of_next next, incomplete]

/-- A text that is shorter than the pattern completes it only by going on with the match. -/
theorem drop_prefix_of_spellsOrNames {ks : List TokenKind} (short : ks.length < pattern.length)
    (hm : matched < pattern.length) (found : spellsOrNames pattern none matched ks = true) :
    pattern.drop matched <+: ks := by
  induction ks generalizing matched with
  | nil => cases found
  | cons k ks ih =>
    rw [List.length_cons] at short
    simp only [spellsOrNames, Option.any_none, Bool.false_eq_true, if_false] at found
    by_cases next : pattern[matched]? = some k
    · obtain ⟨hlt, rfl⟩ := List.getElem?_eq_some_iff.1 next
      rw [nextMatched_of_next next] at found
      rw [List.drop_eq_getElem_cons hm, List.cons_prefix_cons]
      refine ⟨rfl, ?_⟩
      split at found
      · rename_i complete
        rw [complete, List.drop_length]
        exact List.nil_prefix
      · rename_i incomplete
        exact ih (by omega) (by omega) found
    · -- a new match would take all of the pattern but its first token
      exfalso
      have few : nextMatched pattern matched k ≤ 1 := by
        rw [nextMatched, if_neg next]
        split <;> omega
      split at found
      · omega
      · have rest := (ih (by omega) (by omega) found).length_le
        rw [List.length_drop] at rest
        omega

/-- **What the scan finds, exactly** — it finds a pattern wherever it stands, whatever the text, just if
the pattern resumes. -/
theorem spellsOrNames_iff_infix (ne : pattern ≠ []) :
    (∀ ks, spellsOrNames pattern none 0 ks = true ↔ pattern <:+: ks) ↔ Resumes pattern := by
  have hpos := List.length_pos_iff.2 ne
  constructor
  · intro finds i hi again
    -- the pattern, after a beginning of it that leads into its first token
    have found : spellsOrNames pattern none i pattern = true := by
      rw [← spellsOrNames_take_append hi, finds]
      exact (List.suffix_append _ _).isInfix
    obtain ⟨head, tail, rfl⟩ := List.exists_cons_of_length_pos hpos
    have next : (head :: tail)[i]? = some head := again
    obtain ⟨_, here⟩ := List.getElem?_eq_some_iff.1 next
    rw [spellsOrNames, nextMatched_of_next next] at found
    simp only [Option.any_none, Bool.false_eq_true, if_false] at found
    rw [List.drop_eq_getElem_cons hi, here, List.cons_prefix_cons]
    refine ⟨rfl, ?_⟩
    split at found
    · rename_i complete
      rw [complete, List.drop_length]
      exact List.nil_prefix
    · rename_i incomplete
      exact drop_prefix_of_spellsOrNames (Nat.lt_succ_self _) (by omega) found
  · intro resumes ks
    constructor
    · intro found
      rcases mem_or_infix_of_spellsOrNames found with ⟨simple, none, -⟩ | hit
      · cases none
      · exact hit
    · rintro ⟨before, after, text⟩
      rw [List.append_assoc] at text
      exact spellsOrNames_of_clear hpos text.symm (resumes.clear before)

end Scan

example : Resumes (namePattern "jakarta.persistence.ManyToOne") := by decide

/-! ## Names -/

theorem namePattern_eq (name : String) :
    namePattern name = ((parts name).map TokenKind.identifier).intersperse .dot := rfl

theorem length_namePattern_pos (name : String) : 0 < (namePattern name).length := by
  obtain ⟨part, others, split⟩ := List.exists_cons_of_ne_nil (parts_ne_nil name)
  rw [namePattern_eq, split]
  cases others <;> exact Nat.zero_lt_succ _

/-- Behind every identifier of a dotted name but the first there is a dot. -/
theorem getElem?_intersperse_dot {names : List String} {i : Nat} {simple : String}
    (h : ((names.map TokenKind.identifier).intersperse .dot)[i + 1]? = some (.identifier simple)) :
    ((names.map TokenKind.identifier).intersperse .dot)[i]? = some .dot := by
  induction names generalizing i with
  | nil => cases h
  | cons a names ih =>
    cases names with
    | nil => cases h
    | cons b names =>
      match i with
      | 0 => cases h
      | 1 => rfl
      | i + 2 => exact ih h

theorem getLast?_intersperse_dot (names : List String) :
    ((names.map TokenKind.identifier).intersperse .dot).getLast? =
      names.getLast?.map TokenKind.identifier := by
  induction names with
  | nil => rfl
  | cons a names ih =>
    cases names with
    | nil => rfl
    | cons b names =>
      have step : ((a :: b :: names).map TokenKind.identifier).intersperse .dot =
        .identifier a :: .dot :: ((b :: names).map TokenKind.identifier).intersperse .dot := rfl
      have ne : ((b :: names).map TokenKind.identifier).intersperse .dot ≠ [] := by
        cases names <;> exact List.cons_ne_nil _ _
      obtain ⟨c, rest, split⟩ := List.exists_cons_of_ne_nil ne
      rw [step, split, List.getLast?_cons_cons, List.getLast?_cons_cons, ← split, ih,
        List.getLast?_cons_cons]

/-- The last token of a dotted name is its simple name. -/
theorem getLast?_namePattern (name : String) :
    (namePattern name).getLast? = some (.identifier (simpleNameOf name)) := by
  rw [namePattern_eq, getLast?_intersperse_dot, getLast?_parts]
  rfl

/-- A name that is not part of a longer one is not hidden. -/
theorem clear_of_not_dot {name : String} {before : List TokenKind}
    (apart : before.getLast? ≠ some .dot) : Clear (namePattern name) before := by
  intro i hpos hlt again ends
  exfalso
  obtain ⟨part, others, split⟩ := List.exists_cons_of_ne_nil (parts_ne_nil name)
  have first : (namePattern name)[0]? = some (.identifier part) := by
    rw [namePattern_eq, split]
    cases others <;> rfl
  obtain ⟨i, rfl⟩ : ∃ j, i = j + 1 := ⟨i - 1, by omega⟩
  have dot : (namePattern name)[i]? = some .dot := getElem?_intersperse_dot (again.trans first)
  obtain ⟨dropped, rfl⟩ := ends
  refine apart ?_
  rw [List.take_add_one, dot, List.getLast?_append, List.getLast?_append]
  rfl

namespace CompilationUnit

variable {u : CompilationUnit} {name : String}

/-- **`u.Spells name`** — the identifiers and dots of a name stand in the file in a row. -/
def Spells (u : CompilationUnit) (name : String) : Prop := namePattern name <:+: kinds u.tokens

/-- **`u.SpellsClear name`** — they stand where nothing before misleads the scan. -/
def SpellsClear (u : CompilationUnit) (name : String) : Prop :=
  ∃ before after, kinds u.tokens = before ++ (namePattern name ++ after) ∧
    Clear (namePattern name) before

/-- **`u.MentionsVisible name`** — the type can be meant by its simple name, and that is an identifier of
the file. -/
def MentionsVisible (u : CompilationUnit) (name : String) : Prop :=
  simpleNameVisible name u = true ∧ .identifier (simpleNameOf name) ∈ kinds u.tokens

/-- What the gate sees is there. -/
theorem spells_or_mentions_of_usesType (h : usesType name u = true) :
    u.Spells name ∨ u.MentionsVisible name := by
  rcases mem_or_infix_of_spellsOrNames h with ⟨simple, same, mem⟩ | hit
  · split at same
    · rename_i visible
      rw [Option.some.injEq] at same
      exact .inr ⟨visible, same ▸ mem⟩
    · cases same
  · rw [List.take_zero, List.nil_append] at hit
    exact .inl hit

theorem usesType_of_mentionsVisible (h : u.MentionsVisible name) : usesType name u = true := by
  rw [usesType, if_pos h.1]
  exact spellsOrNames_of_mem h.2 0

theorem usesType_of_spellsClear (h : u.SpellsClear name) : usesType name u = true := by
  obtain ⟨before, after, text, clear⟩ := h
  exact spellsOrNames_of_clear (length_namePattern_pos name) text clear

/-- In either way, the simple name of the type is an identifier of the file. -/
theorem mem_kinds_of_usesType (h : usesType name u = true) :
    .identifier (simpleNameOf name) ∈ kinds u.tokens := by
  rcases spells_or_mentions_of_usesType h with spells | mentions
  · exact spells.subset (List.mem_of_getLast? (getLast?_namePattern name))
  · exact mentions.2

/-- **What the gate sees, exactly** — a type whose qualified name the file spells, or whose simple name
it mentions while that is visible; provided that, if it is only spelled, it is once spelled where
nothing before misleads the scan. -/
theorem usesType_iff (name : String) (u : CompilationUnit)
    (seen : u.Spells name → simpleNameVisible name u = false → u.SpellsClear name) :
    usesType name u = true ↔ u.Spells name ∨ u.MentionsVisible name := by
  constructor
  · exact spells_or_mentions_of_usesType
  · rintro (spells | mentions)
    · cases visible : simpleNameVisible name u with
      | false => exact usesType_of_spellsClear (seen spells visible)
      | true =>
        -- the last token of the name alone is enough
        refine usesType_of_mentionsVisible ⟨visible, ?_⟩
        exact spells.subset (List.mem_of_getLast? (getLast?_namePattern name))
    · exact usesType_of_mentionsVisible mentions

/-- The name does not resume, but here it does not follow a dot. -/
theorem usesType_of_repeated_segment :
    let source := "class A \x7b @org.org.Marker B b; \x7d"
    ∃ u, (parseUnit source).toExcept = .ok u ∧
      ¬ Resumes (namePattern "org.org.Marker") ∧
      (u.Spells "org.org.Marker" → simpleNameVisible "org.org.Marker" u = false →
        u.SpellsClear "org.org.Marker") ∧
      usesType "org.org.Marker" u = true := by
  intro source
  have h : ((parseUnit source).toExcept.toOption.map
      fun u => kinds u.tokens) = some ([.keyword .classWord, .identifier "A", .opening .brace, .at] ++
        (namePattern "org.org.Marker" ++
          [.identifier "B", .identifier "b", .semicolon, .closing .brace, .eof])) := by
    decide +kernel
  obtain ⟨u, parsed, text⟩ := exists_of_toOption_map h
  have clear : u.SpellsClear "org.org.Marker" := ⟨_, _, text, clear_of_not_dot (by decide)⟩
  refine ⟨u, parsed, by decide, fun _ _ => clear, ?_⟩
  exact (usesType_iff "org.org.Marker" u fun _ _ => clear).2
    (.inl ⟨_, _, (List.append_assoc _ _ _).trans text.symm⟩)

/-- **The gate misses a name** that is part of a longer one and whose first part comes twice: the scan
takes the second part of the longer name for the second of the name, and does not look back. -/
theorem usesType_misses_overlap :
    let source := "class A \x7b\n  @org.org.org.Marker B b;\n\x7d\n"
    ∃ u, (parseUnit source).toExcept = .ok u ∧
      ¬ (usesType "org.org.Marker" u = true ↔
        u.Spells "org.org.Marker" ∨ u.MentionsVisible "org.org.Marker") := by
  intro source
  have h : ((parseUnit source).toExcept.toOption.map
      fun u => (kinds u.tokens, usesType "org.org.Marker" u)) =
        some ([.keyword .classWord, .identifier "A", .opening .brace, .at, .identifier "org", .dot] ++
          namePattern "org.org.Marker" ++
          [.identifier "B", .identifier "b", .semicolon, .closing .brace, .eof], false) := by
    decide +kernel
  obtain ⟨u, parsed, facts⟩ := exists_of_toOption_map h
  rw [Prod.mk.injEq] at facts
  refine ⟨u, parsed, fun iff => ?_⟩
  have seen := iff.2 (.inl ⟨_, _, facts.1.symm⟩)
  rw [facts.2] at seen
  cases seen

end CompilationUnit

end DeferFetch
