/-
# DeferFetch.Proofs.Grammar.Standing — every annotation fits where it stands.

The tokens of an annotation that stands anywhere in a tree that fits are some of the tokens of that
tree, in a row, and the annotation fits before the tokens that come after them.
-/
import DeferFetch.Proofs.Grammar.Unit
import DeferFetch.Proofs.Walk.Annotations

namespace DeferFetch

/-- **`Stands n a ts f`** — the annotation stands among the tokens `ts`, and fits the budget `n`
before those after it and `f`. -/
def Stands (n : Nat) (a : Annotation) (ts : List Token) (f : List TokenKind) : Prop :=
  ∃ m before after, m ≤ n ∧ ts = before ++ (a.tokens ++ after) ∧ a.Fits m (kinds after ++ f)

namespace Stands

variable {n m : Nat} {a : Annotation} {ts us : List Token} {f : List TokenKind}

/-- The annotation itself. -/
theorem whole (h : a.Fits n f) : Stands n a a.tokens f :=
  ⟨n, [], [], Nat.le_refl n, by simp, h⟩

/-- Tokens may follow. -/
theorem append (us : List Token) (h : Stands n a ts (kinds us ++ f)) : Stands n a (ts ++ us) f := by
  obtain ⟨m, before, after, hm, rfl, hf⟩ := h
  refine ⟨m, before, after ++ us, hm, by simp, ?_⟩
  rwa [kinds_append, List.append_assoc]

/-- Tokens may come before. -/
theorem prepend (ts : List Token) (h : Stands n a us f) : Stands n a (ts ++ us) f := by
  obtain ⟨m, before, after, hm, rfl, hf⟩ := h
  exact ⟨m, ts ++ before, after, hm, by simp, hf⟩

theorem cons (t : Token) (h : Stands n a us f) : Stands n a (t :: us) f := h.prepend [t]

/-- A part may nest less deep than the whole. -/
theorem mono (h : Stands n a ts f) (hm : n ≤ m) : Stands m a ts f := by
  obtain ⟨l, before, after, hl, rfl, hf⟩ := h
  exact ⟨l, before, after, Nat.le_trans hl hm, rfl, hf⟩

theorem between (t : Token) (us : List Token) (h : Stands (n - 1) a ts (kinds us ++ f)) :
    Stands n a (t :: (ts ++ us)) f :=
  ((h.append us).cons t).mono (Nat.sub_le n 1)

end Stands

/-! ## Trees -/

mutual

theorem TokenTree.Fits.stands {n : Nat} {tree : TokenTree} {f : List TokenKind}
    (h : tree.Fits n f) : ∀ a ∈ tree.annotations, Stands n a tree.tokens f := by
  match tree, h with
  | .token t, _ => exact nofun
  | .group ⟨d, opening, trees, closing⟩, ⟨_, _, hf, _⟩ =>
    exact fun a ha => (TokenTree.listFits.stands hf a ha).between opening [closing]
  | .annot a, ⟨_, h⟩ => exact Annotation.Fits.stands h

theorem TokenTree.listFits.stands {n : Nat} {trees : List TokenTree} {f : List TokenKind}
    (h : TokenTree.listFits n trees f) :
    ∀ a ∈ TokenTree.listAnnotations trees, Stands n a (TokenTree.listTokens trees) f := by
  match trees, h with
  | [], _ => exact nofun
  | tree :: trees, ⟨h, hs⟩ =>
    refine List.forall_mem_append.2 ⟨fun a ha => ?_, fun a ha => ?_⟩
    · exact (TokenTree.Fits.stands h a ha).append _
    · exact (TokenTree.listFits.stands hs a ha).prepend _

theorem Annotation.Fits.stands {n : Nat} {a : Annotation} {f : List TokenKind} (h : a.Fits n f) :
    ∀ b ∈ a.annotations, Stands n b a.tokens f := by
  match a, h with
  | ⟨sigil, name, none⟩, h =>
    rintro b hb
    obtain rfl := List.mem_singleton.1 hb
    exact .whole h
  | ⟨sigil, name, some ⟨opening, arguments, commas, closing⟩⟩, h =>
    refine List.forall_mem_append.2 ⟨fun b hb => ?_, fun b hb => ?_⟩
    · have := Argument.listFits.stands h.2.2.2.2.2.2 b hb
      exact ((this.between opening [closing]).prepend name.tokens).cons sigil
    · obtain rfl := List.mem_singleton.1 hb
      exact .whole h

theorem Argument.listFits.stands {n : Nat} {arguments : List Argument} {commas : List Token}
    {f : List TokenKind} (h : Argument.listFits n arguments commas f) :
    ∀ a ∈ Argument.listAnnotations arguments,
      Stands n a (Argument.listTokens arguments commas) f := by
  match arguments, commas, h with
  | [], _, _ => exact nofun
  | ⟨label, value⟩ :: arguments, [], ⟨hnil, _, hv⟩ =>
    subst hnil
    refine List.forall_mem_append.2 ⟨fun a ha => ?_, nofun⟩
    have := (ElementValue.Fits.stands hv a ha).prepend (labelTokens label)
    simpa [Argument.listTokens] using this
  | ⟨label, value⟩ :: arguments, comma :: commas, ⟨_, _, _, hv, hf⟩ =>
    refine List.forall_mem_append.2 ⟨fun a ha => ?_, fun a ha => ?_⟩
    · rw [Argument.listTokens, List.append_assoc]
      exact ((ElementValue.Fits.stands hv a ha).append _).prepend _
    · exact ((Argument.listFits.stands hf a ha).cons comma).prepend _

theorem ElementValue.Fits.stands {n : Nat} {value : ElementValue} {f : List TokenKind}
    (h : value.Fits n f) : ∀ a ∈ value.annotations, Stands n a value.tokens f := by
  match value, h with
  | .expression trees, ⟨_, _, hf, _⟩ => exact TokenTree.listFits.stands hf
  | .annot a, h => exact Annotation.Fits.stands h
  | .array opening values commas closing, ⟨_, _, _, hf⟩ =>
    exact fun a ha => (ElementValue.listFits.stands hf a ha).between opening [closing]

theorem ElementValue.listFits.stands {n : Nat} {values : List ElementValue} {commas : List Token}
    {f : List TokenKind} (h : ElementValue.listFits n values commas f) :
    ∀ a ∈ ElementValue.listAnnotations values,
      Stands n a (ElementValue.listTokens values commas) f := by
  match values, commas, h with
  | [], _, _ => exact nofun
  | value :: values, [], ⟨hnil, hv⟩ =>
    subst hnil
    refine List.forall_mem_append.2 ⟨fun a ha => ?_, nofun⟩
    have := ElementValue.Fits.stands hv a ha
    simpa [ElementValue.listTokens] using this
  | value :: values, comma :: commas, ⟨_, hv, hf⟩ =>
    refine List.forall_mem_append.2 ⟨fun a ha => ?_, fun a ha => ?_⟩
    · exact (ElementValue.Fits.stands hv a ha).append _
    · exact ((ElementValue.listFits.stands hf a ha).cons comma).prepend _

end

theorem Group.Fits.stands {n : Nat} {g : Group} {f : List TokenKind} (h : g.Fits n f) :
    ∀ a ∈ g.annotations, Stands n a g.tokens f := by
  rw [← TokenTree.tokens_group]
  have : g.annotations = (TokenTree.group g).annotations := by cases g; rfl
  rw [this]
  exact TokenTree.Fits.stands h

/-! ## Declarations -/

theorem Modifier.Fits.stands {n : Nat} {m : Modifier} {f : List TokenKind} (h : m.Fits n f) :
    ∀ a ∈ m.annotations, Stands n a m.tokens f := by
  match m, h with
  | .annot a, ⟨_, h⟩ => exact h.stands
  | .keyword t, _ => exact nofun
  | .contextual words, _ => exact nofun

theorem Modifier.listFits.stands {n : Nat} {ms : List Modifier} {f : List TokenKind}
    (h : Modifier.listFits n ms f) :
    ∀ a ∈ ms.flatMap Modifier.annotations, Stands n a (Modifier.listTokens ms) f := by
  have go (ms : List Modifier) (h : Parser.chain Modifier.tokens (fun _ m f => m.Fits n f)
      (fun _ _ => ()) () ms f) :
      ∀ a ∈ ms.flatMap Modifier.annotations, Stands n a (ms.flatMap Modifier.tokens) f := by
    induction ms with
    | nil => exact nofun
    | cons m ms ih =>
      refine List.forall_mem_append.2 ⟨fun a ha => ?_, fun a ha => ?_⟩
      · exact (h.1.stands a ha).append _
      · exact (ih h.2 a ha).prepend _
  exact go ms h.1

theorem memberChain.stands {n : Nat} {head : Parser.MemberHead} {trees : List TokenTree}
    {f : List TokenKind} (h : memberChain n head trees f) :
    ∀ a ∈ TokenTree.listAnnotations trees, Stands n a (TokenTree.listTokens trees) f := by
  induction trees generalizing head with
  | nil => exact nofun
  | cons tree trees ih =>
    refine List.forall_mem_append.2 ⟨fun a ha => ?_, fun a ha => ?_⟩
    · have := h.1.2.stands a ha
      rw [← TokenTree.listTokens_eq_flatMap] at this
      exact this.append _
    · exact (ih h.2 a ha).prepend _

theorem fitsEnd.stands {n : Nat} {head : Parser.MemberHead} {stop : MethodBody × Bool}
    {f : List TokenKind} (h : fitsEnd n head stop f) :
    ∀ a ∈ stop.1.annotations, Stands n a stop.1.tokens f := by
  match stop, h with
  | (.semicolon t, _), _ => exact nofun
  | (.block g, _), ⟨_, _, _, _, hg⟩ => exact hg.stands

mutual

theorem TypeDeclaration.Fits.stands {n : Nat} {d : TypeDeclaration} {f : List TokenKind}
    (hms : Modifier.listFits n d.modifiers (kinds d.ownTokens ++ f)) (h : d.Fits n f) :
    ∀ a ∈ d.allAnnotations, Stands n a d.tokens f := by
  rw [d.tokens_eq]
  match d, h, hms with
  | ⟨modifiers, kind, introducer, name, header, opening, members, closing⟩,
      ⟨_, _, hh, _, _, hf, _⟩, hms =>
    refine List.forall_mem_append.2 ⟨List.forall_mem_append.2 ⟨fun a ha => ?_, fun a ha => ?_⟩,
      fun a ha => ?_⟩
    · exact (hms.stands a ha).append _
    · have := hh.1.stands a ha
      refine (Stands.prepend _ (Stands.cons name (Stands.append _ ?_))).prepend _
      simpa using this
    · have := Member.listFits.stands hf a ha
      exact (((this.between opening [closing]).prepend _).cons name).prepend _ |>.prepend _

theorem Member.Fits.stands {n : Nat} {first : Bool} {m : Member} {f : List TokenKind}
    (h : m.Fits n first f) : ∀ a ∈ m.annotations, Stands n a m.tokens f := by
  match m, h with
  | .constants trees semicolon, ⟨_, _, hf, _⟩ => exact fun a ha => (hf.stands a ha).append _
  | .empty t, _ => exact nofun
  | .block ms block, ⟨_, hms, _, hb⟩ =>
    refine List.forall_mem_append.2 ⟨fun a ha => ?_, fun a ha => ?_⟩
    · exact (hms.stands a ha).append _
    · exact (hb.stands a ha).prepend _
  | .type d, ⟨_, hms, _, hd⟩ => exact TypeDeclaration.Fits.stands hms hd
  | .field ms trees t, ⟨_, _, hms, _, _, hc, _⟩ =>
    rw [Member.tokens, List.append_assoc]
    refine List.forall_mem_append.2 ⟨fun a ha => ?_, fun a ha => ?_⟩
    · exact (hms.stands a ha).append _
    · exact ((hc.stands a ha).append _).prepend _
  | .method ms trees body, ⟨_, _, hms, _, _, hc, he⟩ =>
    rw [Member.tokens, List.append_assoc]
    refine List.forall_mem_append.2 ⟨List.forall_mem_append.2 ⟨fun a ha => ?_, fun a ha => ?_⟩,
      fun a ha => ?_⟩
    · exact (hms.stands a ha).append _
    · exact ((hc.stands a ha).append _).prepend _
    · exact ((he.stands a ha).prepend _).prepend _

theorem Member.listFits.stands {n : Nat} {first : Bool} {ms : List Member} {f : List TokenKind}
    (h : Member.listFits n first ms f) :
    ∀ a ∈ Member.listAnnotations ms, Stands n a (Member.listTokens ms) f := by
  match ms, h with
  | [], _ => exact nofun
  | m :: ms, ⟨h, hs⟩ =>
    refine List.forall_mem_append.2 ⟨fun a ha => ?_, fun a ha => ?_⟩
    · exact (Member.Fits.stands h a ha).append _
    · exact (Member.listFits.stands hs a ha).prepend _

end

theorem TopLevel.listFits.stands {n : Nat} {ds : List TopLevel} {f : List TokenKind}
    (h : TopLevel.listFits n ds f) :
    ∀ a ∈ ds.flatMap TopLevel.annotations, Stands n a (ds.flatMap TopLevel.tokens) f := by
  induction ds with
  | nil => exact nofun
  | cons d ds ih =>
    refine List.forall_mem_append.2 ⟨fun a ha => ?_, fun a ha => ?_⟩
    · match d, h.1 with
      | .type d, ⟨hms, hd⟩ => exact (hd.stands hms a ha).append _
      | .empty t, _ => cases ha
    · exact (ih h.2 a ha).prepend _

/-- **Annotations fit where they stand** — each annotation of a file that fits stands among the
tokens of the file and fits before those that come after it. -/
theorem CompilationUnit.Fits.stands {n : Nat} {u : CompilationUnit} (h : u.Fits n) :
    ∀ a ∈ u.annotations, Stands n a u.tokens [] := by
  obtain ⟨hp, -, htypes, -⟩ := h
  refine List.forall_mem_append.2 ⟨fun a ha => ?_, fun a ha => ?_⟩
  · cases hpackage : u.package? with
    | none => simp [hpackage] at ha
    | some p =>
      have hannotations := (hp p hpackage).1
      have hmem : a ∈ (p.annotations.map Modifier.annot).flatMap Modifier.annotations := by
        simpa [hpackage, List.flatMap_map, Modifier.annotations] using ha
      have := hannotations.stands a hmem
      simp only [CompilationUnit.tokens, hpackage, Option.map_some, Option.getD_some,
        Parser.packageDeclaration_tokens, Parser.packageTokens, List.append_assoc]
      refine Stands.append _ ?_
      simpa using this
  · have := htypes.stands a ha
    rw [CompilationUnit.tokens, List.append_assoc]
    refine Stands.prepend _ (Stands.append _ ?_)
    simpa using this

end DeferFetch
