/-
# DeferFetch.Proofs.Walk.Opening — what shows up to the next annotation.

Walks replace annotations, but each replacement begins with an at sign where the old annotation did.
What comes before an annotation sees no more than that sign: no test on the kinds ahead looks past it
(`untilSign`), and no token is read any further (`throughSign`). So whatever stands outside of
annotations fits and is legible before the new ones if it was before the old ones.
-/
import DeferFetch.Proofs.Grammar.Unit
import DeferFetch.Proofs.Lexing.Reading

namespace DeferFetch

/-! ## Kinds of tokens -/

/-- **`untilSign ks`** — the kinds up to the at sign of the next annotation, that included. -/
def untilSign : List TokenKind → List TokenKind
  | [] => []
  | k :: ks => if atAnnotation (k :: ks) then [k] else k :: untilSign ks

theorem untilSign_cons (k : TokenKind) (ks : List TokenKind) :
    ∃ us, untilSign (k :: ks) = k :: us := by
  rw [untilSign]
  split
  · exact ⟨[], rfl⟩
  · exact ⟨untilSign ks, rfl⟩

theorem head?_untilSign (ks : List TokenKind) : (untilSign ks).head? = ks.head? := by
  cases ks with
  | nil => rfl
  | cons k ks =>
    obtain ⟨us, h⟩ := untilSign_cons k ks
    rw [h]
    rfl

/-- **`SameKinds f g`** — the kinds are the same up to the next annotation, if there is one. -/
def SameKinds (f g : List TokenKind) : Prop := untilSign f = untilSign g

namespace SameKinds

variable {f g h : List TokenKind}

protected theorem refl (f : List TokenKind) : SameKinds f f := rfl

theorem head? (h : SameKinds f g) : f.head? = g.head? := by
  rw [← head?_untilSign f, ← head?_untilSign g, h]

/-- That an at sign begins an annotation shows at the kind after it. -/
theorem atAnnotation_cons {k : TokenKind} (h : f.head? = g.head?) :
    atAnnotation (k :: f) = atAnnotation (k :: g) := by
  cases f with
  | nil => rw [List.head?_eq_none_iff.1 h.symm]
  | cons l f =>
    obtain ⟨g, rfl⟩ := List.head?_eq_some_iff.1 h.symm
    cases k <;> first | rfl | (cases l <;> rfl)

theorem cons (k : TokenKind) (h : SameKinds f g) : SameKinds (k :: f) (k :: g) := by
  rw [SameKinds, untilSign, untilSign, atAnnotation_cons h.head?, h]

/-- The same kinds may come before. -/
theorem append (ks : List TokenKind) (h : SameKinds f g) : SameKinds (ks ++ f) (ks ++ g) := by
  induction ks with
  | nil => exact h
  | cons k ks ih => exact ih.cons k

/-- Annotations begin alike. -/
theorem of_opens (hf : atAnnotation f = true) (hg : atAnnotation g = true) :
    SameKinds f g := by
  have sign {ks : List TokenKind} (h : atAnnotation ks = true) : untilSign ks = [.at] := by
    cases ks with
    | nil => cases h
    | cons k ks =>
      rw [untilSign, if_pos h]
      unfold atAnnotation at *
      cases k <;> simp_all
  rw [SameKinds, sign hf, sign hg]

end SameKinds

/-- **`Shortsighted test`** — the test looks no further than to the next annotation. -/
def Shortsighted (test : List TokenKind → Bool) : Prop := ∀ ks, test (untilSign ks) = test ks

theorem Shortsighted.congr {test : List TokenKind → Bool} {f g : List TokenKind}
    (h : Shortsighted test) (same : SameKinds f g) : test f = test g := by
  rw [← h f, ← h g, same]

namespace Shortsighted

/-- A test on the first kind only. -/
theorem of_head? (test : Option TokenKind → Bool) : Shortsighted fun ks => test ks.head? := by
  intro ks
  show test (untilSign ks).head? = test ks.head?
  rw [head?_untilSign]

protected theorem or {p q : List TokenKind → Bool} (hp : Shortsighted p) (hq : Shortsighted q) :
    Shortsighted fun ks => p ks || q ks := by
  intro ks
  show (p (untilSign ks) || q (untilSign ks)) = _
  rw [hp ks, hq ks]

theorem atKind (k : TokenKind) : Shortsighted (DeferFetch.atKind k) :=
  of_head? fun first => first = some k

theorem atClosing : Shortsighted DeferFetch.atClosing := of_head? fun first => first.any _

theorem atEnd : Shortsighted DeferFetch.atEnd := by
  intro ks
  cases ks with
  | nil => rfl
  | cons k ks =>
    obtain ⟨us, h⟩ := untilSign_cons k ks
    rw [h]
    rfl

/-- Where the first kind begins no annotation, tests go on to the next one. -/
theorem of_tail {test : List TokenKind → Bool} (nil : test (untilSign []) = test [])
    (sign : ∀ ks, DeferFetch.atAnnotation (.at :: ks) = true → test [.at] = test (.at :: ks))
    (next : ∀ k ks, DeferFetch.atAnnotation (k :: ks) = false →
      test (k :: untilSign ks) = test (k :: ks)) : Shortsighted test := by
  intro ks
  cases ks with
  | nil => exact nil
  | cons k ks =>
    cases h : DeferFetch.atAnnotation (k :: ks) with
    | true =>
      obtain rfl : k = .at := by cases k <;> simp_all [DeferFetch.atAnnotation]
      rw [untilSign, if_pos h]
      exact sign ks h
    | false =>
      rw [untilSign, h]
      exact next k ks h

theorem atAnnotation : Shortsighted DeferFetch.atAnnotation := by
  refine of_tail rfl (fun ks h => h.symm) fun k ks h => ?_
  exact SameKinds.atAnnotation_cons (head?_untilSign ks)

theorem atSegment : Shortsighted DeferFetch.atSegment := by
  refine of_tail rfl (fun _ _ => rfl) fun k ks _ => ?_
  rcases ks with _ | ⟨l, ks⟩
  · rfl
  obtain ⟨us, h⟩ := untilSign_cons l ks
  rw [h]
  cases k <;> first | rfl | (cases l <;> rfl)

theorem atLabel : Shortsighted DeferFetch.atLabel := by
  refine of_tail rfl (fun _ _ => rfl) fun k ks _ => ?_
  rcases ks with _ | ⟨l, ks⟩
  · rfl
  obtain ⟨us, h⟩ := untilSign_cons l ks
  rw [h]
  cases k <;> first | rfl | (cases l <;> rfl)

theorem atSealed : Shortsighted DeferFetch.atSealed := by
  refine of_tail rfl (fun _ _ => rfl) fun k ks _ => ?_
  rcases ks with _ | ⟨l, ks⟩
  · rfl
  obtain ⟨us, h⟩ := untilSign_cons l ks
  rw [h]
  cases k <;> rfl

theorem beginsOther : Shortsighted DeferFetch.beginsOther := by
  refine of_tail rfl (fun _ _ => rfl) fun k ks _ => ?_
  cases k with
  | opening delimiter => cases delimiter <;> rfl
  | _ => rfl

theorem atNonSealed : Shortsighted DeferFetch.atNonSealed := by
  refine of_tail rfl (fun _ _ => rfl) fun k ks _ => ?_
  cases k with
  | identifier non =>
    rcases ks with _ | ⟨l, ks⟩
    · rfl
    cases l with
    | operator minus =>
      show DeferFetch.atNonSealed (.identifier non :: .operator minus :: untilSign ks) = _
      rcases ks with _ | ⟨m, ks⟩
      · rfl
      obtain ⟨us, h⟩ := untilSign_cons m ks
      rw [h]
      cases m <;> rfl
    | _ =>
      obtain ⟨us, h⟩ := untilSign_cons _ ks
      rw [h]
      rfl
  | _ => rfl

theorem atTypeWord : Shortsighted DeferFetch.atTypeWord := by
  refine of_tail rfl (fun ks h => ?_) fun k ks h => ?_
  · rcases ks with _ | ⟨l, ks⟩
    · rfl
    cases l with
    | keyword w => simpa [DeferFetch.atTypeWord, DeferFetch.atAnnotation] using h
    | _ => rfl
  · cases k with
    | «at» =>
      rcases ks with _ | ⟨l, ks⟩
      · rfl
      obtain ⟨us, h⟩ := untilSign_cons l ks
      rw [h]
      cases l <;> rfl
    | identifier name =>
      rcases ks with _ | ⟨l, ks⟩
      · rfl
      cases l with
      | identifier second =>
        show DeferFetch.atTypeWord (.identifier name :: .identifier second :: untilSign ks) = _
        rcases ks with _ | ⟨m, ks⟩
        · rfl
        obtain ⟨us, h⟩ := untilSign_cons m ks
        rw [h]
        rfl
      | _ =>
        obtain ⟨us, h⟩ := untilSign_cons _ ks
        rw [h]
        rfl
    | _ => rfl

theorem startsModifier : Shortsighted DeferFetch.startsModifier :=
  .or (.or (.or atAnnotation (of_head? fun first => first.any _)) atSealed) atNonSealed

theorem endsExpression : Shortsighted DeferFetch.endsExpression := .or (.or atEnd atClosing) (atKind _)

theorem endsHeader : Shortsighted DeferFetch.endsHeader := .or (atKind _) (atKind _)

theorem endsConstants : Shortsighted DeferFetch.endsConstants := .or atEnd (atKind _)

theorem endsMember (head : Parser.MemberHead) : Shortsighted (DeferFetch.endsMember head) :=
  .or (atKind _) fun ks => by rw [atKind _ ks]

end Shortsighted

/-! ## Characters -/

/-- **`throughSign cs`** — the characters up to the first at sign, that included. -/
def throughSign : List Char → List Char
  | [] => []
  | c :: cs => if c = '@' then [c] else c :: throughSign cs

/-- **`SameText xs ys`** — the texts are the same up to the first at sign, if there is one. -/
def SameText (xs ys : List Char) : Prop := throughSign xs = throughSign ys

namespace SameText

variable {xs ys : List Char}

protected theorem refl (xs : List Char) : SameText xs xs := rfl

theorem append (cs : List Char) (h : SameText xs ys) : SameText (cs ++ xs) (cs ++ ys) := by
  induction cs with
  | nil => exact h
  | cons c cs ih => rw [SameText, List.cons_append, List.cons_append, throughSign, throughSign, ih]

/-- What comes after an at sign does not matter. -/
theorem sign (cs xs ys : List Char) : SameText (cs ++ '@' :: xs) (cs ++ '@' :: ys) :=
  append cs rfl

theorem exists_sign (h : SameText xs ys) :
    xs = ys ∨ ∃ cs zs zs', xs = cs ++ '@' :: zs ∧ ys = cs ++ '@' :: zs' := by
  induction xs generalizing ys with
  | nil =>
    cases ys with
    | nil => exact .inl rfl
    | cons y ys =>
      rw [SameText, throughSign, throughSign] at h
      split at h <;> cases h
  | cons x xs ih =>
    cases ys with
    | nil =>
      rw [SameText, throughSign, throughSign] at h
      split at h <;> cases h
    | cons y ys =>
      rw [SameText, throughSign, throughSign] at h
      split at h <;> split at h
      · rename_i hx hy
        exact .inr ⟨[], xs, ys, by rw [hx]; rfl, by rw [hy]; rfl⟩
      · rename_i hx hy
        exact absurd ((List.cons.inj h).1.symm.trans hx) hy
      · rename_i hx hy
        exact absurd ((List.cons.inj h).1.trans hy) hx
      · obtain ⟨rfl, rest⟩ := List.cons.inj h
        rcases ih rest with rfl | ⟨cs, zs, zs', rfl, rfl⟩
        · exact .inl rfl
        · exact .inr ⟨x :: cs, zs, zs', rfl, rfl⟩

/-- No token is read past an at sign. -/
theorem readsBefore {k : TokenKind} (h : SameText xs ys) (hk : k.isError = false)
    (read : k.ReadsBefore xs) : k.ReadsBefore ys := by
  rcases h.exists_sign with rfl | ⟨cs, zs, zs', rfl, rfl⟩
  · exact read
  · have sign : EndsToken '@' := by decide
    refine read.congr (fun raw cause error => ?_) sign sign fun h => h
    rw [error] at hk
    cases hk

theorem legible {ts : List Token} (h : SameText xs ys) (plain : ∀ t ∈ ts, t.kind.isError = false)
    (read : Legible ts xs) : Legible ts ys := by
  induction ts with
  | nil => trivial
  | cons t ts ih =>
    obtain ⟨gap, first, others⟩ := read
    obtain ⟨ht, hts⟩ := List.forall_mem_cons.1 plain
    exact ⟨gap, (h.append (spelling ts)).readsBefore ht first, ih hts others⟩

end SameText

end DeferFetch
