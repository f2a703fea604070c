/-
# DeferFetch.Parser.Tree — parsers for token trees and annotations.

Groups, annotations and braces among element values nest at most as deep as a budget allows. The
parsers for one budget are built from those for the next smaller one, which read what stands one
level deeper; at the end of the budget a nested part fails.
-/
import DeferFetch.Parser.Basic
import DeferFetch.Parser.Lookahead

namespace DeferFetch

/-- **`Grammar`** — the parsers for everything that may nest, at some depth. -/
structure Grammar where
  tree : Parser TokenTree
  group : Parser Group
  annot : Parser Annotation
  value : Parser ElementValue

namespace Parser

/-- Parses one level deeper, with the parsers for that level, or fails if there are none. -/
def nested {α : Type} (inner : Option Grammar) (parse : Grammar → Parser α) : Parser α :=
  match inner with
  | some grammar => parse grammar
  | none => fail .nestingTooDeep

/-- A dot and an identifier, if they come next. -/
def segmentRound : Unit → Parser (Step NameSegment Unit Unit) := fun () => do
  if atSegment (← ahead) then
    let dot ← token
    let identifier ← token
    return .again (some ⟨dot, identifier⟩) ()
  else
    return .stop ()

/-- **`qualifiedName expected`** — an identifier, and more after dots. -/
def qualifiedName (expected : Expectation) : Parser QualifiedName := do
  let first ← expect TokenKind.isIdentifier expected
  let (others, ()) ← rounds segmentRound ()
  return ⟨first, others⟩

/-! ## Groups -/

/-- The next tree of a group, or its closing bracket. -/
def groupRound (delimiter : Delimiter) (opening : Token) (grammar : Grammar) :
    Unit → Parser (Step TokenTree Token Unit) := fun () => do
  let ks ← ahead
  if atEnd ks then
    fail (.unclosed delimiter opening)
  else if atKind (.closing delimiter) ks then
    return .stop (← token)
  else if atClosing ks then
    fail (.mismatched delimiter opening)
  else
    return .again (some (← grammar.tree)) ()

/-- The trees of a group and its closing bracket, when its opening one has been read. -/
def groupContents (delimiter : Delimiter) (opening : Token) (grammar : Grammar) :
    Parser Group := do
  let (trees, closing) ← rounds (groupRound delimiter opening grammar) ()
  return ⟨delimiter, opening, trees, closing⟩

/-- A group. -/
def groupWithin (inner : Option Grammar) : Parser Group := do
  match ← ahead with
  | .opening delimiter :: _ =>
    let opening ← token
    nested inner (groupContents delimiter opening)
  | _ => unexpected .openingBracket

/-! ## Annotations -/

/-- The element name and equals sign before a value, if they come next. -/
def label? : Parser (Option (Token × Token)) := do
  if atLabel (← ahead) then
    let name ← token
    let equals ← token
    return some (name, equals)
  else
    return none

/-- **`argumentRound`** — an argument and the comma or parenthesis after it. An argument without a
name must be the only one: the round starts from the label of the first argument, of which there is
none yet in the first round. -/
def argumentRound (grammar : Grammar) (first : Option (Option (Token × Token))) :
    Parser (Step (Argument × Token) (Argument × Token) (Option (Option (Token × Token)))) := do
  let start ← peek
  let label ← label?
  let value ← grammar.value
  if first.any fun earlier => earlier.isNone || label.isNone then
    fail (.unnamedAmongOthers start)
  let argument : Argument := ⟨label, value⟩
  match ← ahead with
  | .comma :: _ => return .again (some (argument, ← token)) (some (first.getD label))
  | .closing .paren :: _ => return .stop (argument, ← token)
  | _ => unexpected .commaOrParenthesis

/-- The arguments, each with the comma or parenthesis after it. -/
def argumentRounds (grammar : Grammar) :
    Parser (List (Argument × Token) × (Argument × Token)) :=
  rounds (argumentRound grammar) none

/-- The arguments in parentheses. -/
def argumentList (grammar : Grammar) : Parser ArgumentList := do
  let opening ← token
  if atKind (.closing .paren) (← ahead) then
    return ⟨opening, [], [], ← token⟩
  let (front, (last, closing)) ← argumentRounds grammar
  return ⟨opening, front.map Prod.fst ++ [last], front.map Prod.snd, closing⟩

/-- The name of an annotation and its arguments, when the at sign has been read. -/
def annotationRest (sigil : Token) (grammar : Grammar) : Parser Annotation := do
  let name ← qualifiedName .annotationName
  if atKind (.opening .paren) (← ahead) then
    return ⟨sigil, name, some (← argumentList grammar)⟩
  else
    return ⟨sigil, name, none⟩

/-- An annotation. -/
def annotationWithin (inner : Option Grammar) : Parser Annotation := do
  let sigil ← expect (· = .at) .atSign
  nested inner (annotationRest sigil)

/-! ## Trees and element values -/

/-- A tree: a group, an annotation, or any other token that closes no group. -/
def treeWithin (inner : Option Grammar) : Parser TokenTree := do
  let ks ← ahead
  if atOpening ks then
    return .group (← groupWithin inner)
  else if atAnnotation ks then
    return .annot (← annotationWithin inner)
  else if atEnd ks || atClosing ks then
    unexpected .token
  else
    return .token (← token)

/-- A value between braces and the comma after it, if there is one, or else the closing brace. -/
def arrayRound (grammar : Grammar) :
    Unit → Parser (Step (ElementValue × Option Token) Token Unit) := fun () => do
  if atKind (.closing .brace) (← ahead) then
    return .stop (← token)
  let value ← grammar.value
  match ← ahead with
  | .comma :: _ => return .again (some (value, some (← token))) ()
  | .closing .brace :: _ => return .again (some (value, none)) ()
  | _ => unexpected .commaOrBrace

/-- The values between braces and the closing brace, when the opening one has been read. -/
def arrayContents (opening : Token) (grammar : Grammar) : Parser ElementValue := do
  let (items, closing) ← rounds (arrayRound grammar) ()
  return .array opening (items.map Prod.fst) (items.filterMap Prod.snd) closing

/-- The next tree of an expression, if that does not end here. -/
def expressionRound (inner : Option Grammar) : Unit → Parser (Step TokenTree Unit Unit) :=
  fun () => do
    let ks ← ahead
    if atEnd ks || atClosing ks || atKind .comma ks then
      return .stop ()
    else
      return .again (some (← treeWithin inner)) ()

/-- The trees of an expression: everything up to a comma, a closing bracket or the end. -/
def expressionTrees (inner : Option Grammar) : Parser (List TokenTree) := do
  let (trees, ()) ← rounds (expressionRound inner) ()
  return trees

/-- The value of an element. -/
def valueWithin (inner : Option Grammar) : Parser ElementValue := do
  match ← ahead with
  | .at :: _ => return .annot (← annotationWithin inner)
  | .opening .brace :: _ =>
    let opening ← token
    nested inner (arrayContents opening)
  | _ =>
    let trees ← expressionTrees inner
    if trees.isEmpty then unexpected .elementValue else return .expression trees

end Parser

namespace Grammar

/-- The parsers of a level, given those of the next deeper one. -/
def within (inner : Option Grammar) : Grammar where
  tree := .treeWithin inner
  group := .groupWithin inner
  annot := .annotationWithin inner
  value := .valueWithin inner

/-- **`ofBudget n`** — the parsers for parts that nest at most `n` deep. -/
def ofBudget : Nat → Grammar
  | 0 => within none
  | n + 1 => within (some (ofBudget n))

end Grammar

/-- How deep groups, annotations, type bodies and braces among element values may nest. -/
def maxNesting : Nat := 64

end DeferFetch
