/-
# DeferFetch.Parser.Declaration — parsers for modifiers, members and types.

A member that cannot be parsed is reported and skipped, and the rest of the body is parsed as if it
were not there. The bodies of types draw on the same nesting budget as groups do.
-/
import DeferFetch.Parser.Tree

namespace DeferFetch

namespace Parser

/-! ## Modifiers -/

/-- A modifier, if one comes next. -/
def modifierRound (grammar : Grammar) : Unit → Parser (Step Modifier Unit Unit) := fun () => do
  let ks ← ahead
  if atAnnotation ks then
    return .again (some (.annot (← grammar.annot))) ()
  else if ks.head?.any TokenKind.isModifierKeyword then
    return .again (some (.keyword (← token))) ()
  else if atSealed ks then
    return .again (some (.contextual ⟨← token, []⟩)) ()
  else if atNonSealed ks then
    let non ← token
    let hyphen ← token
    let word ← token
    return .again (some (.contextual ⟨non, [hyphen, word]⟩)) ()
  else
    return .stop ()

/-- The modifiers before a declaration; there may be none. -/
def modifiers (grammar : Grammar) : Parser (List Modifier) := do
  let (modifiers, ()) ← rounds (modifierRound grammar) ()
  return modifiers

/-! ## Members -/

/-- **`MemberHead`** — what the trees of a member have shown so far: parameters in parentheses, an
equals sign outside of parameters, and the word `default`. -/
structure MemberHead where
  parameters : Bool := false
  equals : Bool := false
  default : Bool := false

/-- The tree is a group in parentheses. -/
def isParenthesized : TokenTree → Bool
  | .group g => g.delimiter = .paren
  | _ => false

/-- **`memberRound grammar head`** — the next tree of a member or the end of that, with whether it is
a field. An opening brace begins a body unless an equals sign or `default` came before it. What ends
in a semicolon is a method if it has parameters and no equals sign came before them. -/
def memberRound (grammar : Grammar) (head : MemberHead) :
    Parser (Step TokenTree (MethodBody × Bool) MemberHead) := do
  let ks ← ahead
  if atKind .semicolon ks then
    return .stop (MethodBody.semicolon (← token), !head.parameters || head.equals)
  else if !head.equals && !head.default && atKind (.opening .brace) ks then
    return .stop (.block (← grammar.group), false)
  else if atEnd ks || atClosing ks then
    unexpected .semicolon
  else
    let equals := head.equals || (!head.parameters && atKind .equals ks)
    let default := head.default || atKind (.keyword .defaultWord) ks
    let tree ← grammar.tree
    let parameters := head.parameters || (!equals && isParenthesized tree)
    return .again (some tree) ⟨parameters, equals, default⟩

/-- Everything up to the semicolon or the body that ends a member. -/
def fieldOrMethod (modifiers : List Modifier) (grammar : Grammar) : Parser Member := do
  let (trees, (body, isField)) ← rounds (memberRound grammar) {}
  match body with
  | .semicolon t => if isField then return .field modifiers trees t
                    else return .method modifiers trees body
  | .block _ => return .method modifiers trees body

/-- A member: a stray semicolon, a block, a type, a field or a method. -/
def member (grammar : Grammar) (type : List Modifier → Parser TypeDeclaration) : Parser Member := do
  if atKind .semicolon (← ahead) then
    return .empty (← token)
  let modifiers ← modifiers grammar
  let ks ← ahead
  if atKind (.opening .brace) ks then
    return .block modifiers (← grammar.group)
  else if atTypeWord ks then
    return .type (← type modifiers)
  else
    fieldOrMethod modifiers grammar

/-- The next tree of the constants of an enumeration, or their end. -/
def constantsRound (grammar : Grammar) : Unit → Parser (Step TokenTree (Option Token) Unit) :=
  fun () => do
    let ks ← ahead
    if atKind .semicolon ks then
      return .stop (some (← token))
    else if atEnd ks || atKind (.closing .brace) ks then
      return .stop none
    else if atClosing ks then
      unexpected .enumConstant
    else
      return .again (some (← grammar.tree)) ()

/-- The constants at the beginning of an enumeration's body, if there are any. -/
def constants? (grammar : Grammar) : Parser (Option Member) := do
  let (trees, semicolon) ← rounds (constantsRound grammar) ()
  if trees.isEmpty && semicolon.isNone then return none
  else return some (.constants trees semicolon)

/-- The next member of a type, or the closing brace of its body. -/
def bodyRound (opening : Token) (grammar : Grammar)
    (type : List Modifier → Parser TypeDeclaration) : Unit → Parser (Step Member Token Unit) :=
  fun () => do
    let ks ← ahead
    if atKind (.closing .brace) ks then
      return .stop (← token)
    else if atEnd ks then
      fail (.unclosed .brace opening)
    else
      return .again (← (member grammar type).orSkip toNextMember) ()

/-- The members of a type and its closing brace, when the opening one has been read. -/
def bodyContents (kind : TypeKind) (opening : Token) (grammar : Grammar)
    (type : List Modifier → Parser TypeDeclaration) : Parser (List Member × Token) := do
  let constants ←
    if kind = .enumeration then (constants? grammar).orSkip toNextMember else pure none
  let (members, closing) ← rounds (bodyRound opening grammar type) ()
  return (constants.join.toList ++ members, closing)

/-! ## Types -/

/-- The words that tell what kind of type is declared. -/
def introducer : Parser (TypeKind × Words) := do
  match ← ahead with
  | .keyword w :: _ =>
    if w = .classWord then return (.class, ⟨← token, []⟩)
    else if w = .interfaceWord then return (.interface, ⟨← token, []⟩)
    else if w = .enumWord then return (.enumeration, ⟨← token, []⟩)
    else unexpected .typeWord
  | .at :: .keyword w :: _ =>
    if w = .interfaceWord then
      let sigil ← token
      let word ← token
      return (.annotationType, ⟨sigil, [word]⟩)
    else unexpected .typeWord
  | .identifier name :: _ =>
    if name = "record" then return (.record, ⟨← token, []⟩) else unexpected .typeWord
  | _ => unexpected .typeWord

/-- The next tree between the name of a type and its body, if that does not begin here. -/
def headerRound (grammar : Grammar) : Unit → Parser (Step TokenTree Unit Unit) := fun () => do
  let ks ← ahead
  if atKind (.opening .brace) ks then
    return .stop ()
  else if atEnd ks || atClosing ks || atKind .semicolon ks then
    unexpected .openingBrace
  else
    return .again (some (← grammar.tree)) ()

/-- The trees between the name of a type and its body. -/
def typeHeader (grammar : Grammar) : Parser (List TokenTree) := do
  let (trees, ()) ← rounds (headerRound grammar) ()
  return trees

/-- A type declaration after its modifiers, with `body?` to parse the contents of its body, if the
budget allows another level. -/
def typeWith (grammar : Grammar)
    (body? : Option (TypeKind → Token → Parser (List Member × Token))) (modifiers : List Modifier) :
    Parser TypeDeclaration := do
  let (kind, introducer) ← introducer
  let name ← expect TokenKind.isIdentifier .typeName
  let header ← typeHeader grammar
  let opening ← expect (· = .opening .brace) .openingBrace
  let (members, closing) ← match body? with
    | some body => body kind opening
    | none => fail .nestingTooDeep
  return ⟨modifiers, kind, introducer, name, header, opening, members, closing⟩

/-- **`typeOfBudget n`** — a type declaration after its modifiers, in which parts nest at most `n`
deep, the type's own body included. -/
def typeOfBudget : Nat → List Modifier → Parser TypeDeclaration
  | 0 => typeWith (.ofBudget 0) none
  | n + 1 =>
    typeWith (.ofBudget (n + 1))
      (some fun kind opening => bodyContents kind opening (.ofBudget n) (typeOfBudget n))

end Parser

end DeferFetch
