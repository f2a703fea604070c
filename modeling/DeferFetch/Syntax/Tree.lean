/-
# DeferFetch.Syntax.Tree — token trees and annotations.

What is not a declaration is kept as token trees: tokens, bracketed groups and annotations, the last
with their arguments. Every token of the source stands in exactly one place of a tree, and `tokens`
lists them in the order of the source, so printing a tree is printing its tokens.
-/
import DeferFetch.Syntax.Name

namespace DeferFetch

mutual

/-- **`TokenTree`** — a token, a group of trees between brackets, or an annotation. -/
inductive TokenTree where
  | token (token : Token)
  | group (group : Group)
  | annot (annot : Annotation)

/-- **`Group`** — trees between an opening bracket and the closing one that matches it. -/
structure Group where
  delimiter : Delimiter
  opening : Token
  trees : List TokenTree
  closing : Token

/-- **`Annotation`** — an at sign, a name and, unless it is a marker, arguments in parentheses. -/
structure Annotation where
  sigil : Token
  name : QualifiedName
  arguments? : Option ArgumentList

/-- **`ArgumentList`** — the arguments of an annotation between parentheses. The comma at an index
follows the argument at that index; the parser leaves one comma fewer than arguments. -/
structure ArgumentList where
  opening : Token
  arguments : List Argument
  commas : List Token
  closing : Token

/-- **`Argument`** — the value of one element, after the element's name and an equals sign unless it
is the only argument and stands alone. -/
structure Argument where
  label : Option (Token × Token)
  value : ElementValue

/-- **`ElementValue`** — an expression, an annotation, or values between braces. The comma at an
index follows the value at that index, and the last value may have one too. -/
inductive ElementValue where
  | expression (trees : List TokenTree)
  | annot (annot : Annotation)
  | array (opening : Token) (values : List ElementValue) (commas : List Token) (closing : Token)

end

/-! ## The tokens of a tree -/

/-- The tokens of an argument's name and equals sign. -/
def labelTokens : Option (Token × Token) → List Token
  | none => []
  | some (name, equals) => [name, equals]

mutual

/-- **`tree.tokens`** — the tokens of a tree in the order of the source. -/
def TokenTree.tokens : TokenTree → List Token
  | .token t => [t]
  | .group ⟨_, opening, trees, closing⟩ => opening :: (TokenTree.listTokens trees ++ [closing])
  | .annot a => a.tokens

/-- The tokens of several trees. -/
def TokenTree.listTokens : List TokenTree → List Token
  | [] => []
  | tree :: trees => tree.tokens ++ TokenTree.listTokens trees

/-- **`a.tokens`** — the tokens of an annotation in the order of the source. -/
def Annotation.tokens : Annotation → List Token
  | ⟨sigil, name, none⟩ => sigil :: name.tokens
  | ⟨sigil, name, some ⟨opening, arguments, commas, closing⟩⟩ =>
    sigil :: (name.tokens ++ opening :: (Argument.listTokens arguments commas ++ [closing]))

/-- The tokens of several arguments, each with the comma at its index; commas that are left over
come last. -/
def Argument.listTokens : List Argument → List Token → List Token
  | [], commas => commas
  | ⟨label, value⟩ :: arguments, [] =>
    labelTokens label ++ value.tokens ++ Argument.listTokens arguments []
  | ⟨label, value⟩ :: arguments, comma :: commas =>
    labelTokens label ++ value.tokens ++ comma :: Argument.listTokens arguments commas

/-- **`value.tokens`** — the tokens of an element value in the order of the source. -/
def ElementValue.tokens : ElementValue → List Token
  | .expression trees => TokenTree.listTokens trees
  | .annot a => a.tokens
  | .array opening values commas closing =>
    opening :: (ElementValue.listTokens values commas ++ [closing])

/-- The tokens of several values, each with the comma at its index; commas that are left over come
last. -/
def ElementValue.listTokens : List ElementValue → List Token → List Token
  | [], commas => commas
  | value :: values, [] => value.tokens ++ ElementValue.listTokens values []
  | value :: values, comma :: commas =>
    value.tokens ++ comma :: ElementValue.listTokens values commas

end

/-- The tokens of a group, its brackets included. -/
def Group.tokens (g : Group) : List Token :=
  g.opening :: (TokenTree.listTokens g.trees ++ [g.closing])

/-- The tokens of an argument, its name and equals sign included. -/
def Argument.tokens (a : Argument) : List Token := labelTokens a.label ++ a.value.tokens

/-- A group has the same tokens as a tree and on its own. -/
@[simp] theorem TokenTree.tokens_group (g : Group) : (TokenTree.group g).tokens = g.tokens := by
  cases g; simp [TokenTree.tokens, Group.tokens]

/-! ## Parts and texts -/

namespace Annotation

/-- The arguments of the annotation; none for a marker and for empty parentheses. -/
def arguments (a : Annotation) : List Argument := (a.arguments?.map ArgumentList.arguments).getD []

/-- **`a.span`** — from the at sign to the closing parenthesis, or else to the end of the name. -/
def span (a : Annotation) : Span :=
  a.sigil.span.through ((a.arguments?.map ArgumentList.closing).getD a.name.last).span

/-- The annotation as it stands in the source, with what precedes it. -/
def source (a : Annotation) : String := print a.tokens

end Annotation

namespace Argument

/-- The name of the element the argument is for, if it is written. -/
def name? (a : Argument) : Option String := a.label.map (·.1.text)

/-- The argument as it stands in the source, with what precedes it. -/
def source (a : Argument) : String := print a.tokens

end Argument

/-- The value as it stands in the source, with what precedes it. -/
def ElementValue.source (v : ElementValue) : String := print v.tokens

/-- The token that the tree consists of, if it is a single one. -/
def TokenTree.token? : TokenTree → Option Token
  | .token t => some t
  | _ => none

end DeferFetch
