/-
# DeferFetch.Syntax.Traversal — walks that may carry state.

`mapTokensM` replaces every token of an annotation, in the order of the source. `mapAnnotationsM`
replaces every annotation of a tree or a declaration, those within an annotation's arguments before
the annotation itself, and otherwise in the order of the source.
-/
import DeferFetch.Syntax.Declaration

namespace DeferFetch

variable {m : Type → Type} [Monad m]

/-! ## Every token of an annotation -/

/-- Replaces the tokens of a name in order. -/
def QualifiedName.mapTokensM (f : Token → m Token) (n : QualifiedName) : m QualifiedName := do
  let first ← f n.first
  let others ← n.others.mapM fun segment => do
    let dot ← f segment.dot
    let identifier ← f segment.identifier
    return ⟨dot, identifier⟩
  return ⟨first, others⟩

/-- Replaces the tokens of an argument's name and equals sign. -/
def mapLabelM (f : Token → m Token) : Option (Token × Token) → m (Option (Token × Token))
  | none => pure none
  | some (name, equals) => do
    let name ← f name
    let equals ← f equals
    return some (name, equals)

mutual

/-- **`tree.mapTokensM f`** — replaces the tokens of a tree in order. -/
def TokenTree.mapTokensM (f : Token → m Token) : TokenTree → m TokenTree
  | .token t => .token <$> f t
  | .group ⟨delimiter, opening, trees, closing⟩ => do
    let opening ← f opening
    let trees ← TokenTree.listMapTokensM f trees
    let closing ← f closing
    return .group ⟨delimiter, opening, trees, closing⟩
  | .annot a => .annot <$> a.mapTokensM f

/-- Replaces the tokens of several trees in order. -/
def TokenTree.listMapTokensM (f : Token → m Token) : List TokenTree → m (List TokenTree)
  | [] => pure []
  | tree :: trees => do
    let tree ← tree.mapTokensM f
    let trees ← TokenTree.listMapTokensM f trees
    return tree :: trees

/-- **`a.mapTokensM f`** — replaces the tokens of an annotation in order. -/
def Annotation.mapTokensM (f : Token → m Token) : Annotation → m Annotation
  | ⟨sigil, name, none⟩ => do
    let sigil ← f sigil
    let name ← name.mapTokensM f
    return ⟨sigil, name, none⟩
  | ⟨sigil, name, some ⟨opening, arguments, commas, closing⟩⟩ => do
    let sigil ← f sigil
    let name ← name.mapTokensM f
    let opening ← f opening
    let (arguments, commas) ← Argument.listMapTokensM f arguments commas
    let closing ← f closing
    return ⟨sigil, name, some ⟨opening, arguments, commas, closing⟩⟩

/-- Replaces the tokens of several arguments and of the commas between them in order. -/
def Argument.listMapTokensM (f : Token → m Token) :
    List Argument → List Token → m (List Argument × List Token)
  | [], commas => do
    let commas ← commas.mapM f
    return ([], commas)
  | ⟨label, value⟩ :: arguments, [] => do
    let label ← mapLabelM f label
    let value ← value.mapTokensM f
    let (arguments, commas) ← Argument.listMapTokensM f arguments []
    return (⟨label, value⟩ :: arguments, commas)
  | ⟨label, value⟩ :: arguments, comma :: commas => do
    let label ← mapLabelM f label
    let value ← value.mapTokensM f
    let comma ← f comma
    let (arguments, commas) ← Argument.listMapTokensM f arguments commas
    return (⟨label, value⟩ :: arguments, comma :: commas)

/-- **`value.mapTokensM f`** — replaces the tokens of an element value in order. -/
def ElementValue.mapTokensM (f : Token → m Token) : ElementValue → m ElementValue
  | .expression trees => .expression <$> TokenTree.listMapTokensM f trees
  | .annot a => .annot <$> a.mapTokensM f
  | .array opening values commas closing => do
    let opening ← f opening
    let (values, commas) ← ElementValue.listMapTokensM f values commas
    let closing ← f closing
    return .array opening values commas closing

/-- Replaces the tokens of several values and of the commas between them in order. -/
def ElementValue.listMapTokensM (f : Token → m Token) :
    List ElementValue → List Token → m (List ElementValue × List Token)
  | [], commas => do
    let commas ← commas.mapM f
    return ([], commas)
  | value :: values, [] => do
    let value ← value.mapTokensM f
    let (values, commas) ← ElementValue.listMapTokensM f values []
    return (value :: values, commas)
  | value :: values, comma :: commas => do
    let value ← value.mapTokensM f
    let comma ← f comma
    let (values, commas) ← ElementValue.listMapTokensM f values commas
    return (value :: values, comma :: commas)

end

/-- **`a.mapTokens f`** — replaces every token of an annotation. -/
def Annotation.mapTokens (f : Token → Token) (a : Annotation) : Annotation :=
  Id.run (a.mapTokensM fun t => pure (f t))

/-! ## Every annotation of a tree -/

mutual

/-- **`tree.mapAnnotationsM visit`** — replaces the annotations of a tree, inner before outer. -/
def TokenTree.mapAnnotationsM (visit : Annotation → m Annotation) : TokenTree → m TokenTree
  | .token t => pure (.token t)
  | .group ⟨delimiter, opening, trees, closing⟩ => do
    let trees ← TokenTree.listMapAnnotationsM visit trees
    return .group ⟨delimiter, opening, trees, closing⟩
  | .annot a => .annot <$> a.mapAnnotationsM visit

/-- Replaces the annotations of several trees in order. -/
def TokenTree.listMapAnnotationsM (visit : Annotation → m Annotation) :
    List TokenTree → m (List TokenTree)
  | [] => pure []
  | tree :: trees => do
    let tree ← tree.mapAnnotationsM visit
    let trees ← TokenTree.listMapAnnotationsM visit trees
    return tree :: trees

/-- **`a.mapAnnotationsM visit`** — replaces the annotations within the arguments, and then the
annotation that has the new arguments. -/
def Annotation.mapAnnotationsM (visit : Annotation → m Annotation) : Annotation → m Annotation
  | ⟨sigil, name, none⟩ => visit ⟨sigil, name, none⟩
  | ⟨sigil, name, some ⟨opening, arguments, commas, closing⟩⟩ => do
    let arguments ← Argument.listMapAnnotationsM visit arguments
    visit ⟨sigil, name, some ⟨opening, arguments, commas, closing⟩⟩

/-- Replaces the annotations of several arguments in order. -/
def Argument.listMapAnnotationsM (visit : Annotation → m Annotation) :
    List Argument → m (List Argument)
  | [] => pure []
  | ⟨label, value⟩ :: arguments => do
    let value ← value.mapAnnotationsM visit
    let arguments ← Argument.listMapAnnotationsM visit arguments
    return ⟨label, value⟩ :: arguments

/-- **`value.mapAnnotationsM visit`** — replaces the annotations of an element value. -/
def ElementValue.mapAnnotationsM (visit : Annotation → m Annotation) :
    ElementValue → m ElementValue
  | .expression trees => .expression <$> TokenTree.listMapAnnotationsM visit trees
  | .annot a => .annot <$> a.mapAnnotationsM visit
  | .array opening values commas closing => do
    let values ← ElementValue.listMapAnnotationsM visit values
    return .array opening values commas closing

/-- Replaces the annotations of several values in order. -/
def ElementValue.listMapAnnotationsM (visit : Annotation → m Annotation) :
    List ElementValue → m (List ElementValue)
  | [] => pure []
  | value :: values => do
    let value ← value.mapAnnotationsM visit
    let values ← ElementValue.listMapAnnotationsM visit values
    return value :: values

end

/-- Replaces the annotations of a group. -/
def Group.mapAnnotationsM (visit : Annotation → m Annotation) (g : Group) : m Group := do
  let trees ← TokenTree.listMapAnnotationsM visit g.trees
  return { g with trees }

/-! ## Every annotation of a declaration -/

/-- Replaces the annotation that a modifier is, if it is one. -/
def Modifier.mapAnnotationsM (visit : Annotation → m Annotation) : Modifier → m Modifier
  | .annot a => .annot <$> a.mapAnnotationsM visit
  | modifier => pure modifier

/-- Replaces the annotations of a method's body. -/
def MethodBody.mapAnnotationsM (visit : Annotation → m Annotation) : MethodBody → m MethodBody
  | .block g => .block <$> g.mapAnnotationsM visit
  | .semicolon t => pure (.semicolon t)

mutual

/-- **`d.mapAnnotationsM visit`** — replaces the annotations of a type declaration: those of its
modifiers, of its header and of its members. -/
def TypeDeclaration.mapAnnotationsM (visit : Annotation → m Annotation) :
    TypeDeclaration → m TypeDeclaration
  | ⟨modifiers, kind, introducer, name, header, opening, members, closing⟩ => do
    let modifiers ← modifiers.mapM (·.mapAnnotationsM visit)
    let header ← TokenTree.listMapAnnotationsM visit header
    let members ← Member.listMapAnnotationsM visit members
    return ⟨modifiers, kind, introducer, name, header, opening, members, closing⟩

/-- **`member.mapAnnotationsM visit`** — replaces the annotations of a member. -/
def Member.mapAnnotationsM (visit : Annotation → m Annotation) : Member → m Member
  | .field modifiers trees semicolon => do
    let modifiers ← modifiers.mapM (·.mapAnnotationsM visit)
    let trees ← TokenTree.listMapAnnotationsM visit trees
    return .field modifiers trees semicolon
  | .method modifiers signature body => do
    let modifiers ← modifiers.mapM (·.mapAnnotationsM visit)
    let signature ← TokenTree.listMapAnnotationsM visit signature
    let body ← body.mapAnnotationsM visit
    return .method modifiers signature body
  | .type declaration => .type <$> declaration.mapAnnotationsM visit
  | .block modifiers block => do
    let modifiers ← modifiers.mapM (·.mapAnnotationsM visit)
    let block ← block.mapAnnotationsM visit
    return .block modifiers block
  | .constants trees semicolon => do
    let trees ← TokenTree.listMapAnnotationsM visit trees
    return .constants trees semicolon
  | .empty semicolon => pure (.empty semicolon)

/-- Replaces the annotations of several members in order. -/
def Member.listMapAnnotationsM (visit : Annotation → m Annotation) :
    List Member → m (List Member)
  | [] => pure []
  | member :: members => do
    let member ← member.mapAnnotationsM visit
    let members ← Member.listMapAnnotationsM visit members
    return member :: members

end

/-- Replaces the annotations of a top-level declaration. -/
def TopLevel.mapAnnotationsM (visit : Annotation → m Annotation) : TopLevel → m TopLevel
  | .type d => .type <$> d.mapAnnotationsM visit
  | .empty t => pure (.empty t)

/-- Replaces the annotations of a package declaration. -/
def PackageDeclaration.mapAnnotationsM (visit : Annotation → m Annotation)
    (p : PackageDeclaration) : m PackageDeclaration := do
  let annotations ← p.annotations.mapM (·.mapAnnotationsM visit)
  return { p with annotations }

/-- **`u.mapAnnotationsM visit`** — replaces every annotation of a file. -/
def CompilationUnit.mapAnnotationsM (visit : Annotation → m Annotation) (u : CompilationUnit) :
    m CompilationUnit := do
  let package? ← u.package?.mapM (·.mapAnnotationsM visit)
  let types ← u.types.mapM (·.mapAnnotationsM visit)
  return { u with package?, types }

end DeferFetch
