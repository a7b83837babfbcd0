import DocBlocks.Controller.Descriptor
import DocBlocks.Source.Slice
import DocBlocks.Text.Blank

/-
  Describing the class of a tree.

  The first class of a source is described, with the methods that are declared public.
-/

namespace DocBlocks

/-! ### Parameters -/

/-- The name of a parameter without what stands in front of it. -/
def bareParameterName (s : String) : String :=
  String.ofList ((trimChars (s.toList.dropWhile (· == '&'))).dropWhile (· == '$'))

/-- A parameter of a parameter list. -/
def parameterOf? (n : Node) : Option Parameter :=
  match n.kind with
  | .parameter form =>
    (n.childByField? "name").map fun name =>
      { name := bareParameterName name.text
        type := (n.childByField? "type").map Node.text
        defaultValue := (n.childByField? "default_value").map Node.text
        variadic := form == .variadic
        byReference := (n.childByField? "reference_modifier").isSome ||
          name.text.toList.head? == some '&' }
  | _ => none

/-! ### Methods -/

/-- Whether a method is declared public. -/
def isPublic (method : Node) : Bool :=
  method.children.any fun c =>
    c.kind == .modifier .visibility && (trimText c.text).toLower == "public"

/-- Whether a method is declared static. -/
def isStatic (method : Node) : Bool :=
  method.children.any (·.kind == .modifier .static)

/-- Whether a character indents a line. -/
def isIndent (c : Char) : Bool := c == ' ' || c == '\t'

/-- The text of a declaration, with the indentation of its line if nothing else stands in front of
it there. -/
def declarationSource (source : String) (span : Span) : String :=
  let (before, rest) := splitBytes span.start source.toList
  let line := lastLine before
  let text := (splitBytes (span.stop - span.start) rest).1
  String.ofList (if line.all isIndent then line ++ text else text)

/-- Describes a method, given the documentation comment in front of it. -/
def describeMethod (source : String) (method : Node) (docComment : Option String) :
    MethodDescriptor :=
  { name := (method.childByField? "name").elim "" Node.text
    parameters := ((method.childByField? "parameters").elim [] Node.children).filterMap parameterOf?
    returnType := (method.childByField? "return_type").map Node.text
    isStatic := isStatic method
    span := ⟨method.span.startLine, method.span.endLine⟩
    docComment := docComment
    queries := queriesOf method
    source := declarationSource source method.span }

/-- Describes the public methods among neighbouring nodes. The nodes before them are given nearest
first. -/
def describeMethods (source : String) (before : List Node) : List Node → List MethodDescriptor
  | [] => []
  | n :: ns =>
    let rest := describeMethods source (n :: before) ns
    if n.kind == .method && isPublic n then
      let doc := (Node.docCommentBefore? before).bind fun (_, c) => c.leafText?
      describeMethod source n doc :: rest
    else rest

/-! ### Classes -/

/-- The imported names of a tree, in source order. -/
def importsOf (root : Node) : List String :=
  (root.descendants.filter (·.kind == .namespaceUse)).flatMap fun d =>
    (d.descendants.filter (·.rule == "namespace_use_clause")).map fun c => trimText c.text

/-- The reasons why a tree has no description. -/
inductive DescribeFault where
  | noClass
  | namelessClass
  deriving DecidableEq, Repr

/-- Describes the first class of a tree. The source is the text that the tree was read from. -/
def describeClass (root : Node) (source : String) : Except DescribeFault ClassDescriptor :=
  match root.findFirst? .classDeclaration with
  | none => .error .noClass
  | some c =>
    match c.childByField? "name" with
    | none => .error .namelessClass
    | some name =>
      .ok
        { className := name.text
          space := ((root.findFirst? .namespaceDefinition).bind (·.childByField? "name")).map
            Node.text
          parent := ((c.childOfKind? .baseClause).bind (·.childOfKind? .name)).map Node.text
          imports := importsOf root
          methods := (c.childByField? "body").elim [] fun b => describeMethods source [] b.children
          path := none }

end DocBlocks
