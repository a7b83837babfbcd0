import DocBlocks.Query.Chain

/-
  Descriptions of controller classes.
-/

namespace DocBlocks

/-- A parameter of a method. The name has no dollar sign; type and default are as written. -/
structure Parameter where
  name : String
  type : Option String
  defaultValue : Option String
  variadic : Bool
  byReference : Bool
  deriving DecidableEq, Repr, Inhabited

/-- A range of lines, both ends included. -/
structure LineRange where
  startLine : Nat
  endLine : Nat
  deriving DecidableEq, Repr, Inhabited

/-- A public method. The source text is as written, with the indentation of its first line. -/
structure MethodDescriptor where
  name : String
  parameters : List Parameter
  returnType : Option String
  isStatic : Bool
  span : LineRange
  docComment : Option String
  queries : List QueryChain
  source : String
  deriving DecidableEq, Repr, Inhabited

/-- A class. The path is that of the file it was read from, if it was read from one. -/
structure ClassDescriptor where
  className : String
  space : Option String
  parent : Option String
  imports : List String
  methods : List MethodDescriptor
  path : Option String
  deriving DecidableEq, Repr, Inhabited

namespace ClassDescriptor

/-- The name of a class with its namespace. -/
def qualifiedName (c : ClassDescriptor) : String :=
  match c.space with
  | some space => space ++ "\\" ++ c.className
  | none => c.className

/-- The first method with a name. -/
def method? (c : ClassDescriptor) (name : String) : Option MethodDescriptor :=
  c.methods.find? (·.name == name)

end ClassDescriptor

end DocBlocks
