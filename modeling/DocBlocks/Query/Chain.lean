import DocBlocks.Literal.Value

/-
  Query chains.

  A chain is a run of member calls whose innermost receiver is a static call on a name, such as
  `Post::where('published', true)->latest()->paginate(15)`. Closures are not searched, and neither
  is the inside of a chain that was found.
-/

namespace DocBlocks

/-- One call of a chain. -/
structure CallFrame where
  method : String
  args : List ArgumentValue
  deriving DecidableEq, Repr, Inhabited

/-- A call for reading. -/
def CallFrame.display (c : CallFrame) : String :=
  c.method ++ "(" ++ ", ".intercalate (c.args.map ArgumentValue.display) ++ ")"

/-- A chain of calls. The first call is the static one. -/
structure QueryChain where
  model : String
  calls : List CallFrame
  line : Nat
  text : String
  deriving DecidableEq, Repr, Inhabited

namespace QueryChain

/-- The names of the methods called, in order. -/
def methodNames (q : QueryChain) : List String := q.calls.map (·.method)

/-- A chain for reading. -/
def display (q : QueryChain) : String :=
  q.model ++ match q.calls with
    | [] => ""
    | c :: cs => "::" ++ c.display ++ String.join (cs.map fun c => "->" ++ c.display)

end QueryChain

/-! ### One call -/

/-- The roles in an argument that are not its value. -/
def labelFields : List (Option String) := [some "name", some "reference_modifier"]

/-- The value of an argument, labelled or not. -/
def argumentValue (n : Node) : ArgumentValue :=
  match (n.namedChildren.filter fun c => !labelFields.contains c.field).getLast? with
  | some e => valueOf e
  | none => .unresolved

/-- A call node as a frame. -/
def frameOf? (n : Node) : Option CallFrame :=
  (n.childByField? "name").map fun name =>
    { method := name.text
      args := ((n.childByField? "arguments").elim [] Node.children).filter (·.kind == .argument)
        |>.map argumentValue }

/-! ### Chains -/

theorem sizeOf_lt_of_mem_children {n c : Node} (h : c ∈ n.children) : sizeOf c < sizeOf n := by
  cases n with
  | leaf l t => simp [Node.children] at h
  | branch l cs =>
    have := List.sizeOf_lt_of_mem h
    simp only [Node.children] at this
    simp only [Node.branch.sizeOf_spec]
    omega

theorem sizeOf_lt_of_childByField? {n c : Node} {f : String} (h : n.childByField? f = some c) :
    sizeOf c < sizeOf n :=
  sizeOf_lt_of_mem_children (List.mem_of_find?_eq_some h)

/-- Walks down a chain, given its last call, through the receivers to the static call. The frames
are those of the calls passed so far, the last call first. -/
def walkChain? (last : Node) (frames : Array CallFrame) (n : Node) : Option QueryChain :=
  match n.kind with
  | .expr .memberCall => do
    let frame ← frameOf? n
    match _h : n.childByField? "object" with
    | none => none
    | some object => walkChain? last (frames.push frame) object
  | .expr .staticCall => do
    let scope ← n.childByField? "scope"
    if scope.kind = .name then
      let frame ← frameOf? n
      pure ⟨scope.text, (frames.push frame).reverse.toList, last.span.startLine, last.text⟩
    else none
  | _ => none
  termination_by n
  decreasing_by exact sizeOf_lt_of_childByField? _h

/-- The chain that ends in a call. -/
def chainOf? (n : Node) : Option QueryChain := walkChain? n #[] n

/-- The chain that a node is, if it is a call. -/
def chainAt? (n : Node) : Option QueryChain :=
  match n.kind with
  | .expr .staticCall => chainOf? n
  | .expr .memberCall => chainOf? n
  | _ => none

mutual

/-- The chains in a node, in source order. -/
def chainsIn : Node → List QueryChain
  | .leaf l t => (chainAt? (.leaf l t)).toList
  | .branch l cs =>
    if l.kind = .expr .closure then []
    else match chainAt? (.branch l cs) with
      | some q => [q]
      | none => chainsInAll cs

/-- The chains in neighbouring nodes, in source order. -/
def chainsInAll : List Node → List QueryChain
  | [] => []
  | n :: ns => chainsIn n ++ chainsInAll ns

end

/-- The chains of a method are those in its body; any other node is searched as it is. -/
def queriesOf (n : Node) : List QueryChain :=
  if n.kind = .method then (n.childByField? "body").elim [] chainsIn else chainsIn n

end DocBlocks
