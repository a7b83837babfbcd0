import DocBlocks.Syntax.Node

/-
  Edits of a tree, one after the other.

  An edit names the node that it is made on by its path. Paths are those of the tree that the edits
  before it have led to.
-/

namespace DocBlocks

/-- An edit of a tree: setting the text of a node, putting a node in among the children of a branch,
or taking one of them out. -/
inductive TreeEdit where
  | setText (path : List Nat) (text : String)
  | insert (path : List Nat) (position : Nat) (node : Node)
  | remove (path : List Nat) (position : Nat)
  deriving Repr

namespace TreeEdit

/-- The node that an edit is made on. -/
def path : TreeEdit → List Nat
  | setText p _ => p
  | insert p _ _ => p
  | remove p _ => p

/-- What an edit does to the node that it is made on. -/
def change? : TreeEdit → Node → Option Node
  | setText _ text, n => some (n.withText text)
  | insert _ i c, n => n.insertChild? i c
  | remove _ i, n => n.removeChild? i

/-- Makes an edit, if its path leads to a node that it can be made on. -/
def make? (e : TreeEdit) (n : Node) : Option Node :=
  n.modifyAt? e.change? e.path

/-- Makes edits one after the other. -/
def makeAll? : List TreeEdit → Node → Option Node
  | [], n => some n
  | e :: es, n => (e.make? n).bind (makeAll? es)

end TreeEdit

end DocBlocks
