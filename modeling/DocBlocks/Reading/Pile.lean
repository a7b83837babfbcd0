import DocBlocks.Reading.Concrete

/-
  Piles of concrete trees.

  A pile holds what has been read, the last tree on top, and with each tree the state reached behind
  it.
-/

namespace DocBlocks

/-- A tree on a pile, and the state behind it. -/
structure Layer where
  tree : Concrete
  state : State
  deriving Repr

/-- A pile, its top first. -/
abbrev Pile := List Layer

namespace Pile

/-- The state reached. -/
def state : Pile → State
  | [] => .start
  | l :: _ => l.state

/-- All trees in order. -/
def trees (p : Pile) : List Concrete := (p.map (·.tree)).reverse

end Pile

/-- Splits off the extras at the end. -/
def splitExtras (trees : List Concrete) : List Concrete × List Concrete :=
  let extras := (trees.reverse.takeWhile (·.isExtra)).reverse
  (trees.take (trees.length - extras.length), extras)

end DocBlocks
