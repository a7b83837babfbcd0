import DocBlocks.Reading.Reader

/-
  Parts of a repaired tree, by what matters for choosing between repairs.

  A repair is judged by what it costs: text left out costs by its bytes, its lines and the nodes it
  would have held, a token made up costs a fixed amount. A part knows its cost and its first fault,
  so the tree itself is never kept.
-/

namespace DocBlocks

/-- What a repair did to the source. -/
inductive Fault where
  /-- Text that no rule takes in. -/
  | leftOut (start stop : Nat)
  /-- A token made up. -/
  | madeUp (title : String) (place : Nat)
  deriving DecidableEq, Repr

/-- The sorts of parts. -/
inductive PartSort where
  /-- A token, an extra or a phrase. -/
  | plain
  /-- Characters that begin no token. -/
  | strange
  /-- Parts left out. -/
  | error
  /-- Tokens skipped, as long as no way on has been found. -/
  | run
  deriving DecidableEq, Repr

/-- A part of a tree. -/
structure Part where
  sort : PartSort
  /-- The number of the symbol, if the part is a token or a phrase. -/
  symbol? : Option Nat
  start : Spot
  /-- The place behind the part. -/
  stop : Site
  isExtra : Bool
  isVisible : Bool
  /-- The nodes right below the part. -/
  kids : Nat
  /-- All nodes below the part. -/
  below : Nat
  cost : Nat
  fault? : Option Fault
  deriving DecidableEq, Repr

namespace Part

/-- What leaving something out costs by itself. -/
def errorCost : Nat := 500

/-- What a token made up costs. -/
def missingCost : Nat := 110

/-- What a node left out costs. -/
def nodeCost : Nat := 100

/-- What a line left out costs; a byte costs one. -/
def rowCost : Nat := 30

/-- What text between two places costs if it is left out. -/
def textCost (start stop : Spot) : Nat :=
  (stop.byte - start.byte) + rowCost * (stop.row - start.row)

/-- The part of a token between two places. -/
def token (symbol : Nat) (start : Spot) (stop : Site) (isHidden : Bool) : Part :=
  ⟨.plain, some symbol, start, stop, false, !isHidden, 0, 0, 0, none⟩

/-- The part of an extra between two places. -/
def extra (start : Spot) (stop : Site) : Part :=
  ⟨.plain, none, start, stop, true, true, 0, 0, 0, none⟩

/-- The part of characters that begin no token. -/
def strange (start : Spot) (stop : Site) : Part :=
  ⟨.strange, none, start, stop, false, true, 0, 0, 0, some (.leftOut start.byte stop.spot.byte)⟩

/-- A token made up. -/
def missing (symbol : Nat) (site : Site) (isHidden : Bool) (title : String) : Part :=
  ⟨.plain, some symbol, site.spot, site, false, !isHidden, 0, 0, missingCost + errorCost,
    some (.madeUp title site.spot.byte)⟩

/-- The nodes that a part is or holds, for counting how much has been read. A run counts as
one. -/
def weight (p : Part) : Nat :=
  p.below + (if p.isVisible then 1 else 0) + (if p.sort == .run then 1 else 0)

/-- What leaving a part out costs besides its text. -/
def leavingCost (p : Part) : Nat :=
  if p.isExtra || p.sort == .strange then 0
  else if p.isVisible then nodeCost
  else nodeCost * p.kids

/-- What a part adds to the cost of the part around it. -/
def innerCost (p : Part) : Nat := if p.sort == .run then 0 else p.cost

/-- What some costs are together. -/
def total (costs : List Nat) : Nat := costs.foldr (· + ·) 0

/-- The place where parts begin. -/
def startOf (parts : List Part) : Spot := (parts.head?.map start).getD .front

/-- The place where parts end. -/
def stopOf (parts : List Part) : Site := (parts.getLast?.map stop).getD (.front "")

/-- A part made of others, as far as the others alone determine it. -/
def around (sort : PartSort) (symbol? : Option Nat) (isVisible : Bool) (parts : List Part) :
    Part where
  sort
  symbol?
  start := startOf parts
  stop := stopOf parts
  isExtra := false
  isVisible
  kids := total (parts.map fun p => if p.isVisible then 1 else p.kids)
  below := total (parts.map fun p => p.below + if p.isVisible then 1 else 0)
  cost := total (parts.map innerCost)
  fault? := parts.findSome? fault?

/-- The part of a phrase. -/
def phrase (symbol : Nat) (isHidden : Bool) (parts : List Part) : Part :=
  around .plain (some symbol) (!isHidden) parts

/-- What leaving parts out costs. -/
def outCost (parts : List Part) : Nat :=
  errorCost + textCost (startOf parts) (stopOf parts).spot + total (parts.map leavingCost)

/-- Parts left out. Inside other phrases they are an extra. -/
def error (isExtra : Bool) (parts : List Part) : Part :=
  let p := around .error none true parts
  { p with
    isExtra
    cost := p.cost + outCost parts
    fault? := some (.leftOut p.start.byte p.stop.spot.byte) }

/-- Parts skipped. -/
def run (parts : List Part) : Part :=
  let p := around .run none false parts
  { p with cost := p.cost + outCost parts }

/-- Whether two parts are the same as far as repairs go. -/
def isAlike (p q : Part) : Bool :=
  p.sort == q.sort && p.symbol? == q.symbol? && p.start == q.start && p.stop.spot == q.stop.spot &&
    p.cost == q.cost && p.fault? == q.fault?

/-- A run with another part skipped. -/
def skip (skipped? : Option Part) (p : Part) : Part :=
  match skipped? with
  | none => run [p]
  | some r => run [r, run [p]]

end Part

end DocBlocks
