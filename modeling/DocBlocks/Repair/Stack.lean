import DocBlocks.Repair.Part

/-
  Stacks of parts.

  A stack holds what has been read, the last part on top, and with each part the state reached
  behind it. What the whole stack costs and weighs is kept in its frames.
-/

namespace DocBlocks

/-- A part on a stack. -/
structure Held where
  part : Part
  /-- The parts that were left out, if the part is an error. -/
  inner : List Part
  state : State
  /-- The cost of the stack up to here. -/
  cost : Nat
  /-- The nodes of the stack up to here. -/
  weight : Nat
  /-- The first fault of the stack up to here. -/
  fault? : Option Fault
  deriving DecidableEq, Repr

/-- A stack, its top first. -/
abbrev Stack := List Held

namespace Stack

/-- The state reached. -/
def state : Stack → State
  | [] => .start
  | f :: _ => f.state

/-- The place reached, if the stack is not empty. -/
def site? : Stack → Option Site
  | [] => none
  | f :: _ => some f.part.stop

/-- The place reached, without what stands behind it. -/
def spot (s : Stack) : Spot := (s.site?.map Site.spot).getD .front

/-- The cost of all parts. -/
def cost : Stack → Nat
  | [] => 0
  | f :: _ => f.cost

/-- The nodes of all parts. -/
def weight : Stack → Nat
  | [] => 0
  | f :: _ => f.weight

/-- The first fault of all parts. -/
def fault? : Stack → Option Fault
  | [] => none
  | f :: _ => f.fault?

/-- Puts a part on top. -/
def push (s : Stack) (part : Part) (inner : List Part) (state : State) : Stack :=
  { part, inner, state
    cost := cost s + part.cost
    weight := weight s + part.weight
    fault? := (fault? s).or part.fault? } :: s

/-- Puts parts on top that leave the state alone. -/
def pushExtras (s : Stack) (parts : List Part) (state : State) : Stack :=
  parts.foldl (fun s p => push s p [] state) s

/-- Splits off the extras at the end. -/
def splitExtras (parts : List Part) : List Part × List Part :=
  let extras := (parts.reverse.takeWhile (·.isExtra)).reverse
  (parts.take (parts.length - extras.length), extras)

/-- Takes parts off the top until as many as asked for are no extras. The parts come in order. -/
def pop : Nat → Stack → List Part → List Part × Stack
  | 0, s, parts => (parts, s)
  | _ + 1, [], parts => (parts, [])
  | n + 1, f :: s, parts =>
    if f.part.isExtra then pop (n + 1) s (f.part :: parts) else pop n s (f.part :: parts)

/-- Puts a phrase together from the parts on top. Extras behind the phrase stay outside. -/
def reduce? (book : RuleBook) (s : Stack) (production : Nat) : Option Stack := do
  let p ← book.productions[production]?
  let (parts, rest) := pop p.body.size s []
  let (parts, extras) := splitExtras parts
  let state ← book.next? (state rest) p.head
  pure (pushExtras (push rest (.phrase p.head (book.isHidden p.head) parts) [] state) extras state)

/-- Leaves out what stands on a stack behind a place, as one error. If an error is right below, the
two become one. -/
def leaveOut (s : Stack) (parts : List Part) : Stack :=
  let state := state s
  let (inner, base) := match s with
    | f :: rest => if f.part.sort == .error then (f.inner, rest) else ([], s)
    | [] => ([], s)
  let (parts, extras) := splitExtras (inner ++ parts)
  let base := if parts.isEmpty then base else push base (.error true parts) parts state
  pushExtras base extras state

/-- The states that putting phrases together can come back to. -/
def path (s : Stack) : List State := (s.filter (!·.part.isExtra)).map (·.state)

/-- Whether two stacks will do the same with whatever follows. -/
def isParallel (s t : Stack) : Bool := state s == state t && path s == path t

/-- All parts in order. -/
def parts (s : Stack) : List Part := (s.map (·.part)).reverse

end Stack

end DocBlocks
