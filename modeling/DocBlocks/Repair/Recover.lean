import DocBlocks.Repair.Reduce

/-
  Finding a way on for a version that is lost.

  A lost version looks back through its stacks for a state that can go on with what stands ahead,
  and leaves out what lies between. It also skips what stands ahead and stays lost, so that places
  further on are tried as well. Before it is lost at all, a missing token may be made up.
-/

namespace DocBlocks

/-- A repaired tree for a whole source. -/
structure Finished where
  cost : Nat
  fault? : Option Fault
  deriving Repr

/-- The state of a search: the front of the source, the versions, the best repaired tree so far, and
how many repaired trees there have been. -/
structure Search where
  front : Site
  versions : List Version
  finished? : Option Finished
  accepted : Nat
  deriving Repr

/-- A place on a stack to go back to. -/
structure Retreat where
  /-- The stack up to the place. -/
  stack : Stack
  /-- The number of parts to be left out, extras apart. -/
  depth : Nat
  /-- The parts to be left out, in order. -/
  parts : List Part
  deriving Repr

/-- The number of parts that a retreat may leave out. -/
def maxRetreat : Nat := 16

namespace Retreat

/-- The retreat that goes back by one part more. -/
def further? (r : Retreat) : Option Retreat :=
  match r.stack with
  | [] => none
  | f :: s => some ⟨s, if f.part.isExtra then r.depth else r.depth + 1, f.part :: r.parts⟩

/-- All retreats, nearer ones first. Of those that leave out equally many parts and reach the same
state the first one counts. -/
def collect : Nat → List Retreat → List Retreat → List Retreat
  | 0, _, found => found
  | fuel + 1, paths, found =>
    let near := paths.filter (·.depth ≤ maxRetreat)
    if near.isEmpty then found
    else
      let found := near.foldl
        (fun found r =>
          if found.any fun q => q.depth == r.depth && q.stack.state == r.stack.state then found
          else found ++ [r])
        found
      collect fuel (near.filterMap further?) found

/-- The retreats of a lost version. -/
def ofStacks (bases : List Stack) : List Retreat :=
  collect ((bases.map List.length).foldl max 0 + 1) (bases.map fun s => ⟨s, 1, []⟩) []

end Retreat

namespace Search

/-- Whether there is something better than going on with a version at a cost. -/
def hasBetter (search : Search) (number : Nat) (v : Version) (cost : Nat) : Bool :=
  search.finished?.any (·.cost ≤ cost) ||
    search.versions.zipIdx.any fun (w, i) =>
      i != number && w.isActive && v.upto ≤ w.upto &&
        Standing.compare ⟨cost, v.progress, false⟩ w.standing == .takeRight

/-- Takes note of a repaired tree. Of two that cost the same, the later one counts. -/
def accept (search : Search) (tree : Finished) : Search :=
  let isBetter := match search.finished? with
    | none => true
    | some best =>
      tree.cost ≤ best.cost
  { search with
    finished? := if isBetter then some tree else search.finished?
    accepted := search.accepted + 1 }

/-- Replaces a version. -/
def update (search : Search) (number : Nat) (v : Version) : Search :=
  { search with versions := search.versions.set number v }

/-- Adds a version. -/
def add (search : Search) (v : Version) : Search :=
  { search with versions := search.versions ++ [v] }

/-- Halts a version. -/
def halt (search : Search) (number : Nat) (v : Version) : Search :=
  search.update number { v with status := .halted }

/-! ### Going back -/

/-- Whether a version already reads on from a state at a place. -/
def isTried (search : Search) (upto : Nat) (s : State) : Bool :=
  search.versions.any fun w => !w.isLost && w.upto == upto && w.stack.state == s

/-- The version that the first useful retreat gives. A retreat that costs more than another version
ends the search for one. -/
def firstRetreat? (book : RuleBook) (search : Search) (number : Nat) (v : Version)
    (terminal : Nat) : List Retreat → Option Version
  | [] => none
  | r :: rs =>
    if r.stack.spot.byte == v.upto || search.isTried v.upto r.stack.state then
      firstRetreat? book search number v terminal rs
    else
      let cost := v.cost + r.depth * Part.nodeCost + Part.textCost r.stack.spot v.spot
      if search.hasBetter number v cost then none
      else if book.couldMove r.stack.state terminal then
        some (.reading (r.stack.leaveOut (r.parts ++ v.skipped?.toList)) v.repairedAt)
      else firstRetreat? book search number v terminal rs

/-- The tree in which everything is left out. -/
def leaveOutAll (v : Version) : Finished :=
  let p := Part.error false (v.stack.parts ++ v.skipped?.toList)
  ⟨p.cost, p.fault?⟩

/-- Looks for a way on for a lost version. -/
def recover (book : RuleBook) (search : Search) (number : Nat) (ahead : Ahead) : Search :=
  match search.versions[number]? with
  | none => search
  | some v =>
    let bases := match v.posture with
      | .reading s => [s]
      | .lost ss _ => ss
    let found? := ahead.terminal?.bind fun t =>
      search.firstRetreat? book number v t (Retreat.ofStacks bases)
    let search := match found? with
      | some w => search.add w
      | none => search
    if ahead.terminal? == some 0 then (search.accept (leaveOutAll v)).halt number v
    else if found?.isSome && maxVersions < search.versions.length then search.halt number v
    else if search.hasBetter number v
        (v.cost + Part.nodeCost + Part.textCost v.spot ahead.part.stop.spot) then
      search.halt number v
    else search.update number
      { v with posture := .lost bases (some (.skip v.skipped? ahead.part)) }

/-! ### Making up a token -/

/-- Adds the versions in which a terminal is made up, if the terminal ahead allows a phrase to be
put together behind it. Also says whether the terminal ahead can then be taken in; at the end of the
source it is enough that anything could be. A version that got on but not that far may stay. -/
def withMissing (book : RuleBook) (front : Site) (terminal : Nat) (v : Version) (vs : List Version)
    (missing : Nat) : List Version × Bool :=
  let s := v.stack
  let reached? :=
    if (book.moves s.state missing).shifts then book.next? s.state missing else none
  match reached? with
  | none => (vs, false)
  | some t =>
    if t == s.state || !book.reducesOn t terminal then (vs, false)
    else
      let site := s.site?.getD front
      let part := Part.missing missing site (book.isHidden missing) (book.title missing)
      let w := Version.reading (s.push part [] t) v.repairedAt
      let aim? := if terminal == 0 then none else some terminal
      Version.exhaust book aim? vs.length (vs ++ [w])

/-- Makes up the first terminal that helps. Each try names a version and a terminal. -/
def makeUp (book : RuleBook) (front : Site) (terminal : Nat) :
    List (Nat × Nat) → List Version → List Version
  | [], vs => vs
  | (i, missing) :: tries, vs =>
    match vs[i]? with
    | none => makeUp book front terminal tries vs
    | some v =>
      let (vs, helps) := withMissing book front terminal v vs missing
      if helps then vs else makeUp book front terminal tries vs

/-- What can be made up in one of several versions: all terminals but the end, in order. -/
def missingTries (book : RuleBook) (numbers : List Nat) : List (Nat × Nat) :=
  numbers.flatMap fun i => ((List.range book.terminals.size).drop 1).map fun m => (i, m)

/-- Resumes a paused version: phrases are put together, a missing token is made up, and the version
is lost. -/
def resume (book : RuleBook) (search : Search) (number : Nat) (ahead : Ahead) : Search :=
  match search.versions[number]? with
  | none => search
  | some v =>
    let before := search.versions.length
    let vs := search.versions.set number { v with status := .active }
    let (vs, _) := Version.exhaust book none number vs
    let numbers := number :: (List.range vs.length).drop before
    let bases := numbers.filterMap fun i => vs[i]?.map Version.stack
    let added := vs.length - before
    let vs := match ahead.terminal? with
      | some t => makeUp book search.front t (missingTries book numbers) vs
      | none => vs
    let lost : Version :=
      ⟨.lost bases none, .active, (bases.map Stack.weight).foldl max 0⟩
    let vs := vs.set number lost
    let search := { search with
      versions := vs.take before ++ vs.drop (before + added) }
    search.recover book number ahead

end Search

end DocBlocks
