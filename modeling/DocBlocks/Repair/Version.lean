import DocBlocks.Repair.Stack

/-
  Versions: rival ways to read and repair a source.

  A version reads on from a stack, or it is lost: it holds the stacks it may have to go back to and
  the tokens skipped since. Versions are compared by what they cost. A version that has read much
  since its last repair is trusted more, so a difference in cost then decides at once; otherwise
  the better version goes first and the other one is kept.
-/

namespace DocBlocks

/-- What stands behind a place: the terminal it is taken for, if it is a token, the part it becomes,
and the names it could also be. -/
structure Ahead where
  terminal? : Option Nat
  part : Part
  names : List Nat
  deriving Repr

/-- Whether a version reads on or looks for a place to read on from. -/
inductive Posture where
  | reading (stack : Stack)
  | lost (bases : List Stack) (skipped? : Option Part)
  deriving Repr

/-- What is to be done with a version. -/
inductive Status where
  | active
  /-- The version cannot go on with what stands ahead. -/
  | paused (ahead : Ahead)
  | halted
  deriving Repr

/-- A version. -/
structure Version where
  posture : Posture
  status : Status
  /-- The nodes that had been read at the last repair. -/
  repairedAt : Nat
  deriving Repr

/-- What versions are compared by. -/
structure Standing where
  cost : Nat
  /-- The nodes read since the last repair. -/
  progress : Nat
  isLost : Bool
  deriving DecidableEq, Repr

/-- The outcome of a comparison. The worse one of two versions is dropped or only put behind. -/
inductive Verdict where
  | takeLeft
  | preferLeft
  | neither
  | preferRight
  | takeRight
  deriving DecidableEq, Repr

/-- The number of versions that are kept. -/
def maxVersions : Nat := 6

/-- The difference in cost, weighted by progress, beyond which the worse version is dropped. -/
def maxCostDifference : Nat := 18 * Part.nodeCost

namespace Version

/-- A version that reads on from a stack. -/
def reading (stack : Stack) (repairedAt : Nat) : Version := ⟨.reading stack, .active, repairedAt⟩

/-- Whether a version is paused. -/
def isPaused (v : Version) : Bool :=
  match v.status with
  | .paused _ => true
  | _ => false

/-- Whether a version is active. -/
def isActive (v : Version) : Bool :=
  match v.status with
  | .active => true
  | _ => false

/-- Whether a version is halted. -/
def isHalted (v : Version) : Bool :=
  match v.status with
  | .halted => true
  | _ => false

/-- The stack of a version; of a lost one the stack it would have read on from. -/
def stack (v : Version) : Stack :=
  match v.posture with
  | .reading s => s
  | .lost ss _ => ss.headD []

/-- The tokens skipped. -/
def skipped? (v : Version) : Option Part :=
  match v.posture with
  | .reading _ => none
  | .lost _ r => r

/-- Whether a version is lost. -/
def isLost (v : Version) : Bool :=
  match v.posture with
  | .reading _ => false
  | .lost _ _ => true

/-- The place reached, unless nothing has been read or skipped. -/
def site? (v : Version) : Option Site :=
  match v.skipped? with
  | some r => some r.stop
  | none => v.stack.site?

/-- The place reached, without what stands behind it. -/
def spot (v : Version) : Spot := (v.site?.map Site.spot).getD .front

/-- The bytes read or skipped. -/
def upto (v : Version) : Nat := v.spot.byte

/-- What a version costs. One that has just lost its way will have to leave something out. -/
def cost (v : Version) : Nat :=
  v.stack.cost + (v.skipped?.map Part.cost).getD 0 +
    if v.isPaused || (v.isLost && v.skipped?.isNone) then Part.errorCost else 0

/-- The nodes read or skipped. -/
def weight (v : Version) : Nat :=
  match v.posture with
  | .reading s => s.weight
  | .lost ss r => (ss.map Stack.weight).foldl max 0 + (r.map Part.weight).getD 0

/-- The nodes read or skipped since the last repair. -/
def progress (v : Version) : Nat := v.weight - v.repairedAt

/-- What a version is compared by. -/
def standing (v : Version) : Standing :=
  ⟨v.cost + if v.isPaused then Part.nodeCost else 0, v.progress, v.isPaused || v.isLost⟩

/-- Whether two versions can only read on in the same way. -/
def isSame (v w : Version) : Bool :=
  match v.posture, w.posture with
  | .reading s, .reading t =>
    v.isActive && w.isActive && s.spot == t.spot && s.cost == t.cost && s.isParallel t
  | _, _ => false

/-- Drops the parts that two lists begin with in common. -/
def dropCommon : List Part → List Part → List Part × List Part
  | p :: ps, q :: qs => if p.isAlike q then dropCommon ps qs else (p :: ps, q :: qs)
  | ps, qs => (ps, qs)

/-- The number of extras that parts begin with. -/
def leadingExtras (parts : List Part) : Nat := (parts.takeWhile (·.isExtra)).length

/-- Whether the first one of two lists of parts with the same future counts. The one that leaves
more out in front of what is different counts, then the one that leaves more out behind it. If
nothing tells them apart, the second one counts, unless only one part differs and it is faulty in
both. -/
def isChosen (ps qs : List Part) : Bool :=
  let (ps, qs) := dropCommon ps qs
  let a := leadingExtras ps
  let b := leadingExtras qs
  if a != b then b < a
  else
    let ps := ps.drop a
    let qs := qs.drop a
    let a := leadingExtras (ps.drop 1)
    let b := leadingExtras (qs.drop 1)
    if a != b then b < a
    else
      match ps, qs with
      | [], [] => true
      | p :: ps, q :: qs =>
        let (ps, _) := dropCommon ps qs
        ps.isEmpty && p.symbol? == q.symbol? && 0 < p.cost && 0 < q.cost
      | _, _ => false

/-- Makes one of two versions that read on in the same way. -/
def unite? (v w : Version) : Option Version :=
  if v.isSame w then
    if isChosen v.stack.parts w.stack.parts then some v
    else some { v with posture := .reading w.stack }
  else none

end Version

namespace Standing

/-- Compares two versions by cost alone. -/
def compareCost (a b : Standing) : Verdict :=
  if a.cost < b.cost then
    if maxCostDifference < (b.cost - a.cost) * (1 + a.progress) then .takeLeft else .preferLeft
  else if b.cost < a.cost then
    if maxCostDifference < (a.cost - b.cost) * (1 + b.progress) then .takeRight else .preferRight
  else .neither

/-- Compares two versions. A lost one is dropped if it also costs more. -/
def compare (a b : Standing) : Verdict :=
  match a.isLost, b.isLost with
  | false, true => if a.cost < b.cost then .takeLeft else .preferLeft
  | true, false => if b.cost < a.cost then .takeRight else .preferRight
  | _, _ => compareCost a b

end Standing

namespace Version

/-- Puts a version among others that are in order. Of two that are the same one stays. -/
def place (v : Version) : List Version → List Version
  | [] => [v]
  | w :: ws =>
    match w.standing.compare v.standing with
    | .takeLeft => w :: ws
    | .takeRight => place v ws
    | verdict =>
      match w.unite? v with
      | some u => u :: ws
      | none => if verdict == .preferRight then v :: place w ws else w :: place v ws

/-- Unites a version with the first of several that is the same and whose number is allowed. The
first of them has the given number. -/
def absorb? (v : Version) (allowed : Nat → Bool) : Nat → List Version → Option (List Version)
  | _, [] => none
  | i, w :: ws =>
    match if allowed i then w.unite? v else none with
    | some u => some (u :: ws)
    | none => (absorb? v allowed (i + 1) ws).map (w :: ·)

end Version

end DocBlocks
