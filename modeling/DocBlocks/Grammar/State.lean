import DocBlocks.Grammar.RuleBook

/-
  States: how far the phrases around a place have been read.

  A state is a set of productions with a dot in them, each with the terminals that can stand behind
  the phrase it puts together. From a state a symbol leads to another state, and the next terminal
  says what can be done: take it in, put a phrase together, or both. Where both are possible, the
  ranks of the productions decide, then the side they group to; if nothing decides, both stay open.
-/

namespace DocBlocks

/-- A production whose first `dot` symbols have been read. -/
structure Dotted where
  production : Nat
  dot : Nat
  /-- The terminals that can stand behind the phrase. -/
  ahead : Nat
  deriving DecidableEq, Repr

/-- Whether an item comes before another one. -/
def Dotted.precedes (i j : Dotted) : Bool :=
  i.production < j.production || (i.production == j.production && i.dot ≤ j.dot)

/-- A state, by the items whose dot is not at the front. They are in order, so that equal states
are the same list. -/
structure State where
  items : List Dotted
  deriving DecidableEq, Repr

/-- The state at the front of a source: the production of the goal, and the end behind it. -/
def State.start : State := ⟨[⟨0, 0, oneTerminal 0⟩]⟩

/-- What can be done in a state with a terminal ahead. -/
structure Moves where
  /-- The source is complete. -/
  accepts : Bool
  /-- The productions whose phrase can be put together. -/
  reductions : List Nat
  /-- The terminal can be taken in. -/
  shifts : Bool
  /-- Taking the terminal in would only make a repetition grow on the wrong side. -/
  prolongs : Bool
  deriving DecidableEq, Repr

/-- Whether nothing can be done. -/
def Moves.isEmpty (m : Moves) : Bool :=
  !m.accepts && m.reductions.isEmpty && !m.shifts

namespace RuleBook

/-- The symbol behind the dot of an item. -/
def nextSymbol? (book : RuleBook) (i : Dotted) : Option Nat :=
  book.productions[i.production]? >>= fun p => p.body[i.dot]?

/-- The terminals that can stand behind the symbol at the dot of an item. -/
def behindNext (book : RuleBook) (i : Dotted) : Nat :=
  match book.nextSymbol? { i with dot := i.dot + 1 } with
  | some s => book.firstOf s
  | none => i.ahead

/-- The phrase that an item puts together. -/
def headOf (book : RuleBook) (i : Dotted) : Nat :=
  (book.productions[i.production]?.map Production.head).getD 0

/-- The rank of the production of an item. -/
def rankOf (book : RuleBook) (i : Dotted) : Int :=
  (book.productions[i.production]?.map Production.rank).getD 0

/-- Whether the dot of an item is at the back. -/
def isComplete (book : RuleBook) (i : Dotted) : Bool := (book.nextSymbol? i).isNone

/-! ### From state to state -/

/-- The terminals that can stand behind a phrase that begins at a state, or nothing if the phrase
cannot begin there. -/
def behindBegun (book : RuleBook) (s : State) (phrase : Nat) : Nat :=
  s.items.foldl
    (fun acc i =>
      match book.nextSymbol? i with
      | some b =>
        if book.isTerminal b then acc else acc ||| book.reachOf b phrase (book.behindNext i)
      | none => acc)
    0

/-- The state that a symbol leads to. -/
def rawNext? (book : RuleBook) (s : State) (symbol : Nat) : Option State :=
  let advanced := s.items.filterMap fun i =>
    if book.nextSymbol? i == some symbol then some { i with dot := i.dot + 1 } else none
  let begun := (book.begun.getD symbol []).filterMap fun q =>
    let ahead := book.behindBegun s ((book.productions[q]?.map Production.head).getD 0)
    if ahead == 0 then none else some ⟨q, 1, ahead⟩
  match (advanced ++ begun).mergeSort Dotted.precedes with
  | [] => none
  | items => some ⟨items⟩

/-- Whether a production says nothing about the only symbol it has. -/
def isBareUnit (book : RuleBook) (production : Nat) : Bool :=
  book.productions[production]?.any (·.posts == [.plain])

/-- The phrase that a state can only be about to put together from the one symbol just read, if
that phrase is nothing but its parts. -/
def unitPhrase? (book : RuleBook) (s : State) : Option Nat :=
  match s.items with
  | [] => none
  | i :: is =>
    let head := book.headOf i
    let isUnit (j : Dotted) : Bool :=
      j.dot == 1 && book.isComplete j && book.headOf j == head && book.isBareUnit j.production
    if book.isSplice head && (i :: is).all isUnit then some head else none

/-- Skips states that can only put together a phrase of one symbol. -/
def skipUnits (book : RuleBook) (s : State) : Nat → State → State
  | 0, t => t
  | fuel + 1, t =>
    match book.unitPhrase? t with
    | none => t
    | some phrase =>
      match book.rawNext? s phrase with
      | none => t
      | some t' => book.skipUnits s fuel t'

/-- The state that a symbol leads to, phrases of one symbol being put together on the way. -/
def next? (book : RuleBook) (s : State) (symbol : Nat) : Option State :=
  (book.rawNext? s symbol).map (book.skipUnits s book.phrases.size)

/-! ### What can be done -/

/-- Whether a terminal is in a set. -/
def isIn (terminal set : Nat) : Bool := set.testBit terminal

/-- The complete items that a terminal allows to be put together, only those of the highest
rank. -/
def reducible (book : RuleBook) (s : State) (terminal : Nat) : List Dotted :=
  let complete := s.items.filter fun i => book.isComplete i && isIn terminal i.ahead
  complete.filter fun i => complete.all fun j => book.rankOf j ≤ book.rankOf i

/-- The items whose next symbol a terminal can begin. -/
def shiftable (book : RuleBook) (s : State) (terminal : Nat) : List Dotted :=
  s.items.filter fun i =>
    match book.nextSymbol? i with
    | some b => isIn terminal (book.firstOf b)
    | none => false

/-- Whether items that compete for a terminal all belong to one repetition. -/
def isOneRepetition (book : RuleBook) (items : List Dotted) : Bool :=
  match items.map book.headOf with
  | [] => false
  | h :: hs => book.repeats h && hs.all (· == h)

/-- The side that all productions group to, if there is one. -/
def sideOf? (book : RuleBook) (items : List Dotted) : Option Side :=
  match items.map fun i => book.productions[i.production]?.bind Production.side with
  | [] => none
  | s :: ss => if ss.all (· == s) then s else none

/-- What can be done if some items are complete and others could take the terminal in. -/
def settleMoves (book : RuleBook) (complete open' : List Dotted) (rivals : List Dotted) : Moves :=
  let both := complete.map Dotted.production
  if book.isOneRepetition rivals then ⟨false, both, true, true⟩
  else
    let rank := (complete.head?.map book.rankOf).getD 0
    let higher := open'.any fun i => rank < book.rankOf i
    let lower := open'.any fun i => book.rankOf i < rank
    if higher && !lower then ⟨false, [], true, false⟩
    else if lower && !higher then ⟨false, both, false, false⟩
    else if higher then ⟨false, both, true, false⟩
    else match book.sideOf? complete with
      | some .left => ⟨false, both, false, false⟩
      | some .right => ⟨false, [], true, false⟩
      | none => ⟨false, both, true, false⟩

/-- What can be done in a state with a terminal ahead. -/
def moves (book : RuleBook) (s : State) (terminal : Nat) : Moves :=
  let complete := book.reducible s terminal
  let open' := book.shiftable s terminal
  if complete.any fun i => book.headOf i == book.goal then ⟨true, [], !open'.isEmpty, false⟩
  else if open'.isEmpty || complete.isEmpty then
    ⟨false, complete.map Dotted.production, !open'.isEmpty, false⟩
  else
    let rivals := s.items.filter fun i => book.isComplete i && isIn terminal i.ahead
    book.settleMoves complete (open'.filter (0 < ·.dot)) (rivals ++ open'.filter (0 < ·.dot))

/-- Whether anything can be done. -/
def canMove (book : RuleBook) (s : State) (terminal : Nat) : Bool :=
  !(book.moves s terminal).isEmpty

/-- The contextual terminals that a state can do something with. -/
def contextOf (book : RuleBook) (s : State) : Nat :=
  let expected := s.items.foldl
    (fun set i => set ||| match book.nextSymbol? i with
      | some b => book.firstOf b
      | none => i.ahead)
    0
  expected &&& book.contextual

/-- What can be done in a state with a terminal ahead, if not all that was read before is looked at:
a phrase is also put together if the terminal can stand behind it at another place, one that expects
the same contextual terminals. The fault then shows a little later. -/
def boldMoves (book : RuleBook) (s : State) (terminal : Nat) : Moves :=
  let m := book.moves s terminal
  if !m.isEmpty then m
  else
    let context := book.contextOf s
    let complete := s.items.filter fun i =>
      book.isComplete i && isIn terminal (book.followOf context (book.headOf i))
    let best := complete.filter fun i => complete.all fun j => book.rankOf j ≤ book.rankOf i
    ⟨false, best.map Dotted.production, false, false⟩

/-- Whether anything can be done, if not all that was read before is looked at. -/
def couldMove (book : RuleBook) (s : State) (terminal : Nat) : Bool :=
  !(book.boldMoves s terminal).isEmpty

/-- Whether a state puts a phrase together with a terminal ahead. -/
def reducesOn (book : RuleBook) (s : State) (terminal : Nat) : Bool :=
  !(book.boldMoves s terminal).reductions.isEmpty

end RuleBook

end DocBlocks
