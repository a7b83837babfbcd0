import DocBlocks.Grammar.Rule
import Std.Data.HashMap

/-
  Productions, and the sets of terminals that go with them.

  Symbols are numbers: terminals first, then phrases. A set of terminals is a natural number whose
  bits are its members. No production is empty, so the terminals that can begin a production are
  those that can begin its first symbol.
-/

namespace DocBlocks

/-- The place of a symbol in a production: its role in the node around it, and how it shows if that
is not its own way. -/
structure Post where
  role? : Option String
  guise? : Option Guise
  deriving DecidableEq, Repr

/-- A post that says nothing. -/
def Post.plain : Post := ⟨none, none⟩

/-- A production: a phrase and one way to put it together. -/
structure Production where
  head : Nat
  body : Array Nat
  posts : List Post
  rank : Int
  side : Option Side
  isReluctant : Bool
  deriving Repr

/-- What is known of a phrase: its name, how it is shown, and whether it is a repetition, which is
put together from two shorter ones. -/
structure PhraseSort where
  name : String
  display : Display
  repeats : Bool
  deriving Repr

/-- How a phrase shows unless a production says otherwise. -/
def PhraseSort.guise (p : PhraseSort) : Guise :=
  match p.display with
  | .node => .named p.name
  | _ => .hidden

/-- A production that begins with a phrase: any terminal behind the production may stand behind
the phrase, unless `next` says what does. -/
structure Lead where
  head : Nat
  phrase : Nat
  next : Option Nat

/-! ### Sets of terminals -/

/-- The set of one terminal. -/
def oneTerminal (i : Nat) : Nat := 1 <<< i

/-- Applies a step until nothing changes any more. -/
def settle {α : Type} [BEq α] (step : α → α) : Nat → α → α
  | 0, x => x
  | fuel + 1, x =>
    let y := step x
    if y == x then x else settle step fuel y

/-- Adds terminals to the set of a symbol. -/
def widen (sets : Array Nat) (symbol : Nat) (terminals : Nat) : Array Nat :=
  sets.modify symbol (· ||| terminals)

/-- One round of adding what begins the first symbol of a production to what begins its head. -/
def firstRound (productions : Array Production) (sets : Array Nat) : Array Nat :=
  productions.foldl
    (fun sets p =>
      let terminals := sets.getD (p.body.getD 0 0) 0
      widen sets p.head terminals)
    sets

/-- The fronts of a production, its phrase first, each with the symbol behind it. -/
def Production.fronts (p : Production) : List (List Nat × Nat) :=
  (List.range (p.body.size - 1)).map fun i =>
    (p.head :: p.body.toList.take (i + 1), p.body.getD (i + 1) 0)

/-- The terminals that can stand behind each front. Productions of one phrase that begin alike count
together. -/
def behindFronts (productions : Array Production) (first : Array Nat) :
    Std.HashMap (List Nat) Nat :=
  (productions.toList.flatMap Production.fronts).foldl
    (fun sets (front, s) => sets.insert front (sets.getD front 0 ||| first.getD s 0)) ∅

/-- The symbols that something stands behind, each with the terminals that can stand there in one
of its fronts. Behind the goal stands the end. -/
def behindSymbols (productions : Array Production) (first : Array Nat) (goal : Nat) :
    List (Nat × Nat) :=
  let behind := behindFronts productions first
  (goal, oneTerminal 0) ::
    (productions.toList.flatMap Production.fronts).map fun (front, _) =>
      (front.getLastD 0, behind.getD front 0)

/-- One round of adding what stands behind a phrase to what stands behind the last symbol of its
productions. -/
def followRound (productions : Array Production) (sets : Array Nat) : Array Nat :=
  productions.foldl
    (fun sets p => widen sets (p.body.toList.getLastD 0) (sets.getD p.head 0)) sets

/-- The terminals that can stand behind each symbol, apart for each set of the given terminals that
can stand there together. -/
def followsOf (productions : Array Production) (first : Array Nat) (goal size special : Nat) :
    List (Nat × Array Nat) :=
  let behind := behindSymbols productions first goal
  let kinds := (behind.map (·.2 &&& special)).eraseDups
  kinds.map fun kind =>
    let sets := (behind.filter (·.2 &&& special == kind)).foldl
      (fun sets (s, set) => widen sets s set) (Array.replicate size 0)
    (kind, settle (followRound productions) size sets)

/-- One round of adding what can stand behind the phrases that productions begin with. -/
def reachRound (leads : Array Lead) (sets : Array Nat) : Array Nat :=
  leads.foldl
    (fun sets l =>
      let behind := sets.getD l.head 0
      if behind == 0 then sets else widen sets l.phrase (l.next.getD behind))
    sets

/-- The productions that begin with a phrase. -/
def leadsOf (terminals : Nat) (first : Array Nat) (productions : Array Production) : Array Lead :=
  productions.filterMap fun p =>
    match p.body.toList with
    | [] => none
    | [s] => if s < terminals then none else some ⟨p.head, s, none⟩
    | s :: t :: _ => if s < terminals then none else some ⟨p.head, s, some (first.getD t 0)⟩

end DocBlocks
