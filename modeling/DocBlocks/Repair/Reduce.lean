import DocBlocks.Repair.Version

/-
  Putting together all phrases that a place allows.

  Before tokens are made up or left out, a version puts together whatever it can: the versions that
  come out are the places from which reading can go on. With a terminal to aim at, only phrases
  count that the terminal may follow, and versions that never get to take it in are dropped.
-/

namespace DocBlocks

/-- The phrases that a state can put together, and whether it can take a terminal in. -/
structure Options where
  productions : List Nat
  shifts : Bool
  deriving Repr

namespace RuleBook

/-- Whether two productions put together the same phrase from the same number of parts. -/
def isAlike (book : RuleBook) (p q : Nat) : Bool :=
  match book.productions[p]?, book.productions[q]? with
  | some p, some q => p.head == q.head && p.body.size == q.body.size
  | _, _ => false

/-- The options of a state for one terminal. -/
def optionsFor (book : RuleBook) (s : State) (terminal : Nat) : Options :=
  let m := book.boldMoves s terminal
  ⟨m.reductions, m.shifts && !m.prolongs⟩

/-- The options of a state for the terminal aimed at, or for all terminals but the end. Of
productions that put together the same phrase from as many parts the first one counts. -/
def options (book : RuleBook) (s : State) (aim? : Option Nat) : Options :=
  let aims := match aim? with
    | some t => [t]
    | none => (List.range book.terminals.size).drop 1
  let all := aims.map (book.optionsFor s)
  let productions := (all.flatMap (·.productions)).foldl
    (fun ps p => if ps.any (book.isAlike p) then ps else ps ++ [p]) []
  ⟨productions, all.any (·.shifts)⟩

end RuleBook

namespace Version

/-- Adds the version that putting a phrase together gives, unless it is the same as another one
than the version at hand. Also gives the number of the version added. -/
def addReduced (book : RuleBook) (v : Version) (number : Nat) (vs : List Version)
    (production : Nat) : List Version × Option Nat :=
  match Stack.reduce? book v.stack production with
  | none => (vs, none)
  | some s =>
    let w := reading s v.repairedAt
    match w.absorb? (· != number) 0 vs with
    | some vs => (vs, none)
    | none => (vs ++ [w], some vs.length)

/-- Adds the versions that putting phrases together gives. Also gives the number of the last one,
if it was added. -/
def addAllReduced (book : RuleBook) (v : Version) (number : Nat) (vs : List Version)
    (productions : List Nat) : List Version × Option Nat :=
  productions.foldl (fun (vs, _) p => v.addReduced book number vs p) (vs, none)

/-- Puts phrases together in the versions from a number on, and in those that come of it. A version
that can only put phrases together gives way to the last one that comes of it, for the first few
rounds. `first` is the version to begin with and `fresh` the number of the first one added.
Also says whether some version can take a terminal in. -/
def exhaustFrom (book : RuleBook) (aim? : Option Nat) (first fresh : Nat) :
    Nat → Nat → Nat → List Version → Bool → List Version × Bool
  | 0, _, _, vs, shifts => (vs, shifts)
  | fuel + 1, round, i, vs, shifts =>
    match vs[i]? with
    | none => (vs, shifts)
    | some v =>
      match v.absorb? (fun j => decide (fresh ≤ j ∧ j < i)) 0 vs with
      | some vs => exhaustFrom book aim? first fresh fuel (round + 1) i (vs.eraseIdx i) shifts
      | none =>
        let o := book.options v.stack.state aim?
        let (vs', last?) := v.addAllReduced book i vs o.productions
        let following := if i == first then vs.length else i + 1
        if o.shifts then exhaustFrom book aim? first fresh fuel (round + 1) following vs' true
        else
          match last?.bind (vs'[·]?), decide (round < maxVersions) with
          | some w, true =>
            exhaustFrom book aim? first fresh fuel (round + 1) i (vs'.dropLast.set i w) shifts
          | _, _ =>
            let vs' := if aim?.isSome then vs'.eraseIdx i else vs'
            exhaustFrom book aim? first fresh fuel (round + 1) following vs' shifts

/-- The rounds that putting all phrases together may take. -/
def exhaustRounds : Nat := 1000

/-- Puts together all phrases that one version allows. -/
def exhaust (book : RuleBook) (aim? : Option Nat) (number : Nat) (vs : List Version) :
    List Version × Bool :=
  exhaustFrom book aim? number vs.length exhaustRounds 0 number vs false

end Version

end DocBlocks
