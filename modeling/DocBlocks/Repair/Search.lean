import DocBlocks.Repair.Recover

/-
  The search for the cheapest repair of a source.

  In each round every version reads on until it has passed the furthest place reached so far. Then
  versions that are the same are united, versions that cost too much are dropped, and a paused
  version is resumed if no other one goes first. The search ends when a repaired tree costs less
  than any version that is left.
-/

namespace DocBlocks

/-! ### Looking ahead -/

/-- The number of characters that begin no token, blanks between them included. -/
def strangeLength (known : Accepts) : Nat → List Char → Nat
  | 0, _ => 0
  | fuel + 1, cs =>
    if (strayLexeme? known [] cs).isSome then 0
    else
      let gap := (cs.takeWhile isLayout).length
      gap + 1 + strangeLength known fuel (cs.drop (gap + 1))

namespace RuleBook

/-- The terminals that some rule uses. -/
def knows (book : RuleBook) : Accepts := fun t => (book.number? t).isSome

/-- Whether a state expects an operator. -/
def expectsOperator (book : RuleBook) (s : State) : Bool := book.accepts s (.mark ".")

/-- The terminals that a stray token can be. Tight marks are looked for by one who is lost, and
where an operator is expected. -/
def strays (book : RuleBook) (state? : Option State) : Accepts := fun t =>
  book.knows t && (!t.isTight || state?.all book.expectsOperator)

/-- What a lexeme behind a place is. -/
def aheadOfLexeme (book : RuleBook) (site : Site) (l : Lexeme) : Ahead :=
  let start := (site.beforeFind l).spot
  let stop := site.behindLexeme l
  match l.find with
  | .token t rivals _ =>
    let n := (book.number? t).getD 0
    ⟨some n, .token n start stop (book.isHidden n),
      (rivals.filter Terminal.isName).filterMap book.number?⟩
  | _ => ⟨none, .extra start stop, []⟩

/-- What stands behind a place. A state looks for what it accepts; if there is nothing, any token
counts. Characters that begin none are taken together. -/
def aheadOf (book : RuleBook) (site : Site) (state? : Option State) : Ahead :=
  let expected? := state?.bind fun s => nextLexeme? (book.accepts s) site.labels site.rest
  match expected?.or (strayLexeme? (book.strays state?) site.labels site.rest) with
  | some l => book.aheadOfLexeme site l
  | none =>
    let gap := (site.rest.takeWhile isLayout).length
    let start := site.behind gap
    let length := strangeLength book.knows (start.rest.length + 1) start.rest
    ⟨none, .strange start.spot (start.behind length), []⟩

end RuleBook

/-! ### Reading on -/

namespace Search

/-- Lets a version do what it can with a terminal ahead, until the terminal is taken in, the source
is complete, or nothing can be done. Where several phrases can be put together, the version goes on
with the last one and the others become versions of their own. -/
def step (book : RuleBook) (number : Nat) : Nat → Ahead → Nat → Version → Search → Search
  | 0, _, _, v, search => search.halt number v
  | fuel + 1, ahead, terminal, v, search =>
    let s := v.stack
    let m := book.boldMoves s.state terminal
    if m.accepts then (search.accept ⟨s.cost, s.fault?⟩).halt number v
    else
      let added := m.reductions.foldl
        (fun (vs, last?) p =>
          match v.addReduced book number vs p with
          | (vs, some i) => (vs, some i)
          | (vs, none) => (vs, last?))
        (search.versions, none)
      if m.shifts && !m.prolongs then
        match book.next? s.state terminal with
        | none => search.halt number v
        | some t =>
          { search with versions := added.1 }.update number
            { v with posture := .reading (s.push ahead.part [] t) }
      else
        match added.2.bind (added.1[·]?) with
        | some w =>
          step book number fuel ahead terminal { v with posture := .reading w.stack }
            { search with versions := added.1.dropLast }
        | none =>
          if !m.reductions.isEmpty then { search with versions := added.1 }.halt number v
          else
            match ahead.names.find? fun n => n != terminal && book.canMove s.state n with
            | some n => step book number fuel { ahead with terminal? := some n } n v search
            | none =>
              search.update number { v with status := .paused ahead, repairedAt := s.weight }

/-- Lets a version read on by one leaf. -/
def advance (book : RuleBook) (search : Search) (number : Nat) (v : Version) :
    Search :=
  let site := v.site?.getD search.front
  if v.isLost then search.recover book number (book.aheadOf site none)
  else
    let s := v.stack
    let ahead := book.aheadOf site (some s.state)
    match ahead.terminal? with
    | some t => search.step book number ((s.length + 2) * book.phrases.size) ahead t v
    | none =>
      if ahead.part.isExtra then
        search.update number { v with posture := .reading (s.push ahead.part [] s.state) }
      else search.update number { v with status := .paused ahead, repairedAt := s.weight }

/-- Lets a version read on until it passes the furthest place reached so far, which is given and
handed back as a number of bytes. -/
def advanceBeyond (book : RuleBook) (number : Nat) :
    Nat → Nat → Search → Search × Nat
  | 0, furthest, search => (search, furthest)
  | fuel + 1, furthest, search =>
    match search.versions[number]? with
    | none => (search, furthest)
    | some v =>
      if v.isActive then
        let search := search.advance book number v
        let upto := (search.versions[number]?.map Version.upto).getD 0
        if furthest < upto || (0 < number && upto == furthest) then (search, upto)
        else advanceBeyond book number fuel furthest search
      else (search, furthest)

/-- Lets all versions read on, also those that come up on the way. -/
def advanceAll (book : RuleBook) :
    Nat → Nat → Nat → Search → Search × Nat
  | 0, _, furthest, search => (search, furthest)
  | fuel + 1, number, furthest, search =>
    if number < search.versions.length then
      let (search, furthest) :=
        advanceBeyond book number (2 * search.front.rest.length + 2) furthest search
      advanceAll book fuel (number + 1) furthest search
    else (search, furthest)

/-! ### Choosing -/

/-- What a search cannot fall below: the least cost of a version that is not lost. -/
def leastCost (vs : List Version) : Option Nat :=
  ((vs.map Version.standing).filter (!·.isLost)).foldl
    (fun least s => some ((least.map (min s.cost)).getD s.cost)) none

/-- Puts the versions in order, drops the worse ones and resumes a paused one if it goes first.
Also gives the least cost of a version that is not lost. -/
def condense (book : RuleBook) (search : Search) : Search × Option Nat :=
  let alive := search.versions.filter (!·.isHalted)
  let kept := (alive.foldl (fun vs v => v.place vs) []).take maxVersions
  let isDue (v : Version) : Bool := v.isPaused && search.accepted < maxVersions
  match kept with
  | v :: _ =>
    match v.status, isDue v with
    | .paused ahead, true =>
      let search := { search with versions := kept }.resume book 0 ahead
      ({ search with versions := search.versions.filter (!·.isPaused) }, some v.cost)
    | _, _ => ({ search with versions := kept.filter (!·.isPaused) }, leastCost alive)
  | [] => ({ search with versions := [] }, none)

/-- Runs a search to its end. -/
def run (book : RuleBook) : Nat → Nat → Search → Search
  | 0, _, search => search
  | fuel + 1, furthest, search =>
    if search.versions.isEmpty then search
    else
      let (search, furthest) := search.advanceAll book (search.front.rest.length + 100) 0 furthest
      let (search, least?) := search.condense book
      match search.finished?, least? with
      | some _, none => search
      | some best, some least =>
        if best.cost < least then search else run book fuel furthest search
      | none, _ => run book fuel furthest search

/-- The search at the front of a source. -/
def start (front : Site) : Search := ⟨front, [.reading [] 0], none, 0⟩

end Search

/-- The first fault of the cheapest repair of a source. -/
def firstFault? (book : RuleBook) (source : String) : Option Fault :=
  let front := Site.front source
  let search := (Search.start front).run book (4 * front.rest.length + 100) 0
  search.finished?.bind Finished.fault?

end DocBlocks
