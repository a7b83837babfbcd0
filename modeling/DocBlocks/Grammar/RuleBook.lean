import DocBlocks.Grammar.Production
import DocBlocks.Grammar.Rules.Declaration
import DocBlocks.Grammar.Rules.Expression
import DocBlocks.Grammar.Rules.Function
import DocBlocks.Grammar.Rules.Program
import DocBlocks.Grammar.Rules.Statement
import DocBlocks.Grammar.Rules.Text

/-
  The rules as numbered productions, with the sets that go with them.

  Terminals are numbered in the order in which they are tried as missing ones, those whose telling
  takes knowledge of what stands around them last.
-/

namespace DocBlocks

/-- Numbered rules. The goal is the phrase of a whole source and stands in no production. -/
structure RuleBook where
  terminals : Array Terminal
  /-- The number of each terminal. -/
  numbers : Std.HashMap Terminal Nat
  phrases : Array PhraseSort
  productions : Array Production
  goal : Nat
  /-- The terminals that can begin a symbol. -/
  first : Array Nat
  /-- The terminals whose telling takes knowledge of what stands around them. -/
  contextual : Nat
  /-- The terminals that can stand behind each symbol, apart for each set of contextual ones among
  them. -/
  follows : Thunk (List (Nat × Array Nat))
  /-- The productions that begin with a symbol. -/
  begun : Array (List Nat)
  /-- For a phrase that is expected: the terminals that can stand behind each phrase it can begin
  with. The bit above all terminals stands for what is behind the expected phrase itself. -/
  reach : Array (Thunk (Array Nat))

/-! ### Numbering -/

/-- The terminals of definitions, in the order in which they are tried as missing ones. -/
def orderTerminals (definitions : List Definition) : List Terminal :=
  let found :=
    (Terminal.finish :: .name :: .given :: .pause ::
      definitions.flatMap (·.body.terminals)).eraseDups
  found.filter (!·.needsContext) ++ found.filter (·.needsContext)

/-- The numbers of the members of a list. -/
def numbering (symbols : List Symbol) : Std.HashMap Symbol Nat :=
  Std.HashMap.ofList symbols.zipIdx

/-- The productions of a phrase. A repetition is two of the same, or one part. -/
def productionsOf (numbers : Std.HashMap Symbol Nat) (symbol : Symbol) (repeats : Bool)
    (body : Rule) : List Production :=
  let twice := if repeats then [Wording.plain [.plain symbol, .plain symbol]] else []
  let wordings := (twice ++ body.wordings).eraseDups.filter (!·.symbols.isEmpty)
  wordings.map fun r =>
    { head := numbers.getD symbol 0
      body := (r.symbols.map fun p => numbers.getD p.symbol 0).toArray
      posts := r.symbols.map fun p => ⟨p.role?, p.guise?⟩
      rank := r.rank
      side := r.side
      isReluctant := r.isReluctant }

/-- The phrases of definitions and of the repetitions in them, each with its rule. -/
def phrasesOf (definitions : List Definition) : List (Symbol × PhraseSort × Rule) :=
  let parts := definitions.flatMap fun d =>
    match d.repeated? with
    | some r => r.repeated
    | none => d.body.repeated
  definitions.map (fun d =>
      (.phrase d.name, ⟨d.name, d.display, d.repeated?.isSome⟩, d.repeated?.getD d.body)) ++
    parts.eraseDups.map fun r => (.series r, ⟨"", .splice, true⟩, r)

/-- The productions by the symbol they begin with. -/
def groupByFront (size : Nat) (productions : Array Production) : Array (List Nat) :=
  (productions.toList.zipIdx.foldr
    (fun (p, i) groups => groups.modify (p.body.getD 0 0) (i :: ·))
    (Array.replicate size []))

/-- The rule book of definitions, with the rule of a whole source. -/
def RuleBook.ofDefinitions (definitions : List Definition) (source : String) : RuleBook :=
  let terminals := orderTerminals definitions
  let count := terminals.length
  let phrases := phrasesOf (.node "" (.rule source) :: definitions)
  let numbers := numbering (terminals.map .terminal ++ phrases.map (·.1))
  let size := count + phrases.length
  let productions :=
    (phrases.flatMap fun (s, p, r) => productionsOf numbers s p.repeats r).toArray
  let initial :=
    ((List.range count).map oneTerminal ++ List.replicate phrases.length 0).toArray
  let first := settle (firstRound productions) size initial
  let leads := leadsOf count first productions
  let contextual := (terminals.zipIdx.filter (·.1.needsContext)).foldl
    (fun set (_, i) => set ||| oneTerminal i) 0
  { terminals := terminals.toArray
    numbers := Std.HashMap.ofList terminals.zipIdx
    phrases := (phrases.map (·.2.1)).toArray
    productions
    goal := count
    first
    contextual
    follows := Thunk.mk fun _ => followsOf productions first count size contextual
    begun := groupByFront size productions
    reach := (List.range size).toArray.map fun s =>
      Thunk.mk fun _ => settle (reachRound leads) size
        (widen (Array.replicate size 0) s (oneTerminal count)) }

/-! ### Questions to a rule book -/

namespace RuleBook

/-- Whether a symbol is a terminal. -/
def isTerminal (book : RuleBook) (symbol : Nat) : Bool := symbol < book.terminals.size

/-- What is known of a phrase. -/
def phrase? (book : RuleBook) (symbol : Nat) : Option PhraseSort :=
  book.phrases[symbol - book.terminals.size]?

/-- How a symbol shows unless a production says otherwise. -/
def guiseOf (book : RuleBook) (symbol : Nat) : Guise :=
  match book.terminals[symbol]? with
  | some t => t.guise
  | none => ((book.phrase? symbol).map PhraseSort.guise).getD .hidden

/-- Whether a symbol leaves no node in a tree. -/
def isHidden (book : RuleBook) (symbol : Nat) : Bool := book.guiseOf symbol == .hidden

/-- Whether a phrase is a repetition. -/
def repeats (book : RuleBook) (symbol : Nat) : Bool :=
  !book.isTerminal symbol && (book.phrase? symbol).any (·.repeats)

/-- Whether a phrase is nothing but its parts. -/
def isSplice (book : RuleBook) (symbol : Nat) : Bool :=
  !book.isTerminal symbol && (book.phrase? symbol).any (·.display == .splice)

/-- What a terminal is called when it is missing. -/
def title (book : RuleBook) (terminal : Nat) : String :=
  (book.terminals[terminal]?.map Terminal.title).getD ""

/-- The terminals that can begin a symbol. -/
def firstOf (book : RuleBook) (symbol : Nat) : Nat := book.first.getD symbol 0

/-- The terminals that can stand behind a symbol together with exactly the given contextual
ones. -/
def followOf (book : RuleBook) (kind symbol : Nat) : Nat :=
  ((book.follows.get.lookup kind).getD #[]).getD symbol 0

/-- The terminals that can stand behind a phrase at the front of an expected one, if `behind` can
stand behind the expected one. The result is empty if the phrase cannot be at its front. -/
def reachOf (book : RuleBook) (expected phrase behind : Nat) : Nat :=
  let terminals := ((book.reach[expected]?.map Thunk.get).getD #[]).getD phrase 0
  let inherits := oneTerminal book.terminals.size
  if terminals &&& inherits == 0 then terminals
  else (terminals ^^^ inherits) ||| behind

/-- The number of a terminal, if a rule uses it. -/
def number? (book : RuleBook) (t : Terminal) : Option Nat := book.numbers[t]?

end RuleBook

/-- The definitions of all rules of a source file. -/
def sourceDefinitions : List Definition :=
  programRules ++ declarationRules ++ functionRules ++ statementRules ++ expressionRules ++
    textRules

/-- The rules of a source file. -/
def sourceRules : RuleBook := .ofDefinitions sourceDefinitions "program"

end DocBlocks
