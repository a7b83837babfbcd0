import DocBlocks.Token.Terminal

/-
  Rules and the wordings they have.

  A rule is built from terminals and other rules by sequence, choice and repetition. Its wordings
  are the sequences of symbols it stands for; a repetition is a symbol of its own, so a rule has
  finitely many wordings. A rank settles which of two wordings wins where both are possible. A part
  of a rule can have a role in the node around it, and can show in a tree as something else.
-/

namespace DocBlocks

/-- The side that an operator of one rank groups to. -/
inductive Side where
  | left
  | right
  deriving DecidableEq, Hashable, Repr

/-- What a phrase of a source can look like. -/
inductive Rule where
  /-- Nothing at all. -/
  | empty
  | token (terminal : Terminal)
  /-- A phrase that another rule describes. -/
  | rule (name : String)
  | followed (front back : Rule)
  | either (front back : Rule)
  /-- One or more phrases. -/
  | series (part : Rule)
  | ranked (rank : Int) (side : Option Side) (body : Rule)
  /-- A rule that is chosen less readily than another one that fits the same text. -/
  | reluctant (body : Rule)
  /-- What has a role in the node around it. -/
  | role (name : String) (body : Rule)
  /-- What shows in a tree in another way than by itself. -/
  | shown (guise : Guise) (body : Rule)
  deriving DecidableEq, Hashable, Repr

namespace Rule

/-- A mark. -/
def mark (text : String) : Rule := token (.mark text)

/-- A word in upper or lower case. -/
def keyword (text : String) : Rule := token (.keyword text)

/-- A word in exactly this case. -/
def word (text : String) : Rule := token (.word text)

/-- Something that shows as a node with a name. -/
def called (kind : String) (body : Rule) : Rule := shown (.named kind) body

/-- A word in upper or lower case that leaves no token of its own. -/
def silent (text : String) : Rule := shown .hidden (keyword text)

/-- Rules one behind the other. -/
def seq : List Rule → Rule
  | [] => empty
  | [r] => r
  | r :: rs => followed r (seq rs)

/-- One of several rules. -/
def choice : List Rule → Rule
  | [] => empty
  | [r] => r
  | r :: rs => either r (choice rs)

/-- A rule or nothing. -/
def optional (r : Rule) : Rule := either r empty

/-- Any number of phrases. -/
def many (r : Rule) : Rule := optional (series r)

/-- One or more phrases with a mark between them. -/
def separated (sep : String) (r : Rule) : Rule :=
  followed r (many (followed (mark sep) r))

/-- One or more phrases with commas between them. -/
def commas (r : Rule) : Rule := separated "," r

/-- One or more phrases with bars between them. -/
def bars (r : Rule) : Rule := separated "|" r

/-- A mark and a phrase behind it, or nothing. -/
def behind (sign : String) (r : Rule) : Rule := optional (followed (mark sign) r)

/-- A phrase between braces. -/
def braced (r : Rule) : Rule := seq [mark "\x7b", r, mark "\x7d"]

/-- A phrase between parentheses. -/
def bracketed (r : Rule) : Rule := seq [mark "(", r, mark ")"]

/-- The terminals of a rule in order. -/
def terminals : Rule → List Terminal
  | empty => []
  | token t => [t]
  | rule _ => []
  | followed a b => a.terminals ++ b.terminals
  | either a b => a.terminals ++ b.terminals
  | series r => r.terminals
  | ranked _ _ r => r.terminals
  | reluctant r => r.terminals
  | role _ r => r.terminals
  | shown _ r => r.terminals

/-- The parts of the repetitions of a rule, inner ones first. -/
def repeated : Rule → List Rule
  | empty => []
  | token _ => []
  | rule _ => []
  | followed a b => a.repeated ++ b.repeated
  | either a b => a.repeated ++ b.repeated
  | series r => r.repeated ++ [r]
  | ranked _ _ r => r.repeated
  | reluctant r => r.repeated
  | role _ r => r.repeated
  | shown _ r => r.repeated

end Rule

/-! ### Wordings -/

/-- What a wording is made of. Repetitions of the same part are the same symbol. -/
inductive Symbol where
  | terminal (terminal : Terminal)
  | phrase (name : String)
  | series (part : Rule)
  deriving DecidableEq, Hashable, Repr

/-- A symbol in its place: with its role, and with the way it shows if that is not its own. -/
structure Placed where
  symbol : Symbol
  role? : Option String
  guise? : Option Guise
  deriving DecidableEq, Repr

namespace Placed

/-- A symbol without a role. -/
def plain (symbol : Symbol) : Placed := ⟨symbol, none, none⟩

/-- Gives a symbol a role unless it has one. -/
def inRole (name : String) (p : Placed) : Placed := { p with role? := p.role?.or (some name) }

/-- Lets a symbol show in a way unless it has one. -/
def inGuise (g : Guise) (p : Placed) : Placed := { p with guise? := p.guise?.or (some g) }

end Placed

/-- A sequence of symbols with its rank. -/
structure Wording where
  symbols : List Placed
  rank : Int
  side : Option Side
  isReluctant : Bool
  deriving DecidableEq, Repr

namespace Wording

/-- A wording without a rank. -/
def plain (symbols : List Placed) : Wording := ⟨symbols, 0, none, false⟩

/-- Changes the symbols of a wording. -/
def mapSymbols (f : Placed → Placed) (w : Wording) : Wording :=
  { w with symbols := w.symbols.map f }

end Wording

/-- The wordings of a rule. -/
def Rule.wordings : Rule → List Wording
  | .empty => [.plain []]
  | .token t => [.plain [.plain (.terminal t)]]
  | .rule n => [.plain [.plain (.phrase n)]]
  | .followed a b => a.wordings.flatMap fun x => b.wordings.map fun y =>
      .plain (x.symbols ++ y.symbols)
  | .either a b => a.wordings ++ b.wordings
  | .series r => [.plain [.plain (.series r)]]
  | .ranked n s r => r.wordings.map fun x => { x with rank := n, side := s }
  | .reluctant r => r.wordings.map fun x => { x with isReluctant := true }
  | .role n r => r.wordings.map (·.mapSymbols (.inRole n))
  | .shown g r => r.wordings.map (·.mapSymbols (.inGuise g))

/-! ### Definitions -/

/-- What the phrase of a rule becomes in a tree. -/
inductive Display where
  /-- A node. -/
  | node
  /-- No node of its own, but its parts have a role in the node around it. -/
  | group
  /-- No node of its own; its parts belong to the node around it. -/
  | splice
  deriving DecidableEq, Repr

/-- A rule with its name. -/
structure Definition where
  name : String
  display : Display
  body : Rule
  deriving Repr

namespace Definition

/-- A rule whose phrases are nodes. -/
def node (name : String) (body : Rule) : Definition := ⟨name, .node, body⟩

/-- A rule whose phrases are parts of the node around them, in a role. -/
def group (name : String) (body : Rule) : Definition := ⟨name, .group, body⟩

/-- A rule whose phrases are parts of the node around them. -/
def splice (name : String) (body : Rule) : Definition := ⟨name, .splice, body⟩

/-- The part that a definition repeats, if it is nothing but a repetition without a node. -/
def repeated? (d : Definition) : Option Rule :=
  match d.display, d.body with
  | .splice, .series r => some r
  | _, _ => none

end Definition

end DocBlocks
