import DocBlocks.Reading.Pile

/-
  Bundles of piles.

  While it is open which phrases there are, several piles grow side by side. Those that have got to
  the same state at the same place go on alike, so they are held in one bundle, and what they share
  below their tops is there once. Nesting then makes a bundle higher, not wider.

  A terminal is taken in by putting phrases together until a state can take it. Where there are
  several ways to do so, there are several bundles afterwards, one for each state.
-/

namespace DocBlocks

mutual

/-- Piles that have got to the same state at the same place. -/
inductive Bundle where
  /-- The pile without trees. -/
  | ground
  /-- Piles with something on top, and the byte that they have got to. -/
  | joint (state : State) (byte : Nat) (strands : Strands)

/-- The trees on top of the piles of a bundle, each with the bundle below it. -/
inductive Strands where
  | one (tree : Concrete) (below : Bundle)
  | more (tree : Concrete) (below : Bundle) (others : Strands)

end

namespace Concrete

/-- Whether two trees are the same token or the same extra. -/
def isSameLeaf : Concrete → Concrete → Bool
  | token t gap text, token t' gap' text' => t == t' && gap == gap' && text == text'
  | comment gap text, comment gap' text' => gap == gap' && text == text'
  | island gap i, island gap' i' => gap == gap' && i == i'
  | _, _ => false

end Concrete

namespace Bundle

instance : Inhabited Bundle := ⟨ground⟩

/-- The state reached. -/
def state : Bundle → State
  | ground => .start
  | joint s _ _ => s

/-- Whether the piles of two bundles have got to the same state at the same place. -/
def isAbreast : Bundle → Bundle → Bool
  | ground, ground => true
  | joint s byte _, joint s' byte' _ => byte == byte' && s == s'
  | _, _ => false

/-- The bundle of piles with one more tree on top. -/
def push (b : Bundle) (tree : Concrete) (state : State) (byte : Nat) : Bundle :=
  joint state byte (.one tree b)

mutual

/-- The piles of a bundle. -/
def piles : Bundle → List Pile
  | ground => [[]]
  | joint s _ strands => strandPiles s strands

/-- The piles whose tops are some strands. -/
def strandPiles (s : State) : Strands → List Pile
  | .one tree below => below.piles.map (⟨tree, s⟩ :: ·)
  | .more tree below others => below.piles.map (⟨tree, s⟩ :: ·) ++ strandPiles s others

end

/-! ### Bundles become one -/

/-- Adds a tree with a bundle below it to some strands. The same leaf is there once, with the
bundles below it joined. Of different trees on bundles that have got equally far, the better one
counts. -/
def addStrand (book : RuleBook) (tree : Concrete) (below : Bundle) (join : Bundle → Bundle) :
    Strands → Strands
  | .one tree' below' =>
    if tree.isSameLeaf tree' && below.state == below'.state then .one tree' (join below')
    else if below.isAbreast below' then
      if Concrete.outdoes book [tree] [tree'] then .one tree below else .one tree' below'
    else .more tree' below' (.one tree below)
  | .more tree' below' others =>
    if tree.isSameLeaf tree' && below.state == below'.state then .more tree' (join below') others
    else if below.isAbreast below' then
      if Concrete.outdoes book [tree] [tree'] then .more tree below others
      else .more tree' below' others
    else .more tree' below' (addStrand book tree below join others)

mutual

/-- Adds the piles of a bundle to those of another one that has reached the same state. -/
def join (book : RuleBook) : Bundle → Bundle → Bundle
  | joint _ _ strands, joint s byte strands' => joint s byte (joinStrands book strands strands')
  | _, b => b

/-- Adds strands to others. -/
def joinStrands (book : RuleBook) : Strands → Strands → Strands
  | .one tree below, strands => addStrand book tree below (join book below) strands
  | .more tree below others, strands =>
    joinStrands book others (addStrand book tree below (join book below) strands)

end

/-- Adds a bundle to others, one for each state. -/
def insert (book : RuleBook) (b : Bundle) : List Bundle → List Bundle
  | [] => [b]
  | c :: cs => if b.state == c.state then b.join book c :: cs else c :: insert book b cs

/-! ### Putting phrases together -/

mutual

/-- Takes trees off the tops until as many as asked for are no extras, in all ways there are. The
trees come in order, with the bundle that they stood on. -/
def pop : Nat → Bundle → List Concrete → List (List Concrete × Bundle)
  | 0, b, trees => [(trees, b)]
  | _ + 1, ground, trees => [(trees, ground)]
  | n + 1, joint _ _ strands, trees => popStrands n strands trees

/-- Takes trees off strands, as many as asked for and one more. -/
def popStrands : Nat → Strands → List Concrete → List (List Concrete × Bundle)
  | n, .one tree below, trees => pop (if tree.isExtra then n + 1 else n) below (tree :: trees)
  | n, .more tree below others, trees =>
    pop (if tree.isExtra then n + 1 else n) below (tree :: trees) ++ popStrands n others trees

end

/-- Puts trees on top that leave the state alone. -/
def pushAll (b : Bundle) (trees : List Concrete) (state : State) (byte : Nat) : Bundle :=
  trees.foldl (fun b t => b.push t state byte) b

/-- Puts a phrase together from the trees on top, in all ways there are. Extras behind the phrase
stay outside. -/
def reduce (book : RuleBook) (byte : Nat) (b : Bundle) (production : Nat) : List Bundle :=
  match book.productions[production]? with
  | none => []
  | some r =>
    (pop r.body.size b []).filterMap fun (trees, rest) =>
      let (trees, extras) := splitExtras trees
      (book.next? rest.state r.head).map fun s =>
        pushAll (rest.push (.phrase production trees) s byte) extras s byte

/-- Puts each phrase together that a terminal allows, in each of some bundles. -/
def reduceAll (book : RuleBook) (byte terminal : Nat) (bs : List Bundle) : List Bundle :=
  let reduced := bs.flatMap fun b =>
    (book.moves b.state terminal).reductions.flatMap (b.reduce book byte)
  reduced.foldl (fun cs b => insert book b cs) []

/-- Takes a terminal in as it is, if the state can. -/
def shift? (book : RuleBook) (terminal : Nat) (tree : Concrete) (byte : Nat) (b : Bundle) :
    Option Bundle :=
  let m := book.moves b.state terminal
  if m.shifts && !m.prolongs then
    (book.next? b.state terminal).map fun s => b.push tree s byte
  else none

/-- Takes a terminal in, in all ways there are. What is put together gets to the byte in front of
the terminal, and the terminal to the byte behind it. -/
def takeIn (book : RuleBook) (terminal : Nat) (tree : Concrete) (front back : Nat) :
    Nat → List Bundle → List Bundle
  | 0, _ => []
  | _ + 1, [] => []
  | fuel + 1, bs =>
    takeIn book terminal tree front back fuel (reduceAll book front terminal bs) ++
      bs.filterMap (shift? book terminal tree back)

/-- Puts phrases together until the source is complete, in all ways there are. -/
def complete (book : RuleBook) (byte : Nat) : Nat → List Bundle → List Bundle
  | 0, _ => []
  | _ + 1, [] => []
  | fuel + 1, bs =>
    let (done, open') := bs.partition fun b => (book.moves b.state 0).accepts
    done ++ complete book byte fuel (reduceAll book byte 0 open')

/-- The number of rounds in which phrases can be put together before a terminal is taken in, if the
piles have no more trees than a number of tokens. -/
def fuel (book : RuleBook) (tokens : Nat) : Nat := (tokens + 1) * (book.phrases.size + 1)

end Bundle

end DocBlocks
