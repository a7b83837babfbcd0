import DocBlocks.Syntax.Ranges

/-!
# Lossless trees told by their texts

The tree of a source is made by byte ranges (`RangedTree.syntaxTree`). What its nodes are like is
easier to tell from texts alone, with no offset in it: a phrase becomes a node, or its parts become
parts of the node around it, and text that belongs to no node of its own (blanks, tokens that do not
show) becomes trivia, neighbouring stretches of it being one node. `Parsed.root` is the tree made in
this way, not yet placed in the source. Once it is placed it is the tree by byte ranges
(`Parsed.syntaxTree_ranges`).
-/

namespace DocBlocks

/-- A part of a node before its gaps are closed: a stretch of text, a node, or an extra. -/
inductive Item where
  | gap (text : String)
  | node (node : Node)
  | extra (node : Node)

namespace Item

/-- The source text of a part. -/
def text : Item → String
  | gap t => t
  | node n => n.text
  | extra n => n.text

/-- The nodes of a list of parts, with the text between them as trivia. The text given is what was
passed since the last node. -/
def close (passed : String) : List Item → List Node
  | [] => if passed.isEmpty then [] else [.trivia passed .nowhere]
  | gap t :: is => close (passed ++ t) is
  | node n :: is =>
    if passed.isEmpty then n :: close "" is
    else .trivia passed .nowhere :: n :: close "" is
  | extra n :: is =>
    if passed.isEmpty then n :: close "" is
    else .trivia passed .nowhere :: n :: close "" is

/-- Whether a part is a node. -/
def isNode : Item → Bool
  | gap _ => false
  | _ => true

/-- Gives a node its role, unless it has one. Extras have none. -/
def inRole (role? : Option String) : Item → Item
  | node n => if n.field.isSome then node n else node (n.withField role?)
  | i => i

/-- The node of a rule with the given parts. Without a node among them it is a leaf. -/
def build (label : Label) (items : List Item) : Node :=
  if items.any isNode then .branch label (close "" items)
  else .leaf label (String.join (items.map text))

end Item

/-- A label of a rule, not yet placed in a source. -/
def ruleLabel (rule : String) (named : Bool) (field : Option String) : Label :=
  ⟨.ofGrammar rule named, rule, field, .nowhere⟩

/-- A leaf of a rule, unless there is no text for it. -/
def leafUnlessEmpty (rule : String) (text : String) : List Item :=
  if text.isEmpty then [] else [.node (.leaf (ruleLabel rule true none) text)]

/-- The node of an island of markup. -/
def Island.node (i : Island) : Node :=
  Item.build (ruleLabel "text_interpolation" true none)
    ([.node (.leaf (ruleLabel "php_end_tag" true none) closingTag), .gap i.gap] ++
      leafUnlessEmpty "text" i.text ++ [.gap i.gapAfter] ++ leafUnlessEmpty "php_tag" i.tag)

/-- Parts that show in a way, in a role. -/
def dress (guise : Guise) (role? : Option String) (items : List Item) : List Item :=
  match guise with
  | .hidden => items.map (.inRole role?)
  | .bare kind => [.node (Item.build (ruleLabel kind false role?) items)]
  | .named kind => [.node (Item.build (ruleLabel kind true role?) items)]

namespace Concrete

mutual

/-- The parts that a tree in a post gives, without the text in front of it. A phrase of no
production is nothing but its parts. -/
def items (book : RuleBook) (post : Post) : Concrete → List Item
  | token t _ text => dress (post.guise?.getD (book.guiseOf t)) post.role? [.gap text]
  | comment _ text => [.extra (.comment text .nowhere)]
  | island _ i => [.extra i.node]
  | phrase p parts =>
    match book.productions[p]? with
    | none => dress .hidden post.role? (itemsFirst book [] parts)
    | some r =>
      dress (post.guise?.getD (book.guiseOf r.head)) post.role? (itemsFirst book r.posts parts)

/-- The parts that the trees of a phrase give, from the first one on. -/
def itemsFirst (book : RuleBook) (posts : List Post) : List Concrete → List Item
  | [] => []
  | c :: cs =>
    let rest := if c.isExtra then posts else posts.tail
    c.items book (posts.headD .plain) ++ itemsMore book rest cs

/-- The parts that the trees of a phrase behind others give. Extras take no post. -/
def itemsMore (book : RuleBook) (posts : List Post) : List Concrete → List Item
  | [] => []
  | c :: cs =>
    let rest := if c.isExtra then posts else posts.tail
    .gap c.lead :: c.items book (posts.headD .plain) ++ itemsMore book rest cs

end

/-- The parts of the root. -/
def rootItems (book : RuleBook) : List Concrete → List Item
  | [] => []
  | c :: cs => .gap c.lead :: c.items book ⟨none, if c.isExtra then none else some .hidden⟩ ++
      rootItems book cs

end Concrete

/-- The tree of a source that has been read. A root without a node below it holds an empty program
behind the text. -/
def Parsed.root (book : RuleBook) (p : Parsed) : Node :=
  let label := ruleLabel "program" true none
  let items := Concrete.rootItems book p.trees ++ [.gap p.tail]
  if items.any Item.isNode then .branch label (Item.close "" items)
  else .branch label (Item.close "" (items ++ [.node (.leaf label "")]))

/-- The lossless tree of a source told by its texts, or nothing if the source follows no rule of the
grammar. -/
def sourceTree? (source : String) : Option Node :=
  (parse? sourceRules source).map (·.root sourceRules)

end DocBlocks
