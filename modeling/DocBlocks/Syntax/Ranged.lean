import DocBlocks.Syntax.Node
import DocBlocks.Text.Lossy

/-
  Trees over byte ranges, and the lossless trees that they become.

  A reading of a source tells nodes by the bytes they cover. Its tree leaves out what stands between
  tokens. The lossless tree is made in one walk with a running offset: wherever the next node begins
  behind the offset, what lies in between becomes trivia. The root takes in the whole source,
  whatever range the reading gives it.
-/

namespace DocBlocks

/-- A node of a reading, by the bytes of the source that it covers. -/
structure RangedTree where
  rule : String
  /-- Whether the rule has a name, and is not a piece of text that stands in other rules. -/
  isNamed : Bool
  /-- The role that the node has in its parent. -/
  field : Option String
  start : Nat
  stop : Nat
  children : List RangedTree
  /-- Whether the node may stand between any two others. -/
  isExtra : Bool
  deriving Repr

namespace RangedTree

instance : Inhabited RangedTree := ⟨⟨"", false, none, 0, 0, [], false⟩⟩

/-- The category of a node. -/
def kind (t : RangedTree) : Kind := .ofGrammar t.rule t.isNamed

end RangedTree

/-- A source that trees are made of, with its lines. -/
structure TreeBuilder where
  source : String
  lines : LineIndex

namespace TreeBuilder

/-- The builder of a source. -/
def ofSource (source : String) : TreeBuilder := ⟨source, .ofText source⟩

/-- The text between two offsets. -/
def slice (b : TreeBuilder) (start stop : Nat) : String :=
  lossyText (b.source.toUTF8.extract start stop)

/-- The trivia between two offsets, if the second one lies behind the first. -/
def gap (b : TreeBuilder) (start stop : Nat) : List Node :=
  if start < stop then [.trivia (b.slice start stop) (b.lines.span start stop)] else []

/-- What a node says about itself once it covers a range. -/
def label (b : TreeBuilder) (t : RangedTree) (field : Option String) (start stop : Nat) : Label :=
  ⟨t.kind, t.rule, field, b.lines.span start stop⟩

mutual

/-- The lossless node of a node. -/
def build (b : TreeBuilder) : RangedTree → Node
  | ⟨rule, isNamed, field, start, stop, [], isExtra⟩ =>
    .leaf (b.label ⟨rule, isNamed, field, start, stop, [], isExtra⟩ field start stop)
      (b.slice start stop)
  | ⟨rule, isNamed, field, start, stop, c :: cs, isExtra⟩ =>
    .branch (b.label ⟨rule, isNamed, field, start, stop, c :: cs, isExtra⟩ field start stop)
      (b.buildAmong start stop (c :: cs))

/-- The lossless nodes of neighbouring nodes from an offset up to another one, with the gaps between
them. -/
def buildAmong (b : TreeBuilder) (offset stop : Nat) : List RangedTree → List Node
  | [] => b.gap offset stop
  | c :: cs => b.gap offset c.start ++ b.build c :: b.buildAmong (max offset c.stop) stop cs

end

/-- The lossless root of a root. It covers the whole source. A root without nodes below it gets
one, with its own range. -/
def buildRoot (b : TreeBuilder) (t : RangedTree) : Node :=
  let stop := b.source.utf8ByteSize
  match t.children with
  | [] =>
    let inner := .leaf (b.label t none t.start t.stop) (b.slice t.start t.stop)
    .branch (b.label t none 0 stop) (b.gap 0 t.start ++ inner :: b.gap t.stop stop)
  | c :: cs => .branch (b.label t none 0 stop) (b.buildAmong 0 stop (c :: cs))

end TreeBuilder

/-- The lossless tree of a source that was read. -/
def RangedTree.syntaxTree (source : String) (t : RangedTree) : Node :=
  (TreeBuilder.ofSource source).buildRoot t

end DocBlocks
