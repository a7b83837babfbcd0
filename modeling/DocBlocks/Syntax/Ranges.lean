import DocBlocks.Reading.Reader
import DocBlocks.Syntax.Ranged

/-
  From concrete trees to trees over byte ranges.

  A phrase becomes a node, or its parts become parts of the node around it; tokens that do not show
  become nothing. The offset of the next byte runs along. What stands in front of the first token of
  a phrase stays outside the range of its node, so blanks and extras are never at its ends.
-/

namespace DocBlocks

namespace RangedTree

/-- A node with its role replaced. -/
def withField (t : RangedTree) (field : Option String) : RangedTree := { t with field := field }

/-- Gives a node its role, unless it has one. Extras have none. -/
def inRole (role? : Option String) (t : RangedTree) : RangedTree :=
  if t.isExtra || t.field.isSome then t else t.withField role?

/-- The nodes that show of a range with nodes in it. -/
def dressed (guise : Guise) (role? : Option String) (start stop : Nat) (inner : List RangedTree) :
    List RangedTree :=
  match guise with
  | .hidden => inner.map (inRole role?)
  | .bare kind => [⟨kind, false, role?, start, stop, inner, false⟩]
  | .named kind => [⟨kind, true, role?, start, stop, inner, false⟩]

/-- A node of a rule without nodes below it, unless the range is empty. -/
def leafUnlessNil (rule : String) (start stop : Nat) : List RangedTree :=
  if start < stop then [⟨rule, true, none, start, stop, [], false⟩] else []

end RangedTree

/-- The node of an island of markup that begins at an offset. -/
def Island.range (i : Island) (start : Nat) : RangedTree :=
  let closed := start + closingTag.utf8ByteSize
  let text := closed + i.gap.utf8ByteSize
  let gapAfter := text + i.text.utf8ByteSize
  let tag := gapAfter + i.gapAfter.utf8ByteSize
  let stop := tag + i.tag.utf8ByteSize
  let leaf := RangedTree.leafUnlessNil
  ⟨"text_interpolation", true, none, start, stop,
    leaf "php_end_tag" start closed ++ leaf "text" text gapAfter ++ leaf "php_tag" tag stop, true⟩

namespace Concrete

/-- The text in front of a tree that does not belong to it. -/
def lead : Concrete → String
  | token _ gap _ => gap
  | comment gap _ => gap
  | island gap _ => gap
  | phrase _ [] => ""
  | phrase _ (c :: _) => c.lead

mutual

/-- The nodes that a tree in a post gives, and the offset behind it, if the text in front of it
begins at an offset. A phrase of no production is nothing but its parts. -/
def ranges (book : RuleBook) (post : Post) (offset : Nat) : Concrete → List RangedTree × Nat
  | token t gap text =>
    let start := offset + gap.utf8ByteSize
    let stop := start + text.utf8ByteSize
    (RangedTree.dressed (post.guise?.getD (book.guiseOf t)) post.role? start stop [], stop)
  | comment gap text =>
    let start := offset + gap.utf8ByteSize
    let stop := start + text.utf8ByteSize
    ([⟨"comment", true, none, start, stop, [], true⟩], stop)
  | island gap i =>
    let node := i.range (offset + gap.utf8ByteSize)
    ([node], node.stop)
  | phrase p parts =>
    let start := offset + (phrase p parts).lead.utf8ByteSize
    match book.productions[p]? with
    | none =>
      let (inner, stop) := rangesAmong book [] offset parts
      (RangedTree.dressed .hidden post.role? start stop inner, stop)
    | some r =>
      let (inner, stop) := rangesAmong book r.posts offset parts
      (RangedTree.dressed (post.guise?.getD (book.guiseOf r.head)) post.role? start stop inner,
        stop)

/-- The nodes that neighbouring trees give, and the offset behind them. Extras take no post. -/
def rangesAmong (book : RuleBook) (posts : List Post) (offset : Nat) :
    List Concrete → List RangedTree × Nat
  | [] => ([], offset)
  | c :: cs =>
    let (front, between) := c.ranges book (posts.headD .plain) offset
    let (back, stop) := rangesAmong book (if c.isExtra then posts else posts.tail) between cs
    (front ++ back, stop)

end

/-- The nodes right below the root. The phrase of the whole source does not show. -/
def rootRanges (book : RuleBook) (offset : Nat) : List Concrete → List RangedTree
  | [] => []
  | c :: cs =>
    let (front, stop) := c.ranges book ⟨none, some .hidden⟩ offset
    front ++ rootRanges book stop cs

end Concrete

/-- The tree of what was read, by bytes of the source. It begins with its first node. Without one it
is empty and stands at the end. -/
def Parsed.ranges (book : RuleBook) (p : Parsed) : RangedTree :=
  let stop := p.text.utf8ByteSize
  let inner := Concrete.rootRanges book 0 p.trees
  ⟨"program", true, none, (inner.head?.map RangedTree.start).getD stop, stop, inner, false⟩

/-- The tree of a source by its bytes, or nothing if the source follows no rule of the grammar. -/
def sourceRanges? (source : String) : Option RangedTree :=
  (parse? sourceRules source).map (·.ranges sourceRules)

end DocBlocks
