import DocBlocks.Annotation.Block
import DocBlocks.Syntax.Node

/-
  Attaching documentation to the methods of a tree.

  A documentation comment directly above a method is replaced; otherwise a new one is put in. All
  other nodes stay as they are.
-/

namespace DocBlocks

/-- Documentation by method name, sorted by name. -/
structure DocMap where
  entries : List (String × String)
  deriving DecidableEq, Repr, Inhabited

namespace DocMap

/-- The map without entries. -/
def empty : DocMap := ⟨[]⟩

/-- Puts an entry at its place, or replaces the one with the same name. -/
def insertEntry (name doc : String) : List (String × String) → List (String × String)
  | [] => [(name, doc)]
  | (n, d) :: es =>
    if name < n then (name, doc) :: (n, d) :: es
    else if name = n then (name, doc) :: es
    else (n, d) :: insertEntry name doc es

/-- Adds an entry; the last one for a name wins. -/
def insert (m : DocMap) (name doc : String) : DocMap := ⟨insertEntry name doc m.entries⟩

/-- A map from entries in any order. -/
def ofList (es : List (String × String)) : DocMap :=
  es.foldl (fun m (name, doc) => m.insert name doc) empty

/-- The documentation of a name. -/
def get? (m : DocMap) (name : String) : Option String := m.entries.lookup name

/-- The names, in order. -/
def names (m : DocMap) : List String := m.entries.map (·.1)

end DocMap

/-- The name and the documentation of a method that has some. -/
def docFor? (docs : DocMap) (n : Node) : Option (String × String) :=
  if n.kind = .method then
    (n.childByField? "name").bind fun name => (docs.get? name.text).map fun d => (name.text, d)
  else none

/-- The indentation of the line that a node starts on, told by the layout in front of it. The nodes
before it are given nearest first. -/
def indentationAfter (nearestFirst : List Node) : String :=
  match nearestFirst with
  | [] => ""
  | n :: _ =>
    if n.kind = .trivia then
      let cs := n.text.toList
      if cs.contains '\n' then
        let line := (cs.reverse.takeWhile (· != '\n')).reverse
        String.ofList (line.takeWhile fun c => c == ' ' || c == '\t')
      else ""
    else ""

/-- The indentation of the line that the sibling at a position starts on. -/
def indentationBefore (siblings : List Node) (i : Nat) : String :=
  indentationAfter (siblings.take i).reverse

/-- Puts a block in front of the sibling at a position: over the documentation comment that stands
there, or as a new comment with a line break behind it. -/
def attachAt (newline : String) (siblings : List Node) (i : Nat) (doc : String) : List Node :=
  match siblings[i]? with
  | none => siblings
  | some method =>
    let indent := indentationBefore siblings i
    let block := renderBlock doc indent newline
    match Node.precedingDocComment? siblings i with
    | some k => siblings.modify k (·.withText block)
    | none =>
      let at_ := method.span.before
      (siblings.insertIdx i (.trivia (newline ++ indent) at_)).insertIdx i (.comment block at_)

/-- The positions of the siblings that have documentation, counted from a start, each with its
documentation. -/
def targetsFrom (docs : DocMap) (start : Nat) (siblings : List Node) : List (Nat × String) :=
  (siblings.zipIdx start).filterMap fun (n, i) => (docFor? docs n).map fun (_, doc) => (i, doc)

/-- Documents neighbouring nodes that are done inside. The last one comes first, so that what is put
in front of it does not shift the positions that are left. -/
def attachTargets (docs : DocMap) (newline : String) (siblings : List Node) : List Node :=
  (targetsFrom docs 0 siblings).foldr (fun (i, doc) ns => attachAt newline ns i doc) siblings

mutual

/-- A tree with documentation attached to all methods that have some. -/
def annotate (docs : DocMap) (newline : String) : Node → Node
  | .leaf l t => .leaf l t
  | .branch l cs => .branch l (attachTargets docs newline (annotateAll docs newline cs))

/-- Neighbouring nodes, each with documentation attached to the methods inside it. -/
def annotateAll (docs : DocMap) (newline : String) : List Node → List Node
  | [] => []
  | n :: ns => annotate docs newline n :: annotateAll docs newline ns

end

mutual

/-- The names of the documented methods below a node. -/
def documentedIn (docs : DocMap) : Node → List String
  | .leaf _ _ => []
  | .branch _ cs => documentedAmong docs cs

/-- The names of the documented methods among neighbouring nodes and below them. -/
def documentedAmong (docs : DocMap) : List Node → List String
  | [] => []
  | n :: ns =>
    ((docFor? docs n).map (·.1)).toList ++ documentedIn docs n ++ documentedAmong docs ns

end

end DocBlocks
