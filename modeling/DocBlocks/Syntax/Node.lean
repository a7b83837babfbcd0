import DocBlocks.Source.Span
import DocBlocks.Syntax.Kind

/-
  Lossless syntax trees.

  A leaf holds the exact text it was read from, and the gaps between tokens are leaves as well, so
  the leaves of a tree in order give back the source. `Node.text` is the one view of a tree that
  the rest of the library reasons with.
-/

namespace DocBlocks

/-- What a node says about itself: category, grammar rule, the role it has in its parent, and
where it was read. -/
structure Label where
  kind : Kind
  rule : String
  field : Option String
  span : Span
  deriving DecidableEq, Repr, Inhabited

/-- A node of a lossless syntax tree. -/
inductive Node where
  | leaf (label : Label) (text : String)
  | branch (label : Label) (children : List Node)
  deriving Repr

namespace Node

instance : Inhabited Node := ⟨leaf default ""⟩

/-- What the node says about itself. -/
def label : Node → Label
  | leaf l _ => l
  | branch l _ => l

/-- The category of a node. -/
def kind (n : Node) : Kind := n.label.kind

/-- The grammar rule of a node. -/
def rule (n : Node) : String := n.label.rule

/-- The role of a node in its parent. -/
def field (n : Node) : Option String := n.label.field

/-- Where a node was read. -/
def span (n : Node) : Span := n.label.span

/-- A stretch of source between tokens. -/
def trivia (text : String) (span : Span) : Node :=
  leaf ⟨.trivia, "trivia", none, span⟩ text

/-- A comment. -/
def comment (text : String) (span : Span) : Node :=
  leaf ⟨.comment, "comment", none, span⟩ text

/-- Whether a node holds text and no nodes. -/
def isLeaf : Node → Bool
  | leaf _ _ => true
  | branch _ _ => false

/-- The text of a leaf. -/
def leafText? : Node → Option String
  | leaf _ t => some t
  | branch _ _ => none

/-- The nodes directly below a node. -/
def children : Node → List Node
  | leaf _ _ => []
  | branch _ cs => cs

/-! ### Text -/

mutual

/-- The source text that a node covers. -/
def text : Node → String
  | leaf _ t => t
  | branch _ cs => textAll cs

/-- The source text that neighbouring nodes cover. -/
def textAll : List Node → String
  | [] => ""
  | n :: ns => n.text ++ textAll ns

end

theorem textAll_append (xs ys : List Node) : textAll (xs ++ ys) = textAll xs ++ textAll ys := by
  induction xs with
  | nil => simp [textAll]
  | cons x xs ih => simp [textAll, ih, String.append_assoc]

/-! ### Looking around -/

/-- The children that are neither layout nor commentary nor bare tokens. -/
def namedChildren (n : Node) : List Node :=
  n.children.filter fun c => !c.kind.isTrivia && c.kind != .token

/-- The first child in a role. -/
def childByField? (n : Node) (field : String) : Option Node :=
  n.children.find? (·.field == some field)

/-- The first child of a category. -/
def childOfKind? (n : Node) (kind : Kind) : Option Node :=
  n.children.find? (·.kind == kind)

/-- The node at the end of a path of child positions. -/
def at? (n : Node) : List Nat → Option Node
  | [] => some n
  | i :: path => (n.children[i]?).bind fun c => c.at? path

/-! ### Walking -/

/-- A walk over trees: what it has still to visit, each node with everything below it. The node that
is visited next is on top. -/
structure Walk where
  stack : List Node

namespace Walk

/-- Puts nodes on a stack, one on top of the other. -/
def pushAll (stack ns : List Node) : List Node :=
  ns.foldl (fun stack n => n :: stack) stack

/-- The node on top, and the walk without it. Its children take its place, the first one on top. -/
def next? (w : Walk) : Option (Node × Walk) :=
  match w.stack with
  | [] => none
  | n :: rest => some (n, ⟨pushAll rest n.children.reverse⟩)

theorem pushAll_reverse (stack ns : List Node) : pushAll stack ns.reverse = ns ++ stack := by
  rw [pushAll, List.foldl_reverse]
  induction ns with
  | nil => rfl
  | cons n ns ih => rw [List.foldr_cons, ih, List.cons_append]

theorem sizeOf_append (xs ys : List Node) : sizeOf (xs ++ ys) + 1 = sizeOf xs + sizeOf ys := by
  induction xs with
  | nil => simp [Nat.add_comm]
  | cons x xs ih =>
    simp only [List.cons_append, List.cons.sizeOf_spec]
    omega

/-- **A step leaves less to visit.** -/
theorem sizeOf_lt_of_next? {w w' : Walk} {n : Node} (h : w.next? = some (n, w')) :
    sizeOf w'.stack < sizeOf w.stack := by
  unfold next? at h
  split at h
  · cases h
  · next m rest hstack =>
    obtain ⟨rfl, rfl⟩ := Prod.mk.inj (Option.some.inj h)
    rw [hstack, pushAll_reverse]
    show sizeOf (m.children ++ rest) < sizeOf (m :: rest)
    have happend := sizeOf_append m.children rest
    have hchildren : sizeOf m.children ≤ sizeOf m := by
      cases m with
      | leaf l t =>
        simp only [children, List.nil.sizeOf_spec, leaf.sizeOf_spec]
        omega
      | branch l cs => simp [children]
    rw [List.cons.sizeOf_spec]
    omega

/-- The nodes that a walk visits. -/
def toList (w : Walk) : List Node :=
  match _h : w.next? with
  | none => []
  | some (n, w') => n :: w'.toList
  termination_by sizeOf w.stack
  decreasing_by exact sizeOf_lt_of_next? _h

end Walk

/-- A node and everything below it, as a walk from the node visits them. -/
def descendants (n : Node) : List Node := Walk.toList ⟨[n]⟩

/-- The first node of a category that a walk visits. -/
def findFirst? (n : Node) (kind : Kind) : Option Node :=
  n.descendants.find? (·.kind == kind)

/-! ### Local edits -/

/-- A node with its content replaced by a piece of text. -/
def withText (n : Node) (text : String) : Node := leaf n.label text

/-- A node with its role replaced. -/
def withField (n : Node) (field : Option String) : Node :=
  match n with
  | leaf l t => leaf { l with field := field } t
  | branch l cs => branch { l with field := field } cs

/-- Changes the node at the end of a path, if there is one and the change applies to it. -/
def modifyAt? (edit : Node → Option Node) : List Nat → Node → Option Node
  | [], n => edit n
  | _ :: _, leaf _ _ => none
  | i :: path, branch l cs => do
    let c ← cs[i]?
    let c' ← modifyAt? edit path c
    pure (branch l (cs.set i c'))

/-- A branch with a node put in before the child at a position, or behind the last one. -/
def insertChild? (n : Node) (i : Nat) (c : Node) : Option Node :=
  match n with
  | leaf _ _ => none
  | branch l cs => if i ≤ cs.length then some (branch l (cs.insertIdx i c)) else none

/-- A branch without the child at a position. -/
def removeChild? (n : Node) (i : Nat) : Option Node :=
  match n with
  | leaf _ _ => none
  | branch l cs => if i < cs.length then some (branch l (cs.eraseIdx i)) else none

/-! ### Documentation comments -/

/-- Whether a node is a comment that opens with two asterisks. -/
def isDocComment (n : Node) : Bool :=
  n.kind == .comment && (n.leafText?.any (·.startsWith "/**"))

/-- The documentation comment that stands directly before a position: only layout may lie between.
The nodes before the position are given nearest first; the answer counts the layout skipped. -/
def docCommentBefore? (nearestFirst : List Node) : Option (Nat × Node) :=
  let skipped := nearestFirst.takeWhile (·.kind == .trivia)
  match nearestFirst.drop skipped.length with
  | [] => none
  | n :: _ => if n.isDocComment then some (skipped.length, n) else none

/-- The position of the documentation comment of the sibling at a position. -/
def precedingDocComment? (siblings : List Node) (i : Nat) : Option Nat :=
  (docCommentBefore? (siblings.take i).reverse).map fun (skipped, _) => i - 1 - skipped

end Node

end DocBlocks
