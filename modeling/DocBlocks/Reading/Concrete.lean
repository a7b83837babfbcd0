import DocBlocks.Grammar.State
import DocBlocks.Token.Find

/-
  Concrete trees: how the tokens of a source group under the productions.

  Every token and every extra comes with the text in front of it, so the text of a concrete tree is
  the text it was read from. Where two trees fit the same text, the one with fewer reluctant phrases
  counts; of two that are equal in this, the one whose symbols come first in the rule book.
-/

namespace DocBlocks

/-- A concrete tree. -/
inductive Concrete where
  | token (terminal : Nat) (gap text : String)
  | comment (gap text : String)
  | island (gap : String) (island : Island)
  | phrase (production : Nat) (parts : List Concrete)
  deriving Repr

namespace Concrete

instance : Inhabited Concrete := ⟨comment "" ""⟩

/-- Whether a tree may stand between any two others. -/
def isExtra : Concrete → Bool
  | comment _ _ => true
  | island _ _ => true
  | _ => false

mutual

/-- The text of a tree, with what stands in front of it. -/
def text : Concrete → String
  | token _ gap t => gap ++ t
  | comment gap t => gap ++ t
  | island gap i => gap ++ i.source
  | phrase _ parts => textAll parts

/-- The text of neighbouring trees. -/
def textAll : List Concrete → String
  | [] => ""
  | c :: cs => c.text ++ textAll cs

end

theorem textAll_append (xs ys : List Concrete) :
    textAll (xs ++ ys) = textAll xs ++ textAll ys := by
  induction xs with
  | nil => simp [textAll]
  | cons x xs ih => simp [textAll, ih, String.append_assoc]

/-! ### Rival trees -/

/-- The symbol of a tree. -/
def symbol (book : RuleBook) : Concrete → Nat
  | token t _ _ => t
  | comment _ _ => 0
  | island _ _ => 0
  | phrase p _ => (book.productions[p]?.map Production.head).getD 0

mutual

/-- The number of reluctant phrases in a tree. -/
def reluctance (book : RuleBook) : Concrete → Nat
  | phrase p ps =>
    reluctanceAll book ps + if book.productions[p]?.any (·.isReluctant) then 1 else 0
  | _ => 0

/-- The number of reluctant phrases in neighbouring trees. -/
def reluctanceAll (book : RuleBook) : List Concrete → Nat
  | [] => 0
  | c :: cs => c.reluctance book + reluctanceAll book cs

end

mutual

/-- The symbols of a tree with the numbers of their parts, each tree before its parts. -/
def outline (book : RuleBook) : Concrete → List (Nat × Nat)
  | phrase p ps =>
    ((book.productions[p]?.map Production.head).getD 0, ps.length) :: outlineAll book ps
  | c => [(c.symbol book, 0)]

/-- The outlines of neighbouring trees. -/
def outlineAll (book : RuleBook) : List Concrete → List (Nat × Nat)
  | [] => []
  | c :: cs => c.outline book ++ outlineAll book cs

end

/-- Whether an outline comes before another one. -/
def precedesOutline : List (Nat × Nat) → List (Nat × Nat) → Bool
  | (a, m) :: xs, (b, n) :: ys =>
    if a < b then true
    else if b < a then false
    else if m < n then true
    else if n < m then false
    else precedesOutline xs ys
  | _, _ => false

/-- Whether neighbouring trees are chosen over others that fit the same text. -/
def outdoes (book : RuleBook) (xs ys : List Concrete) : Bool :=
  let a := reluctanceAll book xs
  let b := reluctanceAll book ys
  if a < b then true
  else if b < a then false
  else precedesOutline (outlineAll book xs) (outlineAll book ys)

end Concrete

end DocBlocks
