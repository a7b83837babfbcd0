import DocBlocks.Proofs.Annotation.Attach
import DocBlocks.Proofs.Syntax.Edit
import Mathlib.Logic.Relation

/-!
# Documentation as edits of a tree

`documented_annotate`: attaching documentation is nothing but edits of the tree, made one after the
other, and each of them is of one of two kinds. It sets the text of what is a documentation comment
at that moment, or it puts in a comment or some layout of no extent; nothing is taken out. So what
is known about edits is known about documentation (`exists_localChanges_annotate`).

An edit of a child is an edit of the branch by a longer path (`TreeEdit.below`), so what is done
below a child is done below the branch, whatever stands beside the child (`documented_child`). The
children of a branch are then done from left to right, as `Attached` tells them.
-/

namespace DocBlocks

open Relation

/-! ### Edits below a child -/

namespace TreeEdit

/-- An edit of a child as an edit of the branch. -/
def below (i : Nat) : TreeEdit → TreeEdit
  | setText p text => setText (i :: p) text
  | insert p j c => insert (i :: p) j c
  | remove p j => remove (i :: p) j

theorem path_below (i : Nat) (e : TreeEdit) : (e.below i).path = i :: e.path := by
  cases e <;> rfl

theorem change?_below (i : Nat) (e : TreeEdit) : (e.below i).change? = e.change? := by
  cases e <;> rfl

theorem make?_below {e : TreeEdit} {c c' : Node} (h : e.make? c = some c') (l : Label)
    (xs ys : List Node) :
    (e.below xs.length).make? (.branch l (xs ++ c :: ys)) = some (.branch l (xs ++ c' :: ys)) := by
  have hchild : Node.modifyAt? e.change? e.path c = some c' := h
  rw [make?, path_below, change?_below]
  simp [Node.modifyAt?, hchild]

end TreeEdit

/-! ### Documenting edits -/

/-- Whether an edit does to a tree what documentation does: it sets the text of a documentation
comment, or it puts in a comment or some layout of no extent. -/
def TreeEdit.Documents (n : Node) : TreeEdit → Prop
  | setText p _ => ∃ c, n.at? p = some c ∧ c.isDocComment = true
  | insert _ _ c => c.kind.isTrivia = true ∧ c.isLeaf = true ∧ c.span.isEmpty = true
  | remove _ _ => False

/-- Whether a tree becomes another one by one documenting edit. -/
def DocumentedOnce (n n' : Node) : Prop := ∃ e : TreeEdit, e.Documents n ∧ e.make? n = some n'

variable {docs : DocMap} {newline : String}

theorem DocumentedOnce.child {c c' : Node} (h : DocumentedOnce c c') (l : Label)
    (xs ys : List Node) :
    DocumentedOnce (.branch l (xs ++ c :: ys)) (.branch l (xs ++ c' :: ys)) := by
  obtain ⟨e, hdocuments, hmake⟩ := h
  refine ⟨e.below xs.length, ?_, TreeEdit.make?_below hmake l xs ys⟩
  cases e with
  | setText p text =>
    obtain ⟨d, hd, hdoc⟩ := hdocuments
    refine ⟨d, ?_, hdoc⟩
    rw [Node.at?_cons, Node.children_branch]
    simpa using hd
  | insert p i d => exact hdocuments
  | remove p i => exact hdocuments

/-- **What is done below a child is done below the branch.** -/
theorem documented_child {c c' : Node} (h : ReflTransGen DocumentedOnce c c') (l : Label)
    (xs ys : List Node) :
    ReflTransGen DocumentedOnce (.branch l (xs ++ c :: ys)) (.branch l (xs ++ c' :: ys)) := by
  induction h with
  | refl => exact .refl
  | tail _ hstep ih => exact ih.tail (hstep.child l xs ys)

/-- A comment or some layout of no extent is put in among the children. -/
theorem documentedOnce_insert {c : Node} (hkind : c.kind.isTrivia = true) (hleaf : c.isLeaf = true)
    (hspan : c.span.isEmpty = true) (l : Label) (xs ys : List Node) :
    DocumentedOnce (.branch l (xs ++ ys)) (.branch l (xs ++ c :: ys)) := by
  have hinserted : (xs ++ ys).insertIdx xs.length c = xs ++ c :: ys := by
    induction xs with
    | nil => rfl
    | cons x xs ih => simpa using ih
  have hmake : (Node.branch l (xs ++ ys)).insertChild? xs.length c =
      some (.branch l (xs ++ c :: ys)) :=
    Node.insertChild?_eq_some.2 ⟨l, xs ++ ys, rfl, by simp, by rw [hinserted]⟩
  exact ⟨.insert [] xs.length c, ⟨hkind, hleaf, hspan⟩, hmake⟩

theorem documentedOnce_withText {c : Node} (hc : c.isDocComment = true) (text : String) :
    DocumentedOnce c (c.withText text) :=
  ⟨.setText [] text, ⟨c, rfl, hc⟩, rfl⟩

/-! ### Annotated trees -/

/-- **The children of a branch are done from left to right**, with those that are to come still as
they were. -/
theorem Attached.documented {xs ys : List Node} (h : Attached docs newline xs ys)
    (hchild : ∀ c ∈ xs, ReflTransGen DocumentedOnce c (annotate docs newline c)) (l : Label)
    (zs : List Node) :
    ReflTransGen DocumentedOnce (.branch l (xs ++ zs)) (.branch l (ys ++ zs)) := by
  induction h generalizing zs with
  | nil => exact .refl
  | @keep xs ys n hxs hdoc ih =>
    have hfront := ih (fun c hc => hchild c (by simp [hc])) (n :: zs)
    have hlast := documented_child (hchild n (by simp)) l ys zs
    simpa using hfront.trans hlast
  | @insert xs ys m name doc hxs hdoc hlook ih =>
    set indent := indentationAfter xs.reverse
    set block := Node.comment (renderBlock doc indent newline) m.span.before
    set layout := Node.trivia (newline ++ indent) m.span.before
    have hfront := ih (fun c hc => hchild c (by simp [hc])) (m :: zs)
    have hempty : m.span.before.isEmpty = true := m.span.isEmpty_before
    have hlayout := documentedOnce_insert (c := layout) rfl rfl hempty l ys (m :: zs)
    have hblock := documentedOnce_insert (c := block) rfl rfl hempty l ys (layout :: m :: zs)
    have hlast := documented_child (hchild m (by simp)) l (ys ++ [block, layout]) zs
    simp only [List.append_assoc, List.cons_append, List.nil_append] at hlast ⊢
    exact ((hfront.tail hlayout).tail hblock).trans hlast
  | @replace xs ys ts c m name doc hxs hdoc hc hts ih =>
    set block := renderBlock doc (indentationAfter (xs ++ c :: ts).reverse) newline
    have hfront := ih (fun d hd => hchild d (by simp [hd])) (c :: ts ++ m :: zs)
    have hcomment := (documentedOnce_withText hc block).child l ys (ts ++ m :: zs)
    have hlast := documented_child (hchild m (by simp)) l (ys ++ c.withText block :: ts) zs
    simp only [List.append_assoc, List.cons_append, List.nil_append] at hfront hlast ⊢
    exact (hfront.tail hcomment).trans hlast

/-- **A tree is documented by documenting edits.** -/
theorem documented_annotate {n : Node} (h : n.Regular) :
    ReflTransGen DocumentedOnce n (annotate docs newline n) := by
  induction n using Node.treeInduction with
  | leaf l t => exact .refl
  | branch l cs ih =>
    have hattached : Attached docs newline cs (annotate docs newline (.branch l cs)).children :=
      attached_annotate h
    have hbranch := hattached.documented (fun c hc => ih c hc (h.of_mem_children hc)) l []
    simpa [annotate] using hbranch

theorem exists_makeAll?_of_documented {n n' : Node} (h : ReflTransGen DocumentedOnce n n') :
    ∃ es, TreeEdit.makeAll? es n = some n' := by
  induction h with
  | refl => exact ⟨[], rfl⟩
  | @tail m n' _ hstep ih =>
    obtain ⟨es, hes⟩ := ih
    obtain ⟨e, -, he⟩ := hstep
    refine ⟨es ++ [e], ?_⟩
    rw [TreeEdit.makeAll?_append, hes, Option.bind_some, TreeEdit.makeAll?, he]
    rfl

/-- **Attaching documentation is a number of local edits.** -/
theorem exists_localChanges_annotate {n : Node} (h : n.Regular) :
    ∃ es, TreeEdit.makeAll? es n = some (annotate docs newline n) ∧
      TreeEdit.LocalChanges es n (annotate docs newline n) := by
  obtain ⟨es, hes⟩ := exists_makeAll?_of_documented (documented_annotate h)
  exact ⟨es, hes, TreeEdit.localChanges_of_makeAll? hes⟩

end DocBlocks
