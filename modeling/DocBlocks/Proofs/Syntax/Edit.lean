import DocBlocks.Proofs.Syntax.Exchange
import DocBlocks.Syntax.Edit
import Mathlib.Data.Set.Function

/-!
# Edits are local

`TreeEdit.makeAll?_local`: of any number of edits each changes one segment of the text of the tree,
and every node that it is not made on or below stays as it is, together with all that is below that
node. Its path may be another one afterwards, since putting in or taking out a child renumbers the
later ones; `TreeEdit.moved` says which.

An edit exchanges one node for what it is changed to, so what happens around that node is known.
What happens below it depends on the edit: a node whose text is set has nothing below it any more,
and of a node that a child is put in or taken out of the other children are found at the positions
that `TreeEdit.shift` gives.
-/

namespace DocBlocks

namespace Node

/-! ### Children put in and taken out -/

theorem insertChild?_eq_some {n n' c : Node} {i : Nat} :
    n.insertChild? i c = some n' ↔
      ∃ l cs, n = branch l cs ∧ i ≤ cs.length ∧ n' = branch l (cs.insertIdx i c) := by
  cases n with
  | leaf l t => simp [insertChild?]
  | branch l cs =>
    simp only [insertChild?, Option.ite_none_right_eq_some, Option.some.injEq, branch.injEq]
    constructor
    · rintro ⟨hi, rfl⟩
      exact ⟨l, cs, ⟨rfl, rfl⟩, hi, rfl⟩
    · rintro ⟨_, _, ⟨rfl, rfl⟩, hi, rfl⟩
      exact ⟨hi, rfl⟩

theorem removeChild?_eq_some {n n' : Node} {i : Nat} :
    n.removeChild? i = some n' ↔
      ∃ l cs, n = branch l cs ∧ i < cs.length ∧ n' = branch l (cs.eraseIdx i) := by
  cases n with
  | leaf l t => simp [removeChild?]
  | branch l cs =>
    simp only [removeChild?, Option.ite_none_right_eq_some, Option.some.injEq, branch.injEq]
    constructor
    · rintro ⟨hi, rfl⟩
      exact ⟨l, cs, ⟨rfl, rfl⟩, hi, rfl⟩
    · rintro ⟨_, _, ⟨rfl, rfl⟩, hi, rfl⟩
      exact ⟨hi, rfl⟩

theorem textBefore_singleton (n : Node) (i : Nat) :
    n.textBefore [i] = textAll (n.children.take i) := by
  cases h : n.children[i]? <;> simp [textBefore, h]

theorem textAll_insertIdx {cs : List Node} {i : Nat} (c : Node) (h : i ≤ cs.length) :
    textAll (cs.insertIdx i c) = textAll (cs.take i) ++ c.text ++ textAll (cs.drop i) := by
  induction cs generalizing i with
  | nil =>
    obtain rfl : i = 0 := Nat.le_zero.1 h
    simp
  | cons d cs ih =>
    cases i with
    | zero => simp
    | succ i =>
      have htail := ih (Nat.le_of_succ_le_succ h)
      simp [htail, String.append_assoc]

theorem textAll_eq_of_getElem? {cs : List Node} {i : Nat} {c : Node} (h : cs[i]? = some c) :
    textAll cs = textAll (cs.take i) ++ c.text ++ textAll (cs.drop (i + 1)) := by
  obtain ⟨hi, rfl⟩ := List.getElem?_eq_some_iff.1 h
  conv_lhs => rw [← List.take_append_drop i cs, List.drop_eq_getElem_cons hi]
  rw [textAll_append, textAll_cons, String.append_assoc]

end Node

namespace TreeEdit

/-! ### What an edit is made on -/

/-- Where an edit changes the text: at the node whose text is set, or at the child that is put in or
taken out. -/
def site : TreeEdit → List Nat
  | setText p _ => p
  | insert p i _ => p ++ [i]
  | remove p i => p ++ [i]

/-- The text that stands where an edit is made. -/
def oldText : TreeEdit → Node → String
  | setText p _, n => (n.at? p).elim "" Node.text
  | insert _ _ _, _ => ""
  | remove p i, n => (n.at? (p ++ [i])).elim "" Node.text

/-- The text that an edit puts in its place. -/
def newText : TreeEdit → String
  | setText _ text => text
  | insert _ _ c => c.text
  | remove _ _ => ""

/-- What stands where an edit was made, as far as the edit says: the node with its new text, or the
child that was put in. -/
def Leaves : TreeEdit → Node → Node → Prop
  | setText p text, n, n' => n'.at? p = (n.at? p).map (·.withText text)
  | insert p i c, _, n' => n'.at? (p ++ [i]) = some c
  | remove _ _, _, _ => True

/-- Whether an edit can be made: there is a node at its path, and for a child that is put in or
taken out it is a branch with such a position. -/
def Fits : TreeEdit → Node → Prop
  | setText p _, n => ∃ m, n.at? p = some m
  | insert p i _, n => ∃ l cs, n.at? p = some (.branch l cs) ∧ i ≤ cs.length
  | remove p i, n => ∃ l cs, n.at? p = some (.branch l cs) ∧ i < cs.length

/-- Whether a node of the tree is neither on the path of an edit nor inside what is edited. -/
def Spares : TreeEdit → List Nat → Prop
  | setText p _, q => ¬ q <+: p ∧ ¬ p <+: q
  | insert p _ _, q => ¬ q <+: p
  | remove p i, q => ¬ q <+: p ∧ ¬ p ++ [i] <+: q

/-- Whether a node of the edited tree is neither on the path of the edit nor inside what is new. -/
def Carries : TreeEdit → List Nat → Prop
  | setText p _, q => ¬ q <+: p ∧ ¬ p <+: q
  | insert p i _, q => ¬ q <+: p ∧ ¬ p ++ [i] <+: q
  | remove p _, q => ¬ q <+: p

/-- The position that a child of the node that is edited has afterwards. -/
def shift : TreeEdit → Nat → Nat
  | setText _ _, j => j
  | insert _ i _, j => if j < i then j else j + 1
  | remove _ i, j => if j < i then j else j - 1

/-- A path with the position of a child of one node changed. -/
def renumber (shift : Nat → Nat) : List Nat → List Nat → List Nat
  | _, [] => []
  | [], j :: q => shift j :: q
  | i :: path, j :: q => if i = j then j :: renumber shift path q else j :: q

/-- The path that a node has after an edit. -/
def moved (e : TreeEdit) (q : List Nat) : List Nat := renumber e.shift e.path q

/-- **What an edit of a tree does and what it leaves alone.** One segment of the text is another one
afterwards. The nodes on the path of the edit keep their labels, all that are neither there nor
inside what is edited are the same nodes as before, and there are no others. -/
structure LocalChange (e : TreeEdit) (n n' : Node) : Prop where
  text : ∃ behind, n.text = n.textBefore e.site ++ e.oldText n ++ behind ∧
    n'.text = n.textBefore e.site ++ e.newText ++ behind
  leaves : e.Leaves n n'
  labels : ∀ q, q <+: e.path → (n'.at? q).map Node.label = (n.at? q).map Node.label
  kept : ∀ q, e.Spares q → n'.at? (e.moved q) = n.at? q
  carried : Set.BijOn e.moved {q | e.Spares q} {q | e.Carries q}

variable {e : TreeEdit} {m m' n n' : Node} {q : List Nat}

instance : (e : TreeEdit) → (q : List Nat) → Decidable (e.Spares q)
  | setText p _, q => inferInstanceAs (Decidable (¬ q <+: p ∧ ¬ p <+: q))
  | insert p _ _, q => inferInstanceAs (Decidable (¬ q <+: p))
  | remove p i, q => inferInstanceAs (Decidable (¬ q <+: p ∧ ¬ p ++ [i] <+: q))

theorem renumber_append (shift : Nat → Nat) (path : List Nat) (j : Nat) (r : List Nat) :
    renumber shift path (path ++ j :: r) = path ++ shift j :: r := by
  induction path with
  | nil => rfl
  | cons i path ih => simp [renumber, ih]

theorem renumber_of_apart (shift : Nat → Nat) {path q : List Nat} (hpath : ¬ path <+: q) :
    renumber shift path q = q := by
  induction path generalizing q with
  | nil => exact absurd List.nil_prefix hpath
  | cons i path ih =>
    cases q with
    | nil => rfl
    | cons j q =>
      rw [renumber]
      split
      · next hij =>
        subst hij
        rw [ih fun hp => hpath (List.cons_prefix_cons.2 ⟨rfl, hp⟩)]
      · rfl

/-! ### Nodes that are spared -/

theorem Spares.off_path (h : e.Spares q) : ¬ q <+: e.path := by
  cases e with
  | setText p text => exact h.1
  | insert p i c => exact h
  | remove p i => exact h.1

/-- **Where an edit moves a node that it spares**: to another position below the node that is
edited, or nowhere. -/
theorem Spares.moved_cases (h : e.Spares q) :
    (∃ j r, q = e.path ++ j :: r ∧ e.moved q = e.path ++ e.shift j :: r) ∨
      ¬ q <+: e.path ∧ ¬ e.path <+: q ∧ e.moved q = q := by
  rcases Node.path_cases e.path q with hon | ⟨j, r, rfl⟩ | ⟨hoff, hapart⟩
  · exact absurd hon h.off_path
  · exact .inl ⟨j, r, rfl, renumber_append _ _ _ _⟩
  · exact .inr ⟨hoff, hapart, renumber_of_apart _ hapart⟩

theorem ne_of_spares {p r : List Nat} {i j : Nat} (h : (remove p i).Spares (p ++ j :: r)) :
    i ≠ j := by
  intro heq
  exact h.2 (Node.child_prefix_iff.2 heq)

theorem carries_moved (h : e.Spares q) : e.Carries (e.moved q) := by
  rcases h.moved_cases with ⟨j, r, rfl, hmoved⟩ | ⟨hoff, hapart, hmoved⟩
  · rw [hmoved]
    have hoff : ¬ e.path ++ e.shift j :: r <+: e.path := Node.not_child_prefix_self _ _ _
    cases e with
    | setText p text => exact absurd (List.prefix_append _ _) h.2
    | insert p i c =>
      refine ⟨hoff, fun hnew => ?_⟩
      have heq := Node.child_prefix_iff.1 hnew
      simp only [shift] at heq
      split_ifs at heq <;> omega
    | remove p i => exact hoff
  · rw [hmoved]
    cases e with
    | setText p text => exact ⟨hoff, hapart⟩
    | insert p i c => exact ⟨hoff, fun hnew => hapart ((List.prefix_append _ _).trans hnew)⟩
    | remove p i => exact hoff

theorem eq_of_shift_eq {j j' : Nat} {r r' : List Nat} (h : e.Spares (e.path ++ j :: r))
    (h' : e.Spares (e.path ++ j' :: r')) (heq : e.shift j = e.shift j') : j = j' := by
  cases e with
  | setText p text => exact heq
  | insert p i c =>
    simp only [shift] at heq
    split_ifs at heq <;> omega
  | remove p i =>
    have hne := ne_of_spares h
    have hne' := ne_of_spares h'
    simp only [shift] at heq
    split_ifs at heq <;> omega

/-- No two nodes are moved to one place. -/
theorem injOn_moved (e : TreeEdit) : Set.InjOn e.moved {q | e.Spares q} := by
  intro q hq q' hq' heq
  rcases hq.moved_cases with ⟨j, r, rfl, hmoved⟩ | ⟨-, hapart, hmoved⟩ <;>
    rcases hq'.moved_cases with ⟨j', r', rfl, hmoved'⟩ | ⟨-, hapart', hmoved'⟩ <;>
    rw [hmoved, hmoved'] at heq
  · obtain ⟨hshift, rfl⟩ := List.cons.inj (List.append_cancel_left heq)
    rw [eq_of_shift_eq hq hq' hshift]
  · exact absurd (heq ▸ List.prefix_append _ _) hapart'
  · exact absurd (heq ▸ List.prefix_append _ _) hapart
  · exact heq

/-- No node is new but for what the edit brings. -/
theorem surjOn_moved (e : TreeEdit) : Set.SurjOn e.moved {q | e.Spares q} {q | e.Carries q} := by
  intro q hq
  rcases Node.path_cases e.path q with hon | ⟨j, r, rfl⟩ | ⟨hoff, hapart⟩
  · cases e with
    | setText p text => exact absurd hon hq.1
    | insert p i c => exact absurd hon hq.1
    | remove p i => exact absurd hon hq
  · -- a child of the node that is edited was at the position that is shifted to its own
    have hoff (j₀ : Nat) : ¬ e.path ++ j₀ :: r <+: e.path := Node.not_child_prefix_self _ r j₀
    cases e with
    | setText p text => exact absurd (List.prefix_append _ _) hq.2
    | insert p i c =>
      have hne : i ≠ j := fun h => hq.2 (Node.child_prefix_iff.2 h)
      refine ⟨p ++ (if j < i then j else j - 1) :: r, hoff _, ?_⟩
      rw [moved, path, renumber_append]
      congr 2
      simp only [shift]
      split_ifs <;> omega
    | remove p i =>
      refine ⟨p ++ (if j < i then j else j + 1) :: r, ⟨hoff _, fun h => ?_⟩, ?_⟩
      · have heq := Node.child_prefix_iff.1 h
        split_ifs at heq <;> omega
      · rw [moved, path, renumber_append]
        congr 2
        simp only [shift]
        split_ifs <;> omega
  · refine ⟨q, ?_, renumber_of_apart _ hapart⟩
    cases e with
    | setText p text => exact hq
    | insert p i c => exact hoff
    | remove p i => exact ⟨hoff, fun h => hapart ((List.prefix_append _ _).trans h)⟩

/-- **The nodes that an edit spares are those that are there afterwards**, but for what it brings.
-/
theorem bijOn_moved (e : TreeEdit) : Set.BijOn e.moved {q | e.Spares q} {q | e.Carries q} :=
  ⟨fun _ hq => carries_moved hq, injOn_moved e, surjOn_moved e⟩

/-! ### One edit -/

theorem isSome_make? : (e.make? n).isSome ↔ e.Fits n := by
  rw [make?, Node.isSome_modifyAt?]
  cases e with
  | setText p text => simp [path, change?, Fits]
  | insert p i c =>
    simp only [path, change?, Fits, Option.isSome_iff_exists, Node.insertChild?_eq_some]
    constructor
    · rintro ⟨m, hm, _, l, cs, rfl, hi, -⟩
      exact ⟨l, cs, hm, hi⟩
    · rintro ⟨l, cs, hm, hi⟩
      exact ⟨_, hm, _, l, cs, rfl, hi, rfl⟩
  | remove p i =>
    simp only [path, change?, Fits, Option.isSome_iff_exists, Node.removeChild?_eq_some]
    constructor
    · rintro ⟨m, hm, _, l, cs, rfl, hi, -⟩
      exact ⟨l, cs, hm, hi⟩
    · rintro ⟨l, cs, hm, hi⟩
      exact ⟨_, hm, _, l, cs, rfl, hi, rfl⟩

theorem label_of_change? (h : e.change? m = some m') : m'.label = m.label := by
  cases e with
  | setText p text =>
    obtain rfl := Option.some.inj h
    rfl
  | insert p i c =>
    obtain ⟨l, cs, rfl, -, rfl⟩ := Node.insertChild?_eq_some.1 h
    rfl
  | remove p i =>
    obtain ⟨l, cs, rfl, -, rfl⟩ := Node.removeChild?_eq_some.1 h
    rfl

/-- **The children that an edit spares are found at their new positions.** -/
theorem at?_shift (h : e.change? m = some m') {j : Nat} {r : List Nat}
    (hj : e.Spares (e.path ++ j :: r)) : m'.at? (e.shift j :: r) = m.at? (j :: r) := by
  cases e with
  | setText p text => exact absurd (List.prefix_append _ _) hj.2
  | insert p i c =>
    obtain ⟨l, cs, rfl, -, rfl⟩ := Node.insertChild?_eq_some.1 h
    have hchild : (cs.insertIdx i c)[shift (insert p i c) j]? = cs[j]? := by
      rw [shift]
      split
      · next hlt => rw [List.getElem?_insertIdx_of_lt hlt]
      · next hge => rw [List.getElem?_insertIdx_of_gt (by omega), Nat.add_sub_cancel]
    rw [Node.at?_cons, Node.at?_cons, Node.children_branch, Node.children_branch, hchild]
  | remove p i =>
    obtain ⟨l, cs, rfl, -, rfl⟩ := Node.removeChild?_eq_some.1 h
    have hne := ne_of_spares hj
    have hchild : (cs.eraseIdx i)[shift (remove p i) j]? = cs[j]? := by
      rw [shift]
      split
      · next hlt => rw [List.getElem?_eraseIdx_of_lt hlt]
      · next hge =>
        rw [List.getElem?_eraseIdx_of_ge (by omega), Nat.sub_add_cancel (by omega)]
    rw [Node.at?_cons, Node.at?_cons, Node.children_branch, Node.children_branch, hchild]

/-- **Nodes that an edit spares stay as they are.** -/
theorem at?_moved (hchange : e.change? m = some m') (hex : Node.Exchanged m m' e.path n n')
    (hq : e.Spares q) : n'.at? (e.moved q) = n.at? q := by
  rcases hq.moved_cases with ⟨j, r, rfl, hmoved⟩ | ⟨hoff, hapart, hmoved⟩
  · rw [hmoved, hex.symm.at?_append, hex.at?_append, at?_shift hchange hq]
  · rw [hmoved, hex.at?_eq_of_apart hoff hapart]

/-- **The text around an edit stays as it is.** -/
theorem exists_text (hchange : e.change? m = some m') (hex : Node.Exchanged m m' e.path n n') :
    ∃ behind, n.text = n.textBefore e.site ++ e.oldText n ++ behind ∧
      n'.text = n.textBefore e.site ++ e.newText ++ behind := by
  cases e with
  | setText p text =>
    obtain rfl := Option.some.inj hchange
    have hat : n.at? p = some m := hex.at?_eq
    have hold : oldText (setText p text) n = m.text := by rw [oldText, hat, Option.elim_some]
    rw [hold]
    exact hex.exists_text
  | insert p i c =>
    obtain ⟨l, cs, rfl, hi, rfl⟩ := Node.insertChild?_eq_some.1 hchange
    refine hex.exists_text_at (Node.textAll (cs.drop i)) ?_ ?_
    · rw [Node.textBefore_singleton, Node.children_branch, Node.text_branch, oldText,
        String.append_empty, ← Node.textAll_append, List.take_append_drop]
    · rw [Node.textBefore_singleton, Node.children_branch, Node.text_branch, newText,
        Node.textAll_insertIdx c hi]
  | remove p i =>
    obtain ⟨l, cs, rfl, hi, rfl⟩ := Node.removeChild?_eq_some.1 hchange
    have hci : cs[i]? = some cs[i] := List.getElem?_eq_getElem hi
    have hat : n.at? (p ++ [i]) = some cs[i] := by
      rw [show n.at? (p ++ [i]) = _ from hex.at?_append [i], Node.at?_cons, Node.children_branch, hci]
      rfl
    refine hex.exists_text_at (Node.textAll (cs.drop (i + 1))) ?_ ?_
    · rw [Node.textBefore_singleton, Node.children_branch, Node.text_branch, oldText, hat,
        Option.elim_some, ← Node.textAll_eq_of_getElem? hci]
    · rw [Node.textBefore_singleton, Node.children_branch, Node.text_branch, newText,
        String.append_empty, List.eraseIdx_eq_take_drop_succ, Node.textAll_append]

/-- What an edit brings stands where it was made. -/
theorem leaves_of_change? (hchange : e.change? m = some m')
    (hex : Node.Exchanged m m' e.path n n') : e.Leaves n n' := by
  cases e with
  | setText p text =>
    obtain rfl := Option.some.inj hchange
    have hat : n.at? p = some m := hex.at?_eq
    rw [Leaves, hat]
    exact hex.symm.at?_eq
  | insert p i c =>
    obtain ⟨l, cs, rfl, hi, rfl⟩ := Node.insertChild?_eq_some.1 hchange
    have hat : n'.at? (p ++ [i]) = _ := hex.symm.at?_append [i]
    rw [Leaves, hat, Node.at?_cons, Node.children_branch, List.getElem?_insertIdx_self, if_pos hi]
    rfl
  | remove p i => trivial

/-- **An edit is local.** -/
theorem localChange_of_make? (h : e.make? n = some n') : e.LocalChange n n' := by
  obtain ⟨m, m', hchange, hex⟩ := Node.exchanged_of_modifyAt? h
  exact ⟨exists_text hchange hex, leaves_of_change? hchange hex,
    fun q hq => hex.label_at? (label_of_change? hchange) hq,
    fun q hq => at?_moved hchange hex hq, bijOn_moved e⟩

/-! ### Edits one after the other -/

/-- What edits of a tree do one after the other: each of them is local in the tree that those before
it have led to. -/
inductive LocalChanges : List TreeEdit → Node → Node → Prop where
  | done (n : Node) : LocalChanges [] n n
  | edit {e : TreeEdit} {es : List TreeEdit} {n m n' : Node} (first : e.LocalChange n m)
      (others : LocalChanges es m n') : LocalChanges (e :: es) n n'

/-- Whether a node is neither on the path of any edit nor inside what any of them edits. -/
def AllSpare : List TreeEdit → List Nat → Prop
  | [], _ => True
  | e :: es, q => e.Spares q ∧ AllSpare es (e.moved q)

/-- The path that a node has after edits. -/
def movedBy : List TreeEdit → List Nat → List Nat
  | [], q => q
  | e :: es, q => movedBy es (e.moved q)

instance : (es : List TreeEdit) → (q : List Nat) → Decidable (AllSpare es q)
  | [], _ => inferInstanceAs (Decidable True)
  | e :: es, q =>
    have := instDecidableAllSpare es (e.moved q)
    inferInstanceAs (Decidable (e.Spares q ∧ AllSpare es (e.moved q)))

variable {es : List TreeEdit}

theorem localChanges_of_makeAll? (h : makeAll? es n = some n') : LocalChanges es n n' := by
  induction es generalizing n with
  | nil =>
    obtain rfl := Option.some.inj h
    exact .done n
  | cons e es ih =>
    obtain ⟨m, hm, hrest⟩ := Option.bind_eq_some_iff.1 h
    exact .edit (localChange_of_make? hm) (ih hrest)

/-- **What all edits spare stays as it is.** -/
theorem LocalChanges.at?_movedBy (h : LocalChanges es n n') (hq : AllSpare es q) :
    n'.at? (movedBy es q) = n.at? q := by
  induction h generalizing q with
  | done n => rfl
  | edit first others ih => rw [movedBy, ih hq.2, first.kept _ hq.1]

theorem makeAll?_append (es fs : List TreeEdit) (n : Node) :
    makeAll? (es ++ fs) n = (makeAll? es n).bind (makeAll? fs) := by
  induction es generalizing n with
  | nil => rfl
  | cons e es ih =>
    rw [List.cons_append, makeAll?, makeAll?, Option.bind_assoc]
    congr 1
    funext m
    exact ih m

/-- A tree of the text `abcd`. -/
def sampleTree : Node :=
  .branch default [.comment "a" .nowhere,
    .branch default [.comment "b" .nowhere, .comment "c" .nowhere], .comment "d" .nowhere]

/-- Edits that lead to the text `xayd`. -/
def sampleEdits : List TreeEdit :=
  [.insert [] 0 (.comment "x" .nowhere), .setText [2, 1] "y", .remove [2] 0]

/-- The tree that they lead to. -/
def sampleEdited : Node :=
  .branch default [.comment "x" .nowhere, .comment "a" .nowhere,
    .branch default [.comment "y" .nowhere], .comment "d" .nowhere]

/-- **Edits are local, however many there are.** Each of them changes one segment of the text and
spares all nodes but those on its path and those inside what is edited. So a node that all of them
spare is in the end what it was, at the path that they move it to. And they can be gone on with by
every edit that fits the tree that they have led to. -/
theorem makeAll?_local (h : makeAll? es n = some n') :
    LocalChanges es n n' ∧ (∀ q, AllSpare es q → n'.at? (movedBy es q) = n.at? q) ∧
      ∀ e : TreeEdit, (makeAll? (es ++ [e]) n).isSome ↔ e.Fits n' := by
  have hlocal : LocalChanges es n n' := localChanges_of_makeAll? h
  refine ⟨hlocal, fun q hq => hlocal.at?_movedBy hq, fun e => ?_⟩
  rw [makeAll?_append, h, Option.bind_some, makeAll?, ← isSome_make?]
  cases e.make? n' <;> rfl

/-- A node in front of all others moves them on, the last of three nodes to the fourth place. Then a
text inside the second of them is set, and a node inside it taken out. -/
theorem makeAll?_local_sample :
    makeAll? sampleEdits sampleTree = some sampleEdited ∧ AllSpare sampleEdits [2] ∧
      LocalChanges sampleEdits sampleTree sampleEdited ∧ sampleEdited.at? [3] = sampleTree.at? [2] := by
  have hmade : makeAll? sampleEdits sampleTree = some sampleEdited := rfl
  have hspare : AllSpare sampleEdits [2] := by decide
  obtain ⟨hlocal, hkept, -⟩ := makeAll?_local hmade
  exact ⟨hmade, hspare, hlocal, hkept [2] hspare⟩

end TreeEdit

end DocBlocks
