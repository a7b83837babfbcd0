import DocBlocks.Proofs.Syntax.Node
import Mathlib.Data.List.Infix

/-!
# Nodes exchanged in a tree

What is common to all changes of a tree is that some node on a path is exchanged for another one,
and `Node.Exchanged` says so along the path: at each step the children before and behind the one
that the path leads through are those of before. Text, labels and nodes off the path are then one
induction on it each. A change at a path is such an exchange (`Node.exchanged_of_modifyAt?`), and
all that is left to see of it is what it does to the node that it is made on.
-/

namespace DocBlocks

namespace Node

/-! ### Paths -/

theorem at?_nil (n : Node) : n.at? [] = some n := rfl

theorem at?_cons (n : Node) (i : Nat) (path : List Nat) :
    n.at? (i :: path) = (n.children[i]?).bind fun c => c.at? path := rfl

/-- The text of a tree in front of where a path leads. -/
def textBefore (n : Node) : List Nat → String
  | [] => ""
  | i :: path => textAll (n.children.take i) ++ (n.children[i]?).elim "" fun c => c.textBefore path

theorem textBefore_append {n m : Node} {path : List Nat} (h : n.at? path = some m)
    (path' : List Nat) : n.textBefore (path ++ path') = n.textBefore path ++ m.textBefore path' := by
  induction path generalizing n with
  | nil =>
    obtain rfl : n = m := Option.some.inj h
    exact String.empty_append.symm
  | cons i path ih =>
    rw [at?_cons, Option.bind_eq_some_iff] at h
    obtain ⟨c, hc, hm⟩ := h
    rw [List.cons_append, textBefore, textBefore, hc, Option.elim_some, Option.elim_some, ih hm,
      String.append_assoc]

/-- Two paths: one leads to or above the other's node, or to something below it, or they part. -/
theorem path_cases (path q : List Nat) :
    q <+: path ∨ (∃ j r, q = path ++ j :: r) ∨ ¬ q <+: path ∧ ¬ path <+: q := by
  by_cases hq : q <+: path
  · exact .inl hq
  by_cases hp : path <+: q
  · obtain ⟨r, rfl⟩ := hp
    cases r with
    | nil => exact absurd (by simp) hq
    | cons j r => exact .inr (.inl ⟨j, r, rfl⟩)
  · exact .inr (.inr ⟨hq, hp⟩)

theorem child_prefix_iff {path r : List Nat} {i j : Nat} :
    path ++ [i] <+: path ++ j :: r ↔ i = j := by
  rw [List.prefix_append_right_inj, List.cons_prefix_cons]
  simp

theorem not_child_prefix_self (path r : List Nat) (j : Nat) : ¬ path ++ j :: r <+: path := by
  intro h
  have hle := h.length_le
  rw [List.length_append, List.length_cons] at hle
  omega

/-! ### Exchanging a node -/

/-- Two trees that differ in what stands at a path: one node there, and another one here. -/
inductive Exchanged (m m' : Node) : List Nat → Node → Node → Prop where
  | here : Exchanged m m' [] m m'
  | inside {l : Label} {xs ys : List Node} {c c' : Node} {path : List Nat}
      (exchanged : Exchanged m m' path c c') :
      Exchanged m m' (xs.length :: path) (branch l (xs ++ c :: ys)) (branch l (xs ++ c' :: ys))

/-- **A change at a path exchanges the node there for what it is changed to.** -/
theorem exchanged_of_modifyAt? {change : Node → Option Node} {path : List Nat} {n n' : Node}
    (h : n.modifyAt? change path = some n') :
    ∃ m m', change m = some m' ∧ Exchanged m m' path n n' := by
  induction path generalizing n n' with
  | nil => exact ⟨n, n', h, .here⟩
  | cons i path ih =>
    cases n with
    | leaf l t => simp [modifyAt?] at h
    | branch l cs =>
      simp only [modifyAt?, Option.bind_eq_bind, Option.bind_eq_some_iff, Option.pure_def,
        Option.some.injEq] at h
      obtain ⟨c, hc, c', hc', rfl⟩ := h
      obtain ⟨m, m', hchange, hex⟩ := ih hc'
      obtain ⟨xs, ys, rfl, rfl, hset⟩ :
          ∃ xs ys, cs = xs ++ c :: ys ∧ xs.length = i ∧ cs.set i c' = xs ++ c' :: ys := by
        obtain ⟨hi, rfl⟩ := List.getElem?_eq_some_iff.1 hc
        exact List.exists_of_set hi
      rw [hset]
      exact ⟨m, m', hchange, .inside hex⟩

/-- A change at a path can be made exactly if it can be made on the node there. -/
theorem isSome_modifyAt? {change : Node → Option Node} {path : List Nat} {n : Node} :
    (n.modifyAt? change path).isSome ↔ ∃ m, n.at? path = some m ∧ (change m).isSome := by
  induction path generalizing n with
  | nil => simp [modifyAt?, at?]
  | cons i path ih =>
    cases n with
    | leaf l t => simp [modifyAt?, at?]
    | branch l cs =>
      simp only [modifyAt?, at?_cons, children_branch]
      cases cs[i]? with
      | none => simp
      | some c =>
        have hc := ih (n := c)
        cases hmod : modifyAt? change path c <;> simp_all

namespace Exchanged

variable {m m' n n' : Node} {path : List Nat}

theorem symm (h : Exchanged m m' path n n') : Exchanged m' m path n' n := by
  induction h with
  | here => exact .here
  | inside _ ih => exact .inside ih

/-- Behind the path there is what there is below the node. -/
theorem at?_append (h : Exchanged m m' path n n') (r : List Nat) :
    n.at? (path ++ r) = m.at? r := by
  induction h with
  | here => rfl
  | @inside l xs ys c c' path h ih =>
    have hc : (xs ++ c :: ys)[xs.length]? = some c := by simp
    rw [List.cons_append, at?_cons, children_branch, hc, Option.bind_some, ih]

theorem at?_eq (h : Exchanged m m' path n n') : n.at? path = some m := by
  have happend := h.at?_append []
  rwa [List.append_nil] at happend

/-- **Nodes off the path stay as they are.** -/
theorem at?_eq_of_apart (h : Exchanged m m' path n n') {q : List Nat} (hq : ¬ q <+: path)
    (hpath : ¬ path <+: q) : n'.at? q = n.at? q := by
  induction h generalizing q with
  | here => exact absurd List.nil_prefix hpath
  | @inside l xs ys c c' path h ih =>
    cases q with
    | nil => exact absurd List.nil_prefix hq
    | cons j q =>
      rw [at?_cons, at?_cons, children_branch, children_branch]
      by_cases hj : j = xs.length
      · subst hj
        have hc : (xs ++ c :: ys)[xs.length]? = some c := by simp
        have hc' : (xs ++ c' :: ys)[xs.length]? = some c' := by simp
        rw [hc, hc']
        refine ih (fun hp => hq ?_) (fun hp => hpath ?_)
        · exact List.cons_prefix_cons.2 ⟨rfl, hp⟩
        · exact List.cons_prefix_cons.2 ⟨rfl, hp⟩
      · -- the other children are the same ones
        have hsame : (xs ++ c' :: ys)[j]? = (xs ++ c :: ys)[j]? := by
          rcases Nat.lt_or_gt_of_ne hj with hlt | hgt
          · rw [List.getElem?_append_left hlt, List.getElem?_append_left hlt]
          · obtain ⟨k, rfl⟩ : ∃ k, j = xs.length + (k + 1) := ⟨j - xs.length - 1, by omega⟩
            have hdrop : xs.length + (k + 1) - xs.length = k + 1 := by omega
            rw [List.getElem?_append_right (by omega), List.getElem?_append_right (by omega), hdrop,
              List.getElem?_cons_succ, List.getElem?_cons_succ]
        rw [hsame]

/-- **Nodes on the path keep their labels**, if the node at its end keeps its own. -/
theorem label_at? (h : Exchanged m m' path n n') (hlabel : m'.label = m.label) {q : List Nat}
    (hq : q <+: path) : (n'.at? q).map label = (n.at? q).map label := by
  induction h generalizing q with
  | here =>
    obtain rfl : q = [] := List.prefix_nil.1 hq
    simp [at?_nil, hlabel]
  | @inside l xs ys c c' path h ih =>
    cases q with
    | nil => rfl
    | cons j q =>
      obtain ⟨rfl, hq'⟩ := List.cons_prefix_cons.1 hq
      have hc : (xs ++ c :: ys)[xs.length]? = some c := by simp
      have hc' : (xs ++ c' :: ys)[xs.length]? = some c' := by simp
      rw [at?_cons, at?_cons, children_branch, children_branch, hc, hc']
      exact ih hq'

/-- **The text around the node stays as it is.** -/
theorem exists_text (h : Exchanged m m' path n n') :
    ∃ behind, n.text = n.textBefore path ++ m.text ++ behind ∧
      n'.text = n.textBefore path ++ m'.text ++ behind := by
  induction h with
  | here => exact ⟨"", by simp [textBefore], by simp [textBefore]⟩
  | @inside l xs ys c c' path h ih =>
    obtain ⟨behind, htext, htext'⟩ := ih
    have hbefore : (branch l (xs ++ c :: ys)).textBefore (xs.length :: path) =
        textAll xs ++ c.textBefore path := by
      simp [textBefore]
    refine ⟨behind ++ textAll ys, ?_, ?_⟩
    · rw [hbefore, text_branch, textAll_append, textAll_cons, htext]
      simp only [String.append_assoc]
    · rw [hbefore, text_branch, textAll_append, textAll_cons, htext']
      simp only [String.append_assoc]

/-- The text around a part of the node stays as it is, too. -/
theorem exists_text_at (h : Exchanged m m' path n n') {step : List Nat} {old new : String}
    (back : String) (hold : m.text = m.textBefore step ++ old ++ back)
    (hnew : m'.text = m.textBefore step ++ new ++ back) :
    ∃ behind, n.text = n.textBefore (path ++ step) ++ old ++ behind ∧
      n'.text = n.textBefore (path ++ step) ++ new ++ behind := by
  obtain ⟨behind, htext, htext'⟩ := h.exists_text
  refine ⟨back ++ behind, ?_, ?_⟩
  · rw [textBefore_append h.at?_eq, htext, hold]
    simp only [String.append_assoc]
  · rw [textBefore_append h.at?_eq, htext', hnew]
    simp only [String.append_assoc]

end Exchanged

end Node

end DocBlocks
