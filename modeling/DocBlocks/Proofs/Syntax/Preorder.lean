import DocBlocks.Proofs.Syntax.Node

/-!
# The order of a walk

`inPreorder_descendants`: a walk from a node visits the nodes at all paths below it, each once, in
the order of the paths. A path comes before the paths that it begins, so a node comes before its
children, and the path to a child before the paths to later children and to all that is below them.

The walk itself keeps a stack and never sees a path. What carries the statement is that a step puts
the children of a node in its place on the stack (`Walk.toList_append`), so what is visited is given
by recursion on the tree (`descendants_eq`), and so are the paths (`positioned`).
-/

namespace DocBlocks.Node

/-! ### Positions -/

mutual

/-- A node and everything below it with the paths that lead there, each node before its children. -/
def positioned : Node → List (List Nat × Node)
  | leaf l t => [([], leaf l t)]
  | branch l cs => ([], branch l cs) :: positionedFrom 0 cs

/-- Neighbours and everything below them with the paths that lead there from the parent, given the
position of the first neighbour. -/
def positionedFrom (i : Nat) : List Node → List (List Nat × Node)
  | [] => []
  | c :: cs => c.positioned.map (fun x => (i :: x.1, x.2)) ++ positionedFrom (i + 1) cs

end

theorem mem_positionedFrom {i : Nat} {cs : List Node} {x : List Nat × Node} :
    x ∈ positionedFrom i cs ↔
      ∃ j c y, cs[j]? = some c ∧ y ∈ c.positioned ∧ x = ((i + j) :: y.1, y.2) := by
  induction cs generalizing i with
  | nil => simp [positionedFrom]
  | cons c cs ih =>
    rw [positionedFrom, List.mem_append, List.mem_map, ih]
    constructor
    · rintro (⟨y, hy, rfl⟩ | ⟨j, d, y, hd, hy, rfl⟩)
      · exact ⟨0, c, y, rfl, hy, rfl⟩
      · exact ⟨j + 1, d, y, hd, hy, by rw [Nat.add_right_comm, Nat.add_assoc]⟩
    · rintro ⟨_ | j, d, y, hd, hy, rfl⟩
      · obtain rfl : c = d := Option.some.inj hd
        exact .inl ⟨y, hy, rfl⟩
      · exact .inr ⟨j, d, y, hd, hy, by rw [Nat.add_right_comm, Nat.add_assoc]⟩

/-- **The positions of a tree are its paths**, each with the node that it leads to. -/
theorem mem_positioned {n d : Node} {p : List Nat} : (p, d) ∈ n.positioned ↔ n.at? p = some d := by
  induction n using treeInduction generalizing p with
  | leaf l t =>
    cases p with
    | nil => simp [positioned, at?, eq_comm]
    | cons i p => simp [positioned, at?]
  | branch l cs ih =>
    cases p with
    | nil => simp [positioned, at?, mem_positionedFrom, eq_comm]
    | cons i p =>
      simp only [positioned, List.mem_cons, Prod.mk.injEq, reduceCtorEq, false_and, false_or,
        mem_positionedFrom, Nat.zero_add, List.cons.injEq, at?, children_branch,
        Option.bind_eq_some_iff]
      constructor
      · rintro ⟨_, c, ⟨_, _⟩, hc, hy, ⟨rfl, rfl⟩, rfl⟩
        exact ⟨c, hc, (ih c (List.mem_of_getElem? hc)).1 hy⟩
      · rintro ⟨c, hc, hd⟩
        exact ⟨i, c, (p, d), hc, (ih c (List.mem_of_getElem? hc)).2 hd, ⟨rfl, rfl⟩, rfl⟩

mutual

/-- The nodes at the positions are those that a walk visits. -/
theorem map_snd_positioned (n : Node) : n.positioned.map Prod.snd = n.descendants := by
  cases n with
  | leaf l t => rw [positioned, descendants_leaf, List.map_singleton]
  | branch l cs =>
    rw [positioned, descendants_branch, List.map_cons, map_snd_positionedFrom 0 cs]

theorem map_snd_positionedFrom (i : Nat) (cs : List Node) :
    (positionedFrom i cs).map Prod.snd = descendantsAll cs := by
  cases cs with
  | nil => rfl
  | cons c cs =>
    rw [positionedFrom, descendantsAll, List.map_append, List.map_map,
      map_snd_positionedFrom (i + 1) cs, ← map_snd_positioned c]
    rfl

end

theorem pairwise_positionedFrom {i : Nat} {cs : List Node}
    (h : ∀ c ∈ cs, c.positioned.Pairwise fun x y => x.1 < y.1) :
    (positionedFrom i cs).Pairwise fun x y => x.1 < y.1 := by
  induction cs generalizing i with
  | nil => exact .nil
  | cons c cs ih =>
    rw [positionedFrom, List.pairwise_append, List.pairwise_map]
    -- the paths below a neighbour begin with its position, and later ones have later positions
    refine ⟨?_, ih fun d hd => h d (List.mem_cons_of_mem _ hd), ?_⟩
    · refine (h c List.mem_cons_self).imp fun {x y} hxy => ?_
      exact List.cons_lt_cons_iff.2 (.inr ⟨rfl, hxy⟩)
    · intro x hx y hy
      obtain ⟨x, -, rfl⟩ := List.mem_map.1 hx
      obtain ⟨j, d, y, -, -, rfl⟩ := mem_positionedFrom.1 hy
      exact List.cons_lt_cons_iff.2 (.inl (by omega))

/-- Positions come in the order of their paths. -/
theorem pairwise_positioned (n : Node) : n.positioned.Pairwise fun x y => x.1 < y.1 := by
  induction n using treeInduction with
  | leaf l t => exact List.pairwise_singleton _ _
  | branch l cs ih =>
    rw [positioned]
    refine .cons (fun x hx => ?_) (pairwise_positionedFrom ih)
    obtain ⟨j, c, y, -, -, rfl⟩ := mem_positionedFrom.1 hx
    exact List.nil_lt_cons _ _

/-! ### Walks -/

/-- Whether nodes are those of a tree in pre-order: at each path below the root there is one of
them, and the paths are in their order. -/
def InPreorder (root : Node) (ns : List Node) : Prop :=
  ∃ positions : List (List Nat × Node), positions.map Prod.snd = ns ∧
    (∀ p d, (p, d) ∈ positions ↔ root.at? p = some d) ∧
    positions.Pairwise fun x y => x.1 < y.1

/-- **A walk is in pre-order.** -/
theorem inPreorder_descendants (n : Node) : n.InPreorder n.descendants :=
  ⟨n.positioned, map_snd_positioned n, fun _ _ => mem_positioned, pairwise_positioned n⟩

theorem toList_textAll {cs : List Node}
    (h : ∀ c ∈ cs, c.text.toList = (c.descendants.filterMap leafText?).flatMap String.toList) :
    (textAll cs).toList = ((descendantsAll cs).filterMap leafText?).flatMap String.toList := by
  induction cs with
  | nil => simp [descendantsAll]
  | cons c cs ih =>
    rw [textAll_cons, String.toList_append, h c List.mem_cons_self,
      ih fun d hd => h d (List.mem_cons_of_mem _ hd), descendantsAll, List.filterMap_append,
      List.flatMap_append]

/-- **The leaves that a walk visits make up the text.** -/
theorem join_leafTexts (n : Node) : String.join (n.descendants.filterMap leafText?) = n.text := by
  rw [← String.toList_inj, String.toList_join]
  induction n using treeInduction with
  | leaf l t => simp [descendants_leaf, leafText?]
  | branch l cs ih =>
    rw [descendants_branch, List.filterMap_cons_none rfl, text_branch]
    exact (toList_textAll fun c hc => (ih c hc).symm).symm

end DocBlocks.Node
