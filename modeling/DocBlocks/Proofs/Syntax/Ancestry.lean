import DocBlocks.Proofs.Syntax.Ranges

/-!
# What stands above a node, and what stands in front of it

* `Node.occurrences` lists the nodes of a tree, each before its children, together with the nodes
  above it: `map_node_occurrences` says that they are the descendants in their order,
  `isChain_of_mem_occurrences` that the nodes above are the parent, the parent of that, and so on,
  and `exists_above_eq` that they end with what stands above the tree.
* `WellPlaced.pairwise_occurrences`: of two nodes of a placed tree, the first one stands above the
  second one or ends before it starts.
-/

namespace DocBlocks.Node

/-! ### Spans that fit together -/

/-- Whether spans below a node fit together: each is as long as the text, and children tile. -/
def WellPlaced (n : Node) : Prop :=
  ∀ d ∈ n.descendants, d.span.stop = d.span.start + byteLength d.text.toList ∧
    (d.isLeaf = false → Tile d.span.start d.span.stop d.children)

theorem WellPlaced.of_mem_descendants {n d : Node} (h : n.WellPlaced) (hd : d ∈ n.descendants) :
    d.WellPlaced :=
  fun e he => h e (mem_descendants_trans he hd)

theorem WellPlaced.of_mem_children {n c : Node} (h : n.WellPlaced) (hc : c ∈ n.children) :
    c.WellPlaced :=
  h.of_mem_descendants (mem_descendants_of_mem_children hc)

theorem WellPlaced.stop_eq {n : Node} (h : n.WellPlaced) :
    n.span.stop = n.span.start + byteLength n.text.toList :=
  (h n n.self_mem_descendants).1

theorem WellPlaced.tile {l : Label} {cs : List Node} (h : (branch l cs).WellPlaced) :
    Tile l.span.start l.span.stop cs :=
  (h _ (self_mem_descendants _)).2 rfl

theorem Lossless.wellPlaced {source : String} {root : Node} (h : root.Lossless source) :
    root.WellPlaced := by
  intro d hd
  obtain ⟨before, after, -, hspan⟩ := h.standsIn d hd
  exact ⟨by simp [hspan, byteLength_append], h.tile d hd⟩

theorem wellPlaced_of_parseSource {source : String} {root : Node}
    (h : parseSource source = .ok root) : root.WellPlaced := by
  obtain ⟨-, t, ht, rfl⟩ := parseWith_eq_ok.1 h
  exact (RangedTree.lossless_syntaxTree (wellNested_of_sourceRanges? ht)).wellPlaced

/-- Where the first of some neighbours starts: behind those in front of it. -/
theorem start_of_tile {start stop : Nat} {xs ys : List Node} {n : Node}
    (h : Tile start stop (xs ++ n :: ys)) (hxs : ∀ x ∈ xs, x.WellPlaced) :
    n.span.start = start + byteLength (textAll xs).toList := by
  induction xs generalizing start with
  | nil => simpa [byteLength] using h.1
  | cons x xs ih =>
    have hx := (hxs x List.mem_cons_self).stop_eq
    rw [ih h.2 fun y hy => hxs y (List.mem_cons_of_mem _ hy), hx, h.1]
    simp [byteLength_append, Nat.add_assoc]

theorem Tile.of_append {start stop : Nat} {xs ys : List Node} (h : Tile start stop (xs ++ ys)) :
    ∃ mid, Tile start mid xs := by
  induction xs generalizing start with
  | nil => exact ⟨start, rfl⟩
  | cons x xs ih =>
    obtain ⟨mid, hmid⟩ := ih h.2
    exact ⟨mid, h.1, hmid⟩

theorem WellPlaced.start_le_stop {n : Node} (h : n.WellPlaced) : n.span.start ≤ n.span.stop := by
  rw [h.stop_eq]
  exact Nat.le_add_right _ _

theorem WellPlaced.start_lt_stop {n : Node} (h : n.WellPlaced) (htext : n.text ≠ "") :
    n.span.start < n.span.stop := by
  obtain ⟨c, cs, hcons⟩ := List.exists_cons_of_ne_nil (mt String.toList_eq_nil_iff.1 htext)
  have hpos := c.utf8Size_pos
  rw [h.stop_eq, hcons, byteLength]
  omega

theorem Tile.bounds {start stop : Nat} {cs : List Node} (h : Tile start stop cs)
    (hcs : ∀ c ∈ cs, c.WellPlaced) :
    start ≤ stop ∧ ∀ c ∈ cs, start ≤ c.span.start ∧ c.span.stop ≤ stop := by
  induction cs generalizing start with
  | nil => exact ⟨Nat.le_of_eq h, by simp⟩
  | cons c cs ih =>
    obtain ⟨rfl, htail⟩ := h
    have hc := (hcs c List.mem_cons_self).start_le_stop
    obtain ⟨hle, hmem⟩ := ih htail fun d hd => hcs d (List.mem_cons_of_mem _ hd)
    refine ⟨hc.trans hle, fun d hd => ?_⟩
    rcases List.mem_cons.1 hd with rfl | hd
    · exact ⟨Nat.le_refl _, hle⟩
    · exact ⟨hc.trans (hmem d hd).1, (hmem d hd).2⟩

/-- What is below a node lies within its span. -/
theorem WellPlaced.bounds {n d : Node} (h : n.WellPlaced) (hd : d ∈ n.descendants) :
    n.span.start ≤ d.span.start ∧ d.span.stop ≤ n.span.stop := by
  induction n using treeInduction with
  | leaf l t =>
    obtain rfl := mem_descendants_leaf.1 hd
    exact ⟨Nat.le_refl _, Nat.le_refl _⟩
  | branch l cs ih =>
    rcases mem_descendants_branch.1 hd with rfl | ⟨c, hc, hd⟩
    · exact ⟨Nat.le_refl _, Nat.le_refl _⟩
    · have hin := ih c hc (h.of_mem_children hc) hd
      have hout := (h.tile.bounds fun c hc => h.of_mem_children hc).2 c hc
      exact ⟨hout.1.trans hin.1, hin.2.trans hout.2⟩

/-- What is below one of some neighbours ends before what is below a later one starts. -/
theorem Tile.stop_le_start {start stop : Nat} {c d a b : Node} {cs : List Node}
    (h : Tile start stop (c :: cs)) (hcs : ∀ c' ∈ c :: cs, c'.WellPlaced) (hd : d ∈ cs)
    (ha : a ∈ c.descendants) (hb : b ∈ d.descendants) : a.span.stop ≤ b.span.start := by
  have hcs' : ∀ c' ∈ cs, c'.WellPlaced := fun c' hc' => hcs c' (List.mem_cons_of_mem _ hc')
  calc a.span.stop ≤ c.span.stop := ((hcs c List.mem_cons_self).bounds ha).2
    _ ≤ d.span.start := ((h.2.bounds hcs').2 d hd).1
    _ ≤ b.span.start := ((hcs' d hd).bounds hb).1

theorem pairwise_start_descendantsAll {start stop : Nat} {cs : List Node} (h : Tile start stop cs)
    (hcs : ∀ c ∈ cs, c.WellPlaced)
    (hchild : ∀ c ∈ cs, c.descendants.Pairwise fun a b => a.span.start ≤ b.span.start) :
    (descendantsAll cs).Pairwise fun a b => a.span.start ≤ b.span.start := by
  induction cs generalizing start with
  | nil => exact .nil
  | cons c cs ih =>
    refine List.pairwise_append.2 ⟨hchild c List.mem_cons_self,
      ih h.2 (fun d hd => hcs d (List.mem_cons_of_mem _ hd))
        fun d hd => hchild d (List.mem_cons_of_mem _ hd), fun a ha b hb => ?_⟩
    obtain ⟨d, hd, hb⟩ := mem_descendantsAll.1 hb
    have hle := ((hcs c List.mem_cons_self).of_mem_descendants ha).start_le_stop
    exact hle.trans (h.stop_le_start hcs hd ha hb)

/-- **Each node before its children is the order of start offsets.** -/
theorem WellPlaced.pairwise_start_descendants {n : Node} (h : n.WellPlaced) :
    n.descendants.Pairwise fun a b => a.span.start ≤ b.span.start := by
  induction n using treeInduction with
  | leaf l t =>
    rw [descendants_leaf]
    exact List.pairwise_singleton _ _
  | branch l cs ih =>
    rw [descendants_branch]
    refine .cons (fun d hd => ?_) ?_
    · exact (h.bounds (mem_descendants_branch.2 (.inr (mem_descendantsAll.1 hd)))).1
    · exact pairwise_start_descendantsAll h.tile (fun c hc => h.of_mem_children hc)
        fun c hc => ih c hc (h.of_mem_children hc)

/-- The first node of a category that a search meets starts before all others of the category. -/
theorem WellPlaced.start_le_of_findFirst? {root d e : Node} {kind : Kind} (h : root.WellPlaced)
    (hd : root.findFirst? kind = some d) (he : e ∈ root.descendants) (hkind : e.kind = kind) :
    d.span.start ≤ e.span.start := by
  have hstarts := h.pairwise_start_descendants
  obtain ⟨-, before, after, hsplit, hnone⟩ := List.find?_eq_some_iff_append.1 hd
  rw [hsplit] at hstarts he
  obtain ⟨-, hfrom, -⟩ := List.pairwise_append.1 hstarts
  rcases List.mem_append.1 he with he | he
  · -- no node in front of the first one is of the category
    exact absurd hkind (by simpa using hnone e he)
  · rcases List.mem_cons.1 he with rfl | he
    · exact Nat.le_refl _
    · exact (List.pairwise_cons.1 hfrom).1 e he

/-! ### Nodes and what stands above them -/

/-- A node where it stands: with the nodes above it, nearest first. -/
structure Occurrence where
  above : List Node
  node : Node

mutual

/-- A node and everything below it, each node before its children, given what stands above the
node. -/
def occurrences (above : List Node) : Node → List Occurrence
  | leaf l t => [⟨above, leaf l t⟩]
  | branch l cs => ⟨above, branch l cs⟩ :: occurrencesAll (branch l cs :: above) cs

/-- Neighbouring nodes and everything below them, given what stands above them. -/
def occurrencesAll (above : List Node) : List Node → List Occurrence
  | [] => []
  | n :: ns => n.occurrences above ++ occurrencesAll above ns

end

theorem mem_occurrencesAll {above : List Node} {x : Occurrence} {cs : List Node} :
    x ∈ occurrencesAll above cs ↔ ∃ c ∈ cs, x ∈ c.occurrences above := by
  induction cs with
  | nil => simp [occurrencesAll]
  | cons c cs ih => simp [occurrencesAll, ih]

mutual

/-- **The occurrences in a tree are its descendants**, each once and in their order. -/
theorem map_node_occurrences (above : List Node) (n : Node) :
    (n.occurrences above).map (·.node) = n.descendants := by
  cases n with
  | leaf l t => simp [occurrences, descendants_leaf]
  | branch l cs =>
    simp [occurrences, descendants_branch, map_node_occurrencesAll (branch l cs :: above) cs]

theorem map_node_occurrencesAll (above : List Node) (cs : List Node) :
    (occurrencesAll above cs).map (·.node) = descendantsAll cs := by
  cases cs with
  | nil => rfl
  | cons c cs =>
    simp [occurrencesAll, descendantsAll, map_node_occurrences above c,
      map_node_occurrencesAll above cs]

end

theorem node_mem_descendants {above : List Node} {x : Occurrence} {n : Node}
    (h : x ∈ n.occurrences above) : x.node ∈ n.descendants := by
  rw [← map_node_occurrences above]
  exact List.mem_map_of_mem h

/-- **What stands above a node of a tree**: first what is in the tree, and the node is below that,
and then what stands above the tree. -/
theorem exists_above_eq {above : List Node} {x : Occurrence} {n : Node}
    (h : x ∈ n.occurrences above) : ∃ within, x.above = within ++ above ∧
      ∀ a ∈ within, a ∈ n.descendants ∧ x.node ∈ descendantsAll a.children := by
  induction n using treeInduction generalizing above with
  | leaf l t =>
    obtain rfl := List.mem_singleton.1 h
    exact ⟨[], rfl, by simp⟩
  | branch l cs ih =>
    rcases List.mem_cons.1 h with rfl | h
    · exact ⟨[], rfl, by simp⟩
    · obtain ⟨c, hc, hx⟩ := mem_occurrencesAll.1 h
      obtain ⟨within, habove, hwithin⟩ := ih c hc hx
      refine ⟨within ++ [branch l cs], by simp [habove], fun a ha => ?_⟩
      rcases List.mem_append.1 ha with ha | ha
      · obtain ⟨hmem, hbelow⟩ := hwithin a ha
        exact ⟨mem_descendants_branch.2 (.inr ⟨c, hc, hmem⟩), hbelow⟩
      · obtain rfl := List.mem_singleton.1 ha
        exact ⟨self_mem_descendants _, mem_descendantsAll.2 ⟨c, hc, node_mem_descendants hx⟩⟩

/-- What stands above a node of a whole tree is in the tree. -/
theorem mem_descendants_of_mem_above {x : Occurrence} {n a : Node} (h : x ∈ n.occurrences [])
    (ha : a ∈ x.above) : a ∈ n.descendants ∧ x.node ∈ descendantsAll a.children := by
  obtain ⟨within, habove, hwithin⟩ := exists_above_eq h
  rw [habove, List.append_nil] at ha
  exact hwithin a ha

/-- **What stands above a node is its parent, the parent of that, and so on.** -/
theorem isChain_of_mem_occurrences {above : List Node} {x : Occurrence} {n : Node}
    (h : x ∈ n.occurrences above) (habove : (n :: above).IsChain fun a b => a ∈ b.children) :
    (x.node :: x.above).IsChain fun a b => a ∈ b.children := by
  induction n using treeInduction generalizing above with
  | leaf l t =>
    obtain rfl := List.mem_singleton.1 h
    exact habove
  | branch l cs ih =>
    rcases List.mem_cons.1 h with rfl | h
    · exact habove
    · obtain ⟨c, hc, hx⟩ := mem_occurrencesAll.1 h
      exact ih c hc hx (List.isChain_cons_cons.2 ⟨hc, habove⟩)

theorem above_isSuffix_of_mem_occurrences {above : List Node} {x : Occurrence} {n : Node}
    (h : x ∈ n.occurrences above) : above <:+ x.above := by
  obtain ⟨within, habove, -⟩ := exists_above_eq h
  exact ⟨within, habove.symm⟩

theorem pairwise_occurrencesAll {start stop : Nat} {above cs : List Node}
    (h : Tile start stop cs) (hcs : ∀ c ∈ cs, c.WellPlaced)
    (hchild : ∀ c ∈ cs, (c.occurrences above).Pairwise fun x y =>
      x.node ∈ y.above ∨ x.node.span.stop ≤ y.node.span.start) :
    (occurrencesAll above cs).Pairwise fun x y =>
      x.node ∈ y.above ∨ x.node.span.stop ≤ y.node.span.start := by
  induction cs generalizing start with
  | nil => exact .nil
  | cons c cs ih =>
    refine List.pairwise_append.2 ⟨hchild c List.mem_cons_self,
      ih h.2 (fun d hd => hcs d (List.mem_cons_of_mem _ hd))
        fun d hd => hchild d (List.mem_cons_of_mem _ hd), fun x hx y hy => .inr ?_⟩
    obtain ⟨d, hd, hy⟩ := mem_occurrencesAll.1 hy
    exact h.stop_le_start hcs hd (node_mem_descendants hx) (node_mem_descendants hy)

/-- **Of two nodes of a placed tree, the first one stands above the second one or ends before it
starts.** -/
theorem WellPlaced.pairwise_occurrences {above : List Node} {n : Node} (h : n.WellPlaced) :
    (n.occurrences above).Pairwise fun x y =>
      x.node ∈ y.above ∨ x.node.span.stop ≤ y.node.span.start := by
  induction n using treeInduction generalizing above with
  | leaf l t => exact List.pairwise_singleton _ _
  | branch l cs ih =>
    refine .cons (fun y hy => .inl ?_) ?_
    · obtain ⟨c, -, hy⟩ := mem_occurrencesAll.1 hy
      exact (above_isSuffix_of_mem_occurrences hy).subset List.mem_cons_self
    · exact pairwise_occurrencesAll h.tile (fun c hc => h.of_mem_children hc)
        fun c hc => ih c hc (h.of_mem_children hc)

end DocBlocks.Node
