import DocBlocks.Proofs.Source.Excerpt
import DocBlocks.Proofs.Syntax.Node

/-!
# Placing a tree in its source

The span of a node follows from the offset of its first byte and the length of its text, so a tree
that is told by its texts is placed by one walk from left to right.
-/

namespace DocBlocks.Node

mutual

/-- Gives every node of a tree the span it has if the first byte has the given offset. -/
def place (index : LineIndex) (offset : Nat) : Node → Node
  | leaf l t => leaf { l with span := index.span offset (offset + t.utf8ByteSize) } t
  | branch l cs =>
    branch { l with span := index.span offset (offset + (textAll cs).utf8ByteSize) }
      (placeAll index offset cs)

/-- Places neighbouring nodes one behind the other. -/
def placeAll (index : LineIndex) (offset : Nat) : List Node → List Node
  | [] => []
  | n :: ns => n.place index offset :: placeAll index (offset + n.text.utf8ByteSize) ns

end

mutual

/-- **Placing a node leaves its text alone.** -/
theorem text_place (index : LineIndex) (offset : Nat) (n : Node) :
    (n.place index offset).text = n.text := by
  cases n with
  | leaf l t => simp [place, text]
  | branch l cs => simp [place, text, textAll_placeAll index offset cs]

/-- Placing neighbouring nodes leaves their text alone. -/
theorem textAll_placeAll (index : LineIndex) (offset : Nat) (ns : List Node) :
    textAll (placeAll index offset ns) = textAll ns := by
  cases ns with
  | nil => rfl
  | cons n ns =>
    simp [placeAll, textAll, text_place index offset n,
      textAll_placeAll index (offset + n.text.utf8ByteSize) ns]

end

/-- A tree with the spans it has if it is the tree of a source. -/
def placeIn (source : String) (root : Node) : Node :=
  root.place (LineIndex.ofText source) 0

/-! ### Placed nodes -/

@[simp]
theorem kind_place (index : LineIndex) (offset : Nat) (n : Node) :
    (n.place index offset).kind = n.kind := by
  cases n <;> rfl

@[simp]
theorem field_place (index : LineIndex) (offset : Nat) (n : Node) :
    (n.place index offset).field = n.field := by
  cases n <;> rfl

@[simp]
theorem isLeaf_place (index : LineIndex) (offset : Nat) (n : Node) :
    (n.place index offset).isLeaf = n.isLeaf := by
  cases n <;> rfl

theorem children_place (index : LineIndex) (offset : Nat) (n : Node) :
    (n.place index offset).children = placeAll index offset n.children := by
  cases n <;> rfl

theorem span_place (index : LineIndex) (offset : Nat) (n : Node) :
    (n.place index offset).span = index.span offset (offset + byteLength n.text.toList) := by
  rw [← utf8ByteSize_eq_byteLength]
  cases n <;> simp [place]

theorem map_kind_placeAll (index : LineIndex) (offset : Nat) (ns : List Node) :
    (placeAll index offset ns).map kind = ns.map kind := by
  induction ns generalizing offset with
  | nil => rfl
  | cons n ns ih => simp [placeAll, ih]

/-- **Where a neighbour gets to**: behind the text of those in front of it. -/
theorem exists_place_of_mem_placeAll {index : LineIndex} {offset : Nat} {ns : List Node} {d : Node}
    (h : d ∈ placeAll index offset ns) :
    ∃ xs n ys, ns = xs ++ n :: ys ∧
      d = n.place index (offset + byteLength (textAll xs).toList) := by
  induction ns generalizing offset with
  | nil => simp [placeAll] at h
  | cons n ns ih =>
    rcases List.mem_cons.1 h with rfl | h
    · exact ⟨[], n, ns, rfl, by simp [byteLength]⟩
    · obtain ⟨xs, m, ys, rfl, rfl⟩ := ih h
      refine ⟨n :: xs, m, ys, rfl, ?_⟩
      simp [byteLength_append, utf8ByteSize_eq_byteLength, Nat.add_assoc]

/-- Where neighbours get to when one of them is singled out. -/
theorem exists_split_of_placeAll {index : LineIndex} {offset : Nat} {ns xs ys : List Node} {m : Node}
    (h : placeAll index offset ns = xs ++ m :: ys) :
    ∃ xs' m' ys', ns = xs' ++ m' :: ys' ∧ xs = placeAll index offset xs' ∧
      m = m'.place index (offset + byteLength (textAll xs').toList) := by
  induction xs generalizing offset ns with
  | nil =>
    cases ns with
    | nil => simp [placeAll] at h
    | cons n ns =>
      obtain ⟨rfl, -⟩ := List.cons.inj h
      exact ⟨[], n, ns, rfl, rfl, by simp [byteLength]⟩
  | cons x xs ih =>
    cases ns with
    | nil => simp [placeAll] at h
    | cons n ns =>
      obtain ⟨rfl, hrest⟩ := List.cons.inj h
      obtain ⟨xs', m', ys', rfl, rfl, rfl⟩ := ih hrest
      refine ⟨n :: xs', m', ys', rfl, rfl, ?_⟩
      simp [byteLength_append, utf8ByteSize_eq_byteLength, Nat.add_assoc]

/-- **Where a node below the root gets to**: behind the text in front of it. -/
theorem exists_place_of_mem_descendants {index : LineIndex} {offset : Nat} {n d : Node}
    (h : d ∈ (n.place index offset).descendants) :
    ∃ m ∈ n.descendants, ∃ front back, n.text.toList = front ++ m.text.toList ++ back ∧
      d = m.place index (offset + byteLength front) := by
  induction n using treeInduction generalizing offset with
  | leaf l t =>
    obtain rfl := mem_descendants_leaf.1 h
    exact ⟨.leaf l t, by simp, [], [], by simp, rfl⟩
  | branch l cs ih =>
    rcases mem_descendants_branch.1 h with rfl | ⟨c', hc', hd⟩
    · exact ⟨.branch l cs, self_mem_descendants _, [], [], by simp, rfl⟩
    · -- in front of the node are its elder siblings' texts, on every level
      obtain ⟨xs, c, ys, rfl, rfl⟩ := exists_place_of_mem_placeAll hc'
      obtain ⟨m, hm, front, back, htext, rfl⟩ := ih c (by simp) hd
      refine ⟨m, mem_descendants_branch.2 (.inr ⟨c, by simp, hm⟩), (textAll xs).toList ++ front,
        back ++ (textAll ys).toList, ?_, ?_⟩
      · simp [textAll_append, htext]
      · rw [byteLength_append, Nat.add_assoc]

theorem GapsClosed.placeAll {ns : List Node} (h : GapsClosed ns) (index : LineIndex)
    (offset : Nat) : GapsClosed (Node.placeAll index offset ns) := by
  refine ⟨fun c hc hk => ?_, ?_⟩
  · obtain ⟨xs, n, ys, rfl, rfl⟩ := exists_place_of_mem_placeAll hc
    obtain ⟨l, t, rfl, ht⟩ := h.leaf_of_trivia n (by simp) (by simpa using hk)
    exact ⟨_, t, rfl, ht⟩
  · have hkinds : (ns.map kind).IsChain fun a b => ¬ (a = .trivia ∧ b = .trivia) :=
      List.isChain_map_of_isChain kind (fun _ _ h => h) h.apart
    rw [← map_kind_placeAll index offset] at hkinds
    exact List.isChain_of_isChain_map kind (fun _ _ h => h) hkinds

end DocBlocks.Node
