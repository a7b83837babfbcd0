import DocBlocks.Proofs.Source.LineIndex
import DocBlocks.Proofs.Source.Excerpt
import DocBlocks.Proofs.Syntax.Node
import DocBlocks.Syntax.Ranged

/-!
# Lossless trees

`Node.Lossless source root` says that a tree is its source: the root covers it from the first byte
to the last, every node stands where its span says and on the lines its span says, the children of
every branch tile its span, and what lies between nodes of the grammar is trivia that is not empty.

`RangedTree.lossless_syntaxTree`: so is the tree that is made of any tree over byte ranges that is
well nested (`RangedTree.WellNested`): the ranges of neighbours come one behind the other inside
that of their parent, and divide no character.

The walk keeps an offset up to which the source has been taken in. `TreeBuilder.Fills` says what it
has made of the source from one offset to another, and is carried over the neighbours in
`TreeBuilder.fills_buildAmong`, and over the tree in `TreeBuilder.built_build`.
-/

namespace DocBlocks

/-! ### Standing in a source -/

namespace Node

/-- Whether a node stands in a source where its span says: its text is the excerpt of the source
between the two offsets, and the lines are those of the first and the last byte of it. -/
def StandsIn (source : String) (n : Node) : Prop :=
  ∃ before after : List Char, source.toList = before ++ n.text.toList ++ after ∧
    n.span = ⟨byteLength before, byteLength (before ++ n.text.toList), 1 + before.count '\n',
      1 + (before ++ n.text.toList.dropLast).count '\n'⟩

/-- Whether nodes stand one behind the other from one offset to another. -/
def Tile (start stop : Nat) : List Node → Prop
  | [] => start = stop
  | c :: cs => c.span.start = start ∧ Tile c.span.stop stop cs

/-- Whether a tree is the source that it is said to be of. -/
structure Lossless (source : String) (root : Node) : Prop where
  text_eq : root.text = source
  start_eq : root.span.start = 0
  stop_eq : root.span.stop = source.utf8ByteSize
  standsIn : ∀ n ∈ root.descendants, n.StandsIn source
  tile : ∀ n ∈ root.descendants, n.isLeaf = false → Tile n.span.start n.span.stop n.children
  gapsClosed : ∀ n ∈ root.descendants, GapsClosed n.children

theorem standsIn_of_excerpt {source : String} {start stop : Nat} {n : Node}
    (h : Excerpt source start stop n.text)
    (hspan : n.span = (LineIndex.ofText source).span start stop) :
    n.StandsIn source := by
  obtain ⟨before, after, hsource, rfl, rfl⟩ := h
  exact ⟨before, after, hsource, by rw [hspan, LineIndex.span_ofText hsource]⟩

end Node

/-! ### Well nested trees -/

namespace RangedTree

mutual

/-- Whether the ranges of a tree are well nested: below every node they come in order and apart
inside its range, and no range divides a character of the source. -/
def WellNested (source : String) : RangedTree → Prop
  | ⟨_, _, _, start, stop, children, _⟩ =>
    start ≤ stop ∧ OnBoundary source start ∧ OnBoundary source stop ∧
      NestedAmong source start stop children

/-- Whether neighbouring trees are, one behind the other from an offset up to another one. -/
def NestedAmong (source : String) (offset stop : Nat) : List RangedTree → Prop
  | [] => offset ≤ stop
  | c :: cs => offset ≤ c.start ∧ c.WellNested source ∧ NestedAmong source c.stop stop cs

end

mutual

/-- Being well nested can be decided. -/
def decideWellNested (source : String) : (t : RangedTree) → Decidable (t.WellNested source)
  | ⟨_, _, _, start, stop, children, _⟩ =>
    have := decideNestedAmong source start stop children
    inferInstanceAs (Decidable (start ≤ stop ∧ OnBoundary source start ∧ OnBoundary source stop ∧
      NestedAmong source start stop children))

/-- Being well nested one behind the other can be decided. -/
def decideNestedAmong (source : String) (offset stop : Nat) :
    (ts : List RangedTree) → Decidable (NestedAmong source offset stop ts)
  | [] => inferInstanceAs (Decidable (offset ≤ stop))
  | c :: cs =>
    have := decideWellNested source c
    have := decideNestedAmong source c.stop stop cs
    inferInstanceAs (Decidable (offset ≤ c.start ∧ c.WellNested source ∧
      NestedAmong source c.stop stop cs))

end

instance (source : String) (t : RangedTree) : Decidable (t.WellNested source) :=
  decideWellNested source t

/-- Induction over a tree: a node may use what holds of its children. -/
@[elab_as_elim]
theorem treeInduction {P : RangedTree → Prop}
    (node : ∀ rule isNamed field start stop children isExtra, (∀ c ∈ children, P c) →
      P ⟨rule, isNamed, field, start, stop, children, isExtra⟩) (t : RangedTree) : P t := by
  refine @RangedTree.rec P (fun cs => ∀ c ∈ cs, P c) node ?_ ?_ t
  · simp
  · intro c cs hc hcs d hd
    rcases List.mem_cons.1 hd with rfl | hd
    · exact hc
    · exact hcs d hd

variable {source : String} {t : RangedTree} {ts : List RangedTree} {offset stop : Nat}

theorem wellNested_iff : t.WellNested source ↔
    t.start ≤ t.stop ∧ OnBoundary source t.start ∧ OnBoundary source t.stop ∧
      NestedAmong source t.start t.stop t.children := by
  cases t
  rw [WellNested]

theorem WellNested.le (h : t.WellNested source) : t.start ≤ t.stop := (wellNested_iff.1 h).1

theorem WellNested.onBoundary_start (h : t.WellNested source) : OnBoundary source t.start :=
  (wellNested_iff.1 h).2.1

theorem WellNested.onBoundary_stop (h : t.WellNested source) : OnBoundary source t.stop :=
  (wellNested_iff.1 h).2.2.1

theorem WellNested.nestedAmong (h : t.WellNested source) :
    NestedAmong source t.start t.stop t.children :=
  (wellNested_iff.1 h).2.2.2

/-- What is well nested inside a range is so inside a wider one. -/
theorem NestedAmong.mono {offset' stop' : Nat} (h : NestedAmong source offset stop ts)
    (hoffset : offset' ≤ offset) (hstop : stop ≤ stop') : NestedAmong source offset' stop' ts := by
  induction ts generalizing offset offset' with
  | nil => exact le_trans hoffset (le_trans h hstop)
  | cons t ts ih => exact ⟨le_trans hoffset h.1, h.2.1, ih h.2.2 le_rfl⟩

theorem NestedAmong.le (h : NestedAmong source offset stop ts) : offset ≤ stop := by
  induction ts generalizing offset with
  | nil => exact h
  | cons t ts ih => exact le_trans h.1 (le_trans h.2.1.le (ih h.2.2))

theorem kind_ne_trivia (t : RangedTree) : t.kind ≠ .trivia :=
  Kind.ofGrammar_ne_trivia t.rule t.isNamed

end RangedTree

/-! ### Slices -/

theorem lossyText_toUTF8 (s : String) : lossyText s.toUTF8 = s := by
  have hutf8 : String.fromUTF8? s.toUTF8 = some s := dif_pos s.isValidUTF8
  rw [lossyText, hutf8, Option.getD_some]

namespace TreeBuilder

variable {source text : String} {start middle stop offset : Nat}

/-- **A slice is the excerpt between its offsets.** -/
theorem slice_eq (h : Excerpt source start stop text) :
    (ofSource source).slice start stop = text := by
  obtain ⟨before, after, hsource, rfl, rfl⟩ := h
  have hbytes : source.toUTF8 =
      (String.ofList before).toUTF8 ++ (text.toUTF8 ++ (String.ofList after).toUTF8) := by
    have hparts : source = String.ofList before ++ (text ++ String.ofList after) := by
      apply String.toList_injective
      simpa using hsource
    simp only [hparts, String.toUTF8_eq_toByteArray, String.toByteArray_append]
  have hbefore : byteLength before = (String.ofList before).toUTF8.size := by
    rw [← String.toList_ofList (l := before), ← utf8ByteSize_eq_byteLength, String.toList_ofList]
    rfl
  have htext : byteLength text.toList = text.toUTF8.size := by
    rw [← utf8ByteSize_eq_byteLength]
    rfl
  have hslice : source.toUTF8.extract (byteLength before) (byteLength (before ++ text.toList)) =
      text.toUTF8 := by
    rw [hbytes, byteLength_append, htext, ← Nat.add_zero (byteLength before), Nat.add_assoc,
      ByteArray.extract_append_size_add' hbefore, Nat.zero_add,
      ByteArray.extract_append_eq_left rfl]
  show lossyText (source.toUTF8.extract _ _) = text
  rw [hslice, lossyText_toUTF8]

/-- Between two offsets that divide no character, the slice is an excerpt. -/
theorem excerpt_slice (hstart : OnBoundary source start) (hstop : OnBoundary source stop)
    (hle : start ≤ stop) : Excerpt source start stop ((ofSource source).slice start stop) := by
  obtain ⟨text, htext⟩ := exists_excerpt hstart hstop hle
  rwa [slice_eq htext]

/-! ### What the walk makes -/

/-- Whether a node is in order: it stands where its span says, and its children fill its span. -/
structure InOrder (source : String) (n : Node) : Prop where
  standsIn : n.StandsIn source
  tile : n.isLeaf = false → Node.Tile n.span.start n.span.stop n.children
  gapsClosed : Node.GapsClosed n.children

/-- Whether a node is what is to be made of a range of a source. -/
structure Built (source : String) (start stop : Nat) (n : Node) : Prop where
  span_eq : n.span = (LineIndex.ofText source).span start stop
  excerpt : Excerpt source start stop n.text
  inOrder : ∀ d ∈ n.descendants, InOrder source d

/-- Whether nodes fill a source from one offset to another. -/
structure Fills (source : String) (start stop : Nat) (ns : List Node) : Prop where
  tile : Node.Tile start stop ns
  excerpt : Excerpt source start stop (Node.textAll ns)
  gapsClosed : Node.GapsClosed ns
  inOrder : ∀ n ∈ ns, ∀ d ∈ n.descendants, InOrder source d

theorem built_leaf {l : Label} (hstart : OnBoundary source start) (hstop : OnBoundary source stop)
    (hle : start ≤ stop) (hspan : l.span = (LineIndex.ofText source).span start stop) :
    Built source start stop (.leaf l ((ofSource source).slice start stop)) where
  span_eq := hspan
  excerpt := by
    rw [Node.text_leaf]
    exact excerpt_slice hstart hstop hle
  inOrder d hd := by
    obtain rfl := Node.mem_descendants_leaf.1 hd
    have hexcerpt := excerpt_slice hstart hstop hle
    refine ⟨Node.standsIn_of_excerpt (by simpa using hexcerpt) hspan, ?_, .nil⟩
    simp [Node.isLeaf]

/-- **A branch is made of nodes that fill its range.** -/
theorem Fills.built_branch {l : Label} {ns : List Node} (h : Fills source start stop ns)
    (hspan : l.span = (LineIndex.ofText source).span start stop) :
    Built source start stop (.branch l ns) where
  span_eq := hspan
  excerpt := by
    rw [Node.text_branch]
    exact h.excerpt
  inOrder d hd := by
    rcases Node.mem_descendants_branch.1 hd with rfl | ⟨c, hc, hd⟩
    · refine ⟨Node.standsIn_of_excerpt (by simpa using h.excerpt) hspan, fun _ => ?_, h.gapsClosed⟩
      rw [Node.span_branch, hspan]
      exact h.tile
    · exact h.inOrder c hc d hd

theorem fills_nil (h : OnBoundary source start) : Fills source start start [] where
  tile := rfl
  excerpt := by
    rw [Node.textAll_nil]
    exact .empty h
  gapsClosed := .nil
  inOrder := by simp

/-- A node in front of nodes that fill the source behind it. -/
theorem Built.fills_cons {n : Node} {ns : List Node} (h : Built source start middle n)
    (hkind : n.kind ≠ .trivia) (hns : Fills source middle stop ns) :
    Fills source start stop (n :: ns) where
  tile := by
    refine ⟨by rw [h.span_eq]; rfl, ?_⟩
    rw [h.span_eq]
    exact hns.tile
  excerpt := by
    rw [Node.textAll_cons]
    exact h.excerpt.append hns.excerpt
  gapsClosed := hns.gapsClosed.cons hkind
  inOrder := by
    intro m hm
    rcases List.mem_cons.1 hm with rfl | hm
    · exact h.inOrder
    · exact hns.inOrder m hm

/-- A gap at the end fills the source up to there. -/
theorem fills_gap (hstart : OnBoundary source start) (hstop : OnBoundary source stop)
    (hle : start ≤ stop) : Fills source start stop ((ofSource source).gap start stop) := by
  have hslice := excerpt_slice hstart hstop hle
  unfold gap
  split
  · rename_i hlt
    have hbuilt : Built source start stop (.trivia ((ofSource source).slice start stop)
        ((ofSource source).lines.span start stop)) := built_leaf hstart hstop hle rfl
    refine ⟨⟨rfl, rfl⟩, by simpa using hslice, ?_, by simpa using hbuilt.inOrder⟩
    exact ⟨by simpa [Node.trivia] using hslice.ne_empty hlt, .singleton _⟩
  · obtain rfl : start = stop := by omega
    exact fills_nil hstart

/-- A gap and a node in front of nodes that fill the source behind them. -/
theorem Built.fills_gap_append {n : Node} {ns : List Node} (h : Built source middle stop n)
    (hkind : n.kind ≠ .trivia) (hstart : OnBoundary source start)
    (hmiddle : OnBoundary source middle) (hle : start ≤ middle) {stop' : Nat}
    (hns : Fills source stop stop' ns) :
    Fills source start stop' ((ofSource source).gap start middle ++ n :: ns) := by
  have hrest := h.fills_cons hkind hns
  have hgap := fills_gap hstart hmiddle hle
  unfold gap at hgap ⊢
  split
  · rename_i hlt
    rw [if_pos hlt] at hgap
    have hne := (excerpt_slice hstart hmiddle hle).ne_empty hlt
    refine ⟨⟨rfl, hrest.tile⟩, ?_, hns.gapsClosed.cons hkind |>.cons_trivia hkind hne, ?_⟩
    · rw [Node.textAll_append]
      exact hgap.excerpt.append hrest.excerpt
    · intro m hm
      rcases List.mem_append.1 hm with hm | hm
      · exact hgap.inOrder m hm
      · exact hrest.inOrder m hm
  · obtain rfl : start = middle := by omega
    exact hrest

theorem kind_build (b : TreeBuilder) (t : RangedTree) : (b.build t).kind = t.kind := by
  obtain ⟨rule, isNamed, field, start, stop, _ | ⟨c, cs⟩, isExtra⟩ := t <;> rfl

/-- **The walk over neighbours** fills the source from the offset to the end of the range. -/
theorem fills_buildAmong {ts : List RangedTree}
    (hbuilt : ∀ t ∈ ts, t.WellNested source →
      Built source t.start t.stop ((ofSource source).build t))
    (hoffset : OnBoundary source offset) (hstop : OnBoundary source stop)
    (h : RangedTree.NestedAmong source offset stop ts) :
    Fills source offset stop ((ofSource source).buildAmong offset stop ts) := by
  induction ts generalizing offset with
  | nil =>
    rw [buildAmong]
    exact fills_gap hoffset hstop h
  | cons t ts ih =>
    obtain ⟨hle, hnested, hrest⟩ := h
    have hmax : max offset t.stop = t.stop := Nat.max_eq_right (le_trans hle hnested.le)
    have hkind : ((ofSource source).build t).kind ≠ .trivia := by
      rw [kind_build]
      exact t.kind_ne_trivia
    rw [buildAmong, hmax]
    exact (hbuilt t List.mem_cons_self hnested).fills_gap_append hkind hoffset
      hnested.onBoundary_start hle
      (ih (fun u hu => hbuilt u (List.mem_cons_of_mem _ hu)) hnested.onBoundary_stop hrest)

/-- **Every node of a well nested tree becomes what is to be made of its range.** -/
theorem built_build {t : RangedTree} (h : t.WellNested source) :
    Built source t.start t.stop ((ofSource source).build t) := by
  induction t using RangedTree.treeInduction with
  | node rule isNamed field start stop children isExtra ih =>
    cases children with
    | nil => exact built_leaf h.onBoundary_start h.onBoundary_stop h.le rfl
    | cons c cs =>
      have hfills : Fills source start stop ((ofSource source).buildAmong start stop (c :: cs)) :=
        fills_buildAmong ih h.onBoundary_start h.onBoundary_stop h.nestedAmong
      rw [build]
      exact hfills.built_branch rfl

/-- The root fills the whole source. -/
theorem built_buildRoot {t : RangedTree} (h : t.WellNested source) :
    Built source 0 source.utf8ByteSize ((ofSource source).buildRoot t) := by
  have hzero := onBoundary_zero source
  have hend := onBoundary_utf8ByteSize source
  unfold buildRoot
  split
  · -- without children the root is put into a root of its own
    have hinner : Built source t.start t.stop (.leaf ((ofSource source).label t none t.start t.stop)
        ((ofSource source).slice t.start t.stop)) :=
      built_leaf h.onBoundary_start h.onBoundary_stop h.le rfl
    have hfills := hinner.fills_gap_append t.kind_ne_trivia hzero h.onBoundary_start (Nat.zero_le _)
      (fills_gap h.onBoundary_stop hend h.onBoundary_stop.le)
    exact hfills.built_branch rfl
  · rename_i c cs hchildren
    have hnested := h.nestedAmong.mono (Nat.zero_le _) h.onBoundary_stop.le
    rw [hchildren] at hnested
    exact (fills_buildAmong (fun _ _ => built_build) hzero hend hnested).built_branch rfl

end TreeBuilder

/-- **A well nested tree becomes a lossless one.** -/
theorem RangedTree.lossless_syntaxTree {source : String} {t : RangedTree}
    (h : t.WellNested source) : (t.syntaxTree source).Lossless source := by
  have hbuilt := TreeBuilder.built_buildRoot h
  exact
    { text_eq := hbuilt.excerpt.eq_source
      start_eq := by
        rw [RangedTree.syntaxTree, hbuilt.span_eq]
        rfl
      stop_eq := by
        rw [RangedTree.syntaxTree, hbuilt.span_eq]
        rfl
      standsIn := fun n hn => (hbuilt.inOrder n hn).standsIn
      tile := fun n hn => (hbuilt.inOrder n hn).tile
      gapsClosed := fun n hn => (hbuilt.inOrder n hn).gapsClosed }

end DocBlocks
