import DocBlocks.Syntax.Node
import Mathlib.Data.List.Chain

/-!
# Trees and their parts

Induction over a tree and its children (`Node.treeInduction`), what lies below a node
(`Node.mem_descendants_iff`), and the text of neighbouring nodes. `GapsClosed` says how the text
between nodes shows: as trivia that is not empty, one stretch at a time.
-/

namespace DocBlocks

/-- No rule of a grammar is layout. -/
theorem Kind.ofGrammar_ne_trivia (rule : String) (named : Bool) :
    ofGrammar rule named ≠ .trivia := by
  have htable : ∀ x ∈ ofRule, x.2 ≠ .trivia := by decide
  simp only [ofGrammar, ofNamedRule]
  split
  · split
    · rename_i kind hkind
      obtain ⟨front, back, hmem, -⟩ := List.lookup_eq_some_iff.1 hkind
      exact htable (rule, kind) (by simp [hmem])
    · split
      · simp
      · split <;> simp
  · simp

namespace Node

/-- Induction over a tree: a branch may use what holds of its children. -/
@[elab_as_elim]
theorem treeInduction {P : Node → Prop} (leaf : ∀ l t, P (.leaf l t))
    (branch : ∀ l cs, (∀ c ∈ cs, P c) → P (.branch l cs)) (n : Node) : P n := by
  refine @Node.rec P (fun cs => ∀ c ∈ cs, P c) leaf branch ?_ ?_ n
  · simp
  · intro c cs hc hcs d hd
    rcases List.mem_cons.1 hd with rfl | hd
    · exact hc
    · exact hcs d hd

/-! ### Walks -/

theorem Walk.toList_nil : Walk.toList ⟨[]⟩ = [] := by
  rw [toList]
  rfl

theorem Walk.toList_cons (n : Node) (rest : List Node) :
    Walk.toList ⟨n :: rest⟩ = n :: Walk.toList ⟨n.children ++ rest⟩ := by
  rw [toList]
  show n :: Walk.toList ⟨pushAll rest n.children.reverse⟩ = _
  rw [pushAll_reverse]

/-- **What is on top is visited before anything below it.** -/
theorem Walk.toList_append (xs ys : List Node) :
    Walk.toList ⟨xs ++ ys⟩ = Walk.toList ⟨xs⟩ ++ Walk.toList ⟨ys⟩ := by
  -- by induction on the walk over `xs`, which is at every step what lies on top of `ys`
  induction hsize : sizeOf xs using Nat.strong_induction_on generalizing xs with
  | _ size ih =>
    cases xs with
    | nil => rw [List.nil_append, toList_nil, List.nil_append]
    | cons x xs =>
      have hless : sizeOf (x.children ++ xs) < size := by
        have hstep := sizeOf_lt_of_next? (w := ⟨x :: xs⟩) rfl
        rwa [pushAll_reverse, hsize] at hstep
      rw [List.cons_append, toList_cons, toList_cons, ← List.append_assoc, ih _ hless _ rfl,
        List.cons_append]

/-- Neighbouring nodes and everything below them, one neighbour after the other. -/
def descendantsAll : List Node → List Node
  | [] => []
  | n :: ns => n.descendants ++ descendantsAll ns

theorem descendantsAll_eq_flatMap (ns : List Node) :
    descendantsAll ns = ns.flatMap descendants := by
  induction ns with
  | nil => rfl
  | cons n ns ih => simp [descendantsAll, ih]

/-- A walk visits what is on its stack, from the top down, with everything below it. -/
theorem Walk.toList_eq_descendantsAll (ns : List Node) :
    Walk.toList ⟨ns⟩ = descendantsAll ns := by
  induction ns with
  | nil => exact toList_nil
  | cons n ns ih =>
    rw [← List.singleton_append, toList_append, ih]
    rfl

/-! ### Below a node -/

theorem descendants_eq (n : Node) : n.descendants = n :: descendantsAll n.children := by
  rw [descendants, Walk.toList_cons, List.append_nil, Walk.toList_eq_descendantsAll]

theorem descendants_leaf (l : Label) (t : String) : (leaf l t).descendants = [leaf l t] :=
  descendants_eq _

theorem descendants_branch (l : Label) (cs : List Node) :
    (branch l cs).descendants = branch l cs :: descendantsAll cs :=
  descendants_eq _

theorem mem_descendantsAll {d : Node} {cs : List Node} :
    d ∈ descendantsAll cs ↔ ∃ c ∈ cs, d ∈ c.descendants := by
  induction cs with
  | nil => simp [descendantsAll]
  | cons c cs ih => simp [descendantsAll, ih]

@[simp]
theorem mem_descendants_leaf {d : Node} {l : Label} {t : String} :
    d ∈ (leaf l t).descendants ↔ d = leaf l t := by
  simp [descendants_leaf]

@[simp]
theorem mem_descendants_branch {d : Node} {l : Label} {cs : List Node} :
    d ∈ (branch l cs).descendants ↔ d = branch l cs ∨ ∃ c ∈ cs, d ∈ c.descendants := by
  simp [descendants_branch, mem_descendantsAll]

theorem self_mem_descendants (n : Node) : n ∈ n.descendants := by
  cases n <;> simp

theorem mem_descendants_iff {d n : Node} :
    d ∈ n.descendants ↔ d = n ∨ ∃ c ∈ n.children, d ∈ c.descendants := by
  cases n <;> simp [children]

theorem mem_descendants_of_mem_children {c n : Node} (h : c ∈ n.children) : c ∈ n.descendants := by
  cases n with
  | leaf l t => simp [children] at h
  | branch l cs =>
    rw [mem_descendants_branch]
    exact .inr ⟨c, h, c.self_mem_descendants⟩

theorem mem_descendants_trans {a b c : Node} (hab : a ∈ b.descendants) (hbc : b ∈ c.descendants) :
    a ∈ c.descendants := by
  induction c using treeInduction with
  | leaf l t =>
    obtain rfl := mem_descendants_leaf.1 hbc
    exact hab
  | branch l cs ih =>
    rcases mem_descendants_branch.1 hbc with rfl | ⟨d, hd, hb⟩
    · exact hab
    · exact mem_descendants_branch.2 (.inr ⟨d, hd, ih d hd hb⟩)

/-! ### Labels -/

@[simp]
theorem label_leaf (l : Label) (t : String) : (leaf l t).label = l := rfl

@[simp]
theorem label_branch (l : Label) (cs : List Node) : (branch l cs).label = l := rfl

@[simp]
theorem kind_leaf (l : Label) (t : String) : (leaf l t).kind = l.kind := rfl

@[simp]
theorem kind_branch (l : Label) (cs : List Node) : (branch l cs).kind = l.kind := rfl

@[simp]
theorem field_leaf (l : Label) (t : String) : (leaf l t).field = l.field := rfl

@[simp]
theorem field_branch (l : Label) (cs : List Node) : (branch l cs).field = l.field := rfl

@[simp]
theorem span_leaf (l : Label) (t : String) : (leaf l t).span = l.span := rfl

@[simp]
theorem span_branch (l : Label) (cs : List Node) : (branch l cs).span = l.span := rfl

@[simp]
theorem kind_trivia (t : String) (s : Span) : (trivia t s).kind = .trivia := rfl

@[simp]
theorem kind_comment (t : String) (s : Span) : (comment t s).kind = .comment := rfl

@[simp]
theorem field_trivia (t : String) (s : Span) : (trivia t s).field = none := rfl

@[simp]
theorem field_comment (t : String) (s : Span) : (comment t s).field = none := rfl

/-! ### Text -/

@[simp]
theorem text_leaf (l : Label) (t : String) : (leaf l t).text = t := by
  simp [text]

@[simp]
theorem text_branch (l : Label) (cs : List Node) : (branch l cs).text = textAll cs := by
  simp [text]

@[simp]
theorem text_trivia (t : String) (s : Span) : (trivia t s).text = t := text_leaf _ t

@[simp]
theorem text_comment (t : String) (s : Span) : (comment t s).text = t := text_leaf _ t

@[simp]
theorem textAll_nil : textAll [] = "" := by
  simp [textAll]

@[simp]
theorem textAll_cons (n : Node) (ns : List Node) : textAll (n :: ns) = n.text ++ textAll ns := by
  simp [textAll]

@[simp]
theorem children_leaf (l : Label) (t : String) : (leaf l t).children = [] := rfl

@[simp]
theorem children_branch (l : Label) (cs : List Node) : (branch l cs).children = cs := rfl

@[simp]
theorem children_withField (n : Node) (f : Option String) :
    (n.withField f).children = n.children := by
  cases n <;> rfl

@[simp]
theorem kind_withField (n : Node) (f : Option String) : (n.withField f).kind = n.kind := by
  cases n <;> rfl

@[simp]
theorem field_withField (n : Node) (f : Option String) : (n.withField f).field = f := by
  cases n <;> rfl

@[simp]
theorem isLeaf_withField (n : Node) (f : Option String) : (n.withField f).isLeaf = n.isLeaf := by
  cases n <;> rfl

@[simp]
theorem text_withField (n : Node) (f : Option String) : (n.withField f).text = n.text := by
  cases n <;> simp [withField]

theorem text_withText (n : Node) (t : String) : (n.withText t).text = t := by
  simp [withText]

/-! ### Gaps -/

/-- Text between nodes is trivia that is not empty, and never two stretches in a row. -/
structure GapsClosed (cs : List Node) : Prop where
  leaf_of_trivia : ∀ c ∈ cs, c.kind = .trivia → ∃ l t, c = leaf l t ∧ t ≠ ""
  apart : cs.IsChain fun a b => ¬ (a.kind = .trivia ∧ b.kind = .trivia)

theorem gapsClosed_iff {cs : List Node} :
    GapsClosed cs ↔ (∀ c ∈ cs, c.kind = .trivia → (c.leafText?.any (· != "")) = true) ∧
      cs.IsChain fun a b => ¬ (a.kind = .trivia ∧ b.kind = .trivia) := by
  refine ⟨fun h => ⟨fun c hc hk => ?_, h.apart⟩, fun h => ⟨fun c hc hk => ?_, h.2⟩⟩
  · obtain ⟨l, t, rfl, ht⟩ := h.leaf_of_trivia c hc hk
    simpa [leafText?] using ht
  · have ht := h.1 c hc hk
    cases c with
    | leaf l t => exact ⟨l, t, rfl, by simpa [leafText?] using ht⟩
    | branch l ds => simp [leafText?] at ht

instance (cs : List Node) : Decidable (GapsClosed cs) := decidable_of_iff _ gapsClosed_iff.symm

theorem GapsClosed.nil : GapsClosed [] := ⟨by simp, .nil⟩

/-- A node of the grammar can stand in front of any others. -/
theorem GapsClosed.cons {n : Node} {cs : List Node} (h : GapsClosed cs) (hn : n.kind ≠ .trivia) :
    GapsClosed (n :: cs) := by
  refine ⟨fun c hc hk => ?_, ?_⟩
  · rcases List.mem_cons.1 hc with rfl | hc
    · exact absurd hk hn
    · exact h.leaf_of_trivia c hc hk
  · exact h.apart.cons fun b _ hk => hn hk.1

/-- A stretch of text can stand in front of a node of the grammar. -/
theorem GapsClosed.cons_trivia {n : Node} {cs : List Node} {t : String} {s : Span}
    (h : GapsClosed (n :: cs)) (hn : n.kind ≠ .trivia) (ht : t ≠ "") :
    GapsClosed (trivia t s :: n :: cs) := by
  refine ⟨fun c hc hk => ?_, ?_⟩
  · rcases List.mem_cons.1 hc with rfl | hc
    · exact ⟨_, t, rfl, ht⟩
    · exact h.leaf_of_trivia c hc hk
  · exact List.isChain_cons_cons.2 ⟨fun hk => hn hk.2, h.apart⟩

end Node

end DocBlocks
