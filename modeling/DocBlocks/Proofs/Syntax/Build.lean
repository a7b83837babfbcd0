import DocBlocks.Proofs.Reading.Reader
import DocBlocks.Proofs.Syntax.Items
import DocBlocks.Proofs.Syntax.Node

/-!
# From concrete trees to nodes

* `Parsed.text_root`: the tree of what was read has the text of what was read, so no token and no
  stretch between tokens is dropped.
* `Parsed.gapsClosed_root`: in every branch of the tree, text that belongs to no node of its own is
  trivia, never empty, and never two stretches in a row.

Both hold of all concrete trees, also of those that no reader gives.
-/

namespace DocBlocks

namespace Concrete

/-- Induction over a concrete tree: a phrase may use what holds of its parts. -/
@[elab_as_elim]
theorem treeInduction {P : Concrete → Prop} (token : ∀ t gap text, P (.token t gap text))
    (comment : ∀ gap text, P (.comment gap text)) (island : ∀ gap i, P (.island gap i))
    (phrase : ∀ p parts, (∀ c ∈ parts, P c) → P (.phrase p parts)) (c : Concrete) : P c := by
  refine @Concrete.rec P (fun cs => ∀ c ∈ cs, P c) token comment island phrase ?_ ?_ c
  · simp
  · intro c cs hc hcs d hd
    rcases List.mem_cons.1 hd with rfl | hd
    · exact hc
    · exact hcs d hd

end Concrete

/-! ### Text -/

namespace Item

/-- The source text of neighbouring parts. -/
def textAll (is : List Item) : String := String.join (is.map text)

@[simp]
theorem textAll_nil : textAll [] = "" := by
  simp [textAll]

@[simp]
theorem textAll_cons (i : Item) (is : List Item) : textAll (i :: is) = i.text ++ textAll is := by
  simp [textAll]

@[simp]
theorem textAll_append (is js : List Item) : textAll (is ++ js) = textAll is ++ textAll js := by
  simp [textAll]

/-- Closing gaps keeps the text. -/
theorem textAll_close (passed : String) (is : List Item) :
    Node.textAll (close passed is) = passed ++ textAll is := by
  induction is generalizing passed with
  | nil =>
    simp only [close]
    split <;> simp_all
  | cons i is ih =>
    cases i with
    | gap t => simp [close, ih, text, String.append_assoc]
    | node n =>
      simp only [close]
      split <;> simp_all [text]
    | extra n =>
      simp only [close]
      split <;> simp_all [text]

theorem text_build (l : Label) (is : List Item) : (build l is).text = textAll is := by
  simp only [build]
  split
  · simp [textAll_close]
  · simp [textAll]

theorem text_inRole (role? : Option String) (i : Item) : (i.inRole role?).text = i.text := by
  cases i with
  | node n =>
    simp only [inRole]
    split <;> simp [text]
  | gap t => rfl
  | extra n => rfl

end Item

theorem textAll_dress (guise : Guise) (role? : Option String) (is : List Item) :
    Item.textAll (dress guise role? is) = Item.textAll is := by
  cases guise with
  | hidden =>
    have h : (is.map (Item.inRole role?)).map Item.text = is.map Item.text := by
      simp [Item.text_inRole]
    simp only [dress, Item.textAll, h]
  | bare kind => simp [dress, Item.text, Item.text_build]
  | named kind => simp [dress, Item.text, Item.text_build]

@[simp]
theorem textAll_leafUnlessEmpty (rule t : String) : Item.textAll (leafUnlessEmpty rule t) = t := by
  simp only [leafUnlessEmpty]
  split <;> simp_all [Item.text]

theorem Island.text_node (i : Island) : i.node.text = i.source := by
  simp [node, Item.text_build, Item.text, source, String.append_assoc]

namespace Concrete

/-- The text of the parts of a phrase behind others, given that of each. -/
theorem textAll_itemsMore {book : RuleBook} {posts : List Post} {cs : List Concrete}
    (h : ∀ c ∈ cs, ∀ post, c.lead ++ Item.textAll (c.items book post) = c.text) :
    Item.textAll (itemsMore book posts cs) = textAll cs := by
  induction cs generalizing posts with
  | nil => simp [itemsMore, textAll]
  | cons c cs ih =>
    have hc := h c List.mem_cons_self (posts.headD .plain)
    have hcs : ∀ ps, Item.textAll (itemsMore book ps cs) = textAll cs :=
      fun ps => ih fun d hd => h d (List.mem_cons_of_mem _ hd)
    simp [itemsMore, textAll, hcs, Item.text, ← hc, String.append_assoc]

/-- The text of the parts of a phrase. The gap in front of a phrase is that in front of its first
part. -/
theorem lead_append_textAll_itemsFirst {book : RuleBook} {posts : List Post} {p : Nat}
    {cs : List Concrete}
    (h : ∀ c ∈ cs, ∀ post, c.lead ++ Item.textAll (c.items book post) = c.text) :
    (phrase p cs).lead ++ Item.textAll (itemsFirst book posts cs) = textAll cs := by
  cases cs with
  | nil => simp [lead, itemsFirst, textAll]
  | cons c cs =>
    have hc := h c List.mem_cons_self (posts.headD .plain)
    have hcs : ∀ ps, Item.textAll (itemsMore book ps cs) = textAll cs :=
      fun _ => textAll_itemsMore fun d hd => h d (List.mem_cons_of_mem _ hd)
    simp [lead, itemsFirst, textAll, hcs, ← hc, String.append_assoc]

/-- **The parts of a tree hold all its text** but the gap in front. -/
theorem lead_append_textAll_items (book : RuleBook) (c : Concrete) (post : Post) :
    c.lead ++ Item.textAll (c.items book post) = c.text := by
  induction c using treeInduction generalizing post with
  | token t gap text => simp [lead, items, textAll_dress, Item.text, Concrete.text]
  | comment gap text => simp [lead, items, Item.text, Concrete.text]
  | island gap i => simp [lead, items, Item.text, Concrete.text, Island.text_node]
  | phrase p parts ih =>
    simp only [items, text]
    split <;> simp [textAll_dress, lead_append_textAll_itemsFirst ih]

theorem textAll_rootItems (book : RuleBook) (cs : List Concrete) :
    Item.textAll (rootItems book cs) = textAll cs := by
  induction cs with
  | nil => simp [rootItems, textAll]
  | cons c cs ih =>
    simp only [rootItems, List.cons_append, Item.textAll_cons, Item.textAll_append, Item.text,
      textAll, ih]
    rw [← String.append_assoc, lead_append_textAll_items]

end Concrete

/-- **The tree of what was read has the text of what was read.** -/
theorem Parsed.text_root (book : RuleBook) (p : Parsed) : (p.root book).text = p.text := by
  simp only [root]
  split <;>
    simp [Item.textAll_close, Concrete.textAll_rootItems, Item.text, Parsed.text]

/-! ### Where parts come from -/

theorem eq_of_mem_leafUnlessEmpty {rule t : String} {i : Item} (h : i ∈ leafUnlessEmpty rule t) :
    i = .node (.leaf (ruleLabel rule true none) t) := by
  simp only [leafUnlessEmpty] at h
  split at h
  · simp at h
  · exact List.mem_singleton.1 h

/-- An island is built from text and leaves. -/
theorem Island.exists_node_eq (i : Island) :
    ∃ parts, i.node = Item.build (ruleLabel "text_interpolation" true none) parts ∧
      ∀ j ∈ parts, (∃ t, j = .gap t) ∨ ∃ rule ∈ ["php_end_tag", "text", "php_tag"], ∃ t,
        j = .node (.leaf (ruleLabel rule true none) t) := by
  refine ⟨_, rfl, fun j hj => ?_⟩
  simp only [List.mem_append, List.mem_cons, List.not_mem_nil, or_false] at hj
  rcases hj with (((rfl | rfl) | hj) | rfl) | hj
  · exact .inr ⟨"php_end_tag", by simp, _, rfl⟩
  · exact .inl ⟨_, rfl⟩
  · exact .inr ⟨"text", by simp, _, eq_of_mem_leafUnlessEmpty hj⟩
  · exact .inl ⟨_, rfl⟩
  · exact .inr ⟨"php_tag", by simp, _, eq_of_mem_leafUnlessEmpty hj⟩

/-- The children of a root come from text, the trees of the source, and an empty program. -/
theorem Parsed.exists_root_eq (book : RuleBook) (p : Parsed) :
    ∃ items, p.root book = .branch (ruleLabel "program" true none) (Item.close "" items) ∧
      ∀ i ∈ items, (∃ t, i = .gap t) ∨ i = .node (.leaf (ruleLabel "program" true none) "") ∨
        i ∈ Concrete.rootItems book p.trees := by
  have hitems : ∀ i ∈ Concrete.rootItems book p.trees ++ [.gap p.tail],
      (∃ t, i = .gap t) ∨ i = .node (.leaf (ruleLabel "program" true none) "") ∨
        i ∈ Concrete.rootItems book p.trees := by
    intro i hi
    rcases List.mem_append.1 hi with hi | hi
    · exact .inr (.inr hi)
    · exact .inl ⟨_, List.mem_singleton.1 hi⟩
  simp only [root]
  split
  · exact ⟨_, rfl, hitems⟩
  · refine ⟨_, rfl, fun i hi => ?_⟩
    rcases List.mem_append.1 hi with hi | hi
    · exact hitems i hi
    · exact .inr (.inl (List.mem_singleton.1 hi))

/-! ### Gaps -/

/-- Whether a part is no trivia, and the gaps below it are closed. -/
def Item.Closed : Item → Prop
  | gap _ => True
  | node n => n.kind ≠ .trivia ∧ ∀ d ∈ n.descendants, Node.GapsClosed d.children
  | extra n => n.kind ≠ .trivia ∧ ∀ d ∈ n.descendants, Node.GapsClosed d.children

namespace Item

theorem gapsClosed_close {passed : String} {is : List Item} (h : ∀ i ∈ is, i.Closed) :
    Node.GapsClosed (close passed is) := by
  induction is generalizing passed with
  | nil =>
    simp only [close]
    split
    · exact .nil
    · rename_i hp
      exact ⟨by simpa [Node.trivia] using hp, .singleton _⟩
  | cons i is ih =>
    have hi := h i List.mem_cons_self
    have his : ∀ passed, Node.GapsClosed (close passed is) :=
      fun _ => ih fun j hj => h j (List.mem_cons_of_mem _ hj)
    cases i with
    | gap t => exact his _
    | node n =>
      simp only [close]
      split
      · exact (his "").cons hi.1
      · rename_i hp
        exact ((his "").cons hi.1).cons_trivia hi.1 (by simpa using hp)
    | extra n =>
      simp only [close]
      split
      · exact (his "").cons hi.1
      · rename_i hp
        exact ((his "").cons hi.1).cons_trivia hi.1 (by simpa using hp)

/-- A node among closed gaps is a stretch of text or one of the parts. -/
theorem mem_close {passed : String} {is : List Item} {n : Node} (h : n ∈ close passed is) :
    (∃ t, n = .trivia t .nowhere) ∨ .node n ∈ is ∨ .extra n ∈ is := by
  induction is generalizing passed with
  | nil =>
    simp only [close] at h
    split at h
    · simp at h
    · exact .inl ⟨passed, List.mem_singleton.1 h⟩
  | cons i is ih =>
    have hrest : ∀ passed, n ∈ close passed is →
        (∃ t, n = .trivia t .nowhere) ∨ .node n ∈ i :: is ∨ .extra n ∈ i :: is :=
      fun _ hn => (ih hn).imp_right (Or.imp (List.mem_cons_of_mem _) (List.mem_cons_of_mem _))
    cases i with
    | gap t => exact hrest _ h
    | node m =>
      simp only [close] at h
      split at h
      · rcases List.mem_cons.1 h with rfl | h
        · exact .inr (.inl List.mem_cons_self)
        · exact hrest _ h
      · rcases List.mem_cons.1 h with rfl | h
        · exact .inl ⟨_, rfl⟩
        rcases List.mem_cons.1 h with rfl | h
        · exact .inr (.inl List.mem_cons_self)
        · exact hrest _ h
    | extra m =>
      simp only [close] at h
      split at h
      · rcases List.mem_cons.1 h with rfl | h
        · exact .inr (.inr List.mem_cons_self)
        · exact hrest _ h
      · rcases List.mem_cons.1 h with rfl | h
        · exact .inl ⟨_, rfl⟩
        rcases List.mem_cons.1 h with rfl | h
        · exact .inr (.inr List.mem_cons_self)
        · exact hrest _ h

theorem gapsClosed_branch {l : Label} {is : List Item} (h : ∀ i ∈ is, i.Closed) :
    ∀ d ∈ (Node.branch l (close "" is)).descendants, Node.GapsClosed d.children := by
  intro d hd
  rcases Node.mem_descendants_branch.1 hd with rfl | ⟨c, hc, hd⟩
  · exact gapsClosed_close h
  · rcases mem_close hc with ⟨t, rfl⟩ | hc | hc
    · obtain rfl := Node.mem_descendants_leaf.1 hd
      exact .nil
    · exact (h _ hc).2 d hd
    · exact (h _ hc).2 d hd

theorem closed_leaf (rule : String) (named : Bool) (role? : Option String) (t : String) :
    (node (.leaf (ruleLabel rule named role?) t)).Closed := by
  have hk : (Node.leaf (ruleLabel rule named role?) t).kind ≠ .trivia :=
    Kind.ofGrammar_ne_trivia rule named
  exact ⟨hk, by simp [Node.GapsClosed.nil]⟩

theorem closed_build {rule : String} {named : Bool} {role? : Option String} {is : List Item}
    (h : ∀ i ∈ is, i.Closed) : (node (build (ruleLabel rule named role?) is)).Closed := by
  simp only [build]
  split
  · exact ⟨Kind.ofGrammar_ne_trivia rule named, gapsClosed_branch h⟩
  · exact closed_leaf _ _ _ _

theorem Closed.inRole {role? : Option String} {i : Item} (h : i.Closed) :
    (i.inRole role?).Closed := by
  cases i with
  | gap t => exact h
  | extra n => exact h
  | node n =>
    simp only [Item.inRole]
    split
    · exact h
    · refine ⟨by simpa using h.1, fun d hd => ?_⟩
      rcases Node.mem_descendants_iff.1 hd with rfl | ⟨c, hc, hd⟩
      · simpa using h.2 n n.self_mem_descendants
      · rw [Node.children_withField] at hc
        exact h.2 d (Node.mem_descendants_iff.2 (.inr ⟨c, hc, hd⟩))

end Item

theorem closed_dress {guise : Guise} {role? : Option String} {is : List Item}
    (h : ∀ i ∈ is, i.Closed) : ∀ i ∈ dress guise role? is, i.Closed := by
  intro i hi
  cases guise with
  | hidden =>
    obtain ⟨j, hj, rfl⟩ := List.mem_map.1 hi
    exact (h j hj).inRole
  | bare kind =>
    obtain rfl := List.mem_singleton.1 hi
    exact Item.closed_build h
  | named kind =>
    obtain rfl := List.mem_singleton.1 hi
    exact Item.closed_build h

theorem Island.closed_node (i : Island) : (Item.extra i.node).Closed := by
  obtain ⟨parts, hnode, hparts⟩ := i.exists_node_eq
  rw [hnode]
  refine Item.closed_build fun j hj => ?_
  rcases hparts j hj with ⟨t, rfl⟩ | ⟨rule, -, t, rfl⟩
  · trivial
  · exact Item.closed_leaf rule true none t

namespace Concrete

/-- A property of the parts that trees give holds of all parts of a phrase behind others, if it
holds of text. The posts may be known to be of a sort. -/
theorem forall_itemsMore {book : RuleBook} {P : Item → Prop} {Q : Post → Prop}
    (hgap : ∀ t, P (.gap t)) (hplain : Q .plain) {posts : List Post} {cs : List Concrete}
    (hposts : ∀ post ∈ posts, Q post)
    (h : ∀ c ∈ cs, ∀ post, Q post → ∀ i ∈ c.items book post, P i) :
    ∀ i ∈ itemsMore book posts cs, P i := by
  induction cs generalizing posts with
  | nil => simp [itemsMore]
  | cons c cs ih =>
    intro i hi
    have hhead : Q (posts.headD .plain) := by
      cases posts with
      | nil => exact hplain
      | cons post posts => exact hposts post List.mem_cons_self
    have hrest : ∀ post ∈ if c.isExtra then posts else posts.tail, Q post := by
      intro post hpost
      split at hpost
      · exact hposts post hpost
      · exact hposts post (List.mem_of_mem_tail hpost)
    simp only [itemsMore, List.cons_append, List.mem_cons, List.mem_append] at hi
    rcases hi with rfl | hi | hi
    · exact hgap _
    · exact h c List.mem_cons_self _ hhead i hi
    · exact ih hrest (fun d hd => h d (List.mem_cons_of_mem _ hd)) i hi

/-- The parts of a phrase from the first one on are those behind another one, less a gap. -/
theorem mem_itemsMore_of_mem_itemsFirst {book : RuleBook} {posts : List Post} {cs : List Concrete}
    {i : Item} (h : i ∈ itemsFirst book posts cs) : i ∈ itemsMore book posts cs := by
  cases cs with
  | nil => exact h
  | cons c cs => exact List.mem_cons_of_mem _ h

/-- A property of the parts that the trees of a source give holds of all parts of the root, if it
holds of text. -/
theorem forall_rootItems {book : RuleBook} {P : Item → Prop} (hgap : ∀ t, P (.gap t))
    {cs : List Concrete}
    (h : ∀ c ∈ cs, ∀ i ∈ c.items book ⟨none, if c.isExtra then none else some .hidden⟩, P i) :
    ∀ i ∈ rootItems book cs, P i := by
  induction cs with
  | nil => simp [rootItems]
  | cons c cs ih =>
    intro i hi
    simp only [rootItems, List.cons_append, List.mem_cons, List.mem_append] at hi
    rcases hi with rfl | hi | hi
    · exact hgap _
    · exact h c List.mem_cons_self i hi
    · exact ih (fun d hd => h d (List.mem_cons_of_mem _ hd)) i hi

theorem closed_items (book : RuleBook) (c : Concrete) (post : Post) :
    ∀ i ∈ c.items book post, i.Closed := by
  induction c using treeInduction generalizing post with
  | token t gap text => exact closed_dress (by simp [Item.Closed])
  | comment gap text =>
    intro i hi
    obtain rfl := List.mem_singleton.1 hi
    exact ⟨by simp, by simp [Node.comment, Node.GapsClosed.nil]⟩
  | island gap i =>
    intro j hj
    obtain rfl := List.mem_singleton.1 hj
    exact i.closed_node
  | phrase p parts ih =>
    have hparts : ∀ posts, ∀ i ∈ itemsFirst book posts parts, i.Closed := by
      intro posts i hi
      have hall : ∀ post ∈ posts, (fun _ : Post => True) post := fun _ _ => trivial
      exact forall_itemsMore (fun _ => trivial) trivial hall (fun c hc post _ => ih c hc post) i
        (mem_itemsMore_of_mem_itemsFirst hi)
    simp only [items]
    split
    · exact closed_dress (hparts _)
    · exact closed_dress (hparts _)

end Concrete

/-- **Text between the nodes of a tree is trivia**, never empty and never two stretches in a
row. -/
theorem Parsed.gapsClosed_root (book : RuleBook) (p : Parsed) :
    ∀ d ∈ (p.root book).descendants, Node.GapsClosed d.children := by
  obtain ⟨items, hroot, hitems⟩ := p.exists_root_eq book
  rw [hroot]
  refine Item.gapsClosed_branch fun i hi => ?_
  rcases hitems i hi with ⟨t, rfl⟩ | rfl | hi
  · trivial
  · exact Item.closed_leaf _ _ _ _
  · exact Concrete.forall_rootItems (fun _ => trivial) (fun c _ => c.closed_items book _) i hi

end DocBlocks
