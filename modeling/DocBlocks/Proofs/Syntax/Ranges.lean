import DocBlocks.Proofs.Grammar.RuleBook
import DocBlocks.Proofs.Syntax.Build
import DocBlocks.Proofs.Syntax.Lossless
import DocBlocks.Proofs.Syntax.Place
import DocBlocks.Syntax.Parse

/-!
# Trees by ranges and by texts

* `Parsed.wellNested_ranges`: the ranges of everything that was read are well nested, and so the
  tree of every source that has one is lossless (`lossless_of_parseSource`).
* `Parsed.syntaxTree_ranges`: this tree is the one that is told by texts, placed in the source
  (`parseSource_eq_ok`). What its nodes are like is proved of the tree of texts.

`Item.Shows` relates the parts of a node to the ranges of those of them that are nodes; the text in
front of the parts says where they stand. Concrete trees keep it (`Concrete.shows_ranges`), and the
walk with the running offset closes the same gaps as `Item.close` (`Item.Shows.buildAmong_eq`).
-/

namespace DocBlocks

variable {source : String} {before after : List Char}

/-- The offset behind a text. -/
theorem byteLength_add_utf8ByteSize (cs : List Char) (s : String) :
    byteLength cs + s.utf8ByteSize = byteLength (cs ++ s.toList) := by
  rw [byteLength_append, utf8ByteSize_eq_byteLength]

/-! ### Nodes and their ranges -/

/-- Whether a tree over byte ranges becomes a node that stands behind a text. -/
structure RangedTree.Becomes (source : String) (before : List Char) (t : RangedTree)
    (n : Node) : Prop where
  start_eq : t.start = byteLength before
  stop_eq : t.stop = byteLength (before ++ n.text.toList)
  wellNested : t.WellNested source
  build_eq : (TreeBuilder.ofSource source).build t = n.place (.ofText source) (byteLength before)

theorem TreeBuilder.field_build (b : TreeBuilder) (t : RangedTree) :
    (b.build t).field = t.field := by
  obtain ⟨rule, isNamed, field, start, stop, _ | ⟨c, cs⟩, isExtra⟩ := t <;> rfl

theorem TreeBuilder.build_withField (b : TreeBuilder) (t : RangedTree) (field : Option String) :
    b.build (t.withField field) = (b.build t).withField field := by
  obtain ⟨rule, isNamed, field', start, stop, _ | ⟨c, cs⟩, isExtra⟩ := t <;> rfl

theorem Node.place_withField (index : LineIndex) (offset : Nat) (n : Node) (field : Option String) :
    (n.withField field).place index offset = (n.place index offset).withField field := by
  cases n <;> rfl

namespace RangedTree

theorem wellNested_withField {t : RangedTree} {field : Option String} :
    (t.withField field).WellNested source ↔ t.WellNested source := by
  rw [wellNested_iff, wellNested_iff]
  rfl

variable {t : RangedTree} {n : Node}

theorem Becomes.field_eq (h : t.Becomes source before n) : t.field = n.field := by
  rw [← TreeBuilder.field_build (.ofSource source), h.build_eq, Node.field_place]

theorem Becomes.withField (h : t.Becomes source before n) (field : Option String) :
    (t.withField field).Becomes source before (n.withField field) where
  start_eq := h.start_eq
  stop_eq := by
    rw [Node.text_withField]
    exact h.stop_eq
  wellNested := wellNested_withField.2 h.wellNested
  build_eq := by rw [TreeBuilder.build_withField, h.build_eq, Node.place_withField]

/-- A node is nested together with what comes behind it. -/
theorem Becomes.nestedAmong_cons {rest : String} {ts : List RangedTree} {offset : Nat}
    (h : t.Becomes source before n) (hoffset : offset ≤ byteLength before)
    (hrest : NestedAmong source (byteLength (before ++ n.text.toList))
      (byteLength (before ++ n.text.toList ++ rest.toList)) ts) :
    NestedAmong source offset (byteLength (before ++ (n.text ++ rest).toList)) (t :: ts) := by
  refine ⟨by rwa [h.start_eq], h.wellNested, ?_⟩
  rw [h.stop_eq, String.toList_append, ← List.append_assoc]
  exact hrest

end RangedTree

/-! ### Parts and their ranges -/

namespace Item

/-- Whether trees over byte ranges become the nodes among some parts that stand behind a text. -/
inductive Shows (source : String) : List Char → List Item → List RangedTree → Prop
  | nil {before : List Char} : Shows source before [] []
  | gap {before : List Char} (text : String) {is : List Item} {ts : List RangedTree}
      (rest : Shows source (before ++ text.toList) is ts) : Shows source before (.gap text :: is) ts
  | node {before : List Char} {n : Node} {t : RangedTree} {is : List Item} {ts : List RangedTree}
      (becomes : t.Becomes source before n) (isExtra : t.isExtra = false)
      (rest : Shows source (before ++ n.text.toList) is ts) :
      Shows source before (.node n :: is) (t :: ts)
  | extra {before : List Char} {n : Node} {t : RangedTree} {is : List Item} {ts : List RangedTree}
      (becomes : t.Becomes source before n) (isExtra : t.isExtra = true)
      (rest : Shows source (before ++ n.text.toList) is ts) :
      Shows source before (.extra n :: is) (t :: ts)

namespace Shows

variable {is js : List Item} {ts us : List RangedTree}

theorem append (h : Shows source before is ts)
    (h' : Shows source (before ++ (textAll is).toList) js us) :
    Shows source before (is ++ js) (ts ++ us) := by
  induction h with
  | nil => simpa using h'
  | gap _ _ ih => exact .gap _ (ih (by simpa [Item.text] using h'))
  | node hbecomes hextra _ ih => exact .node hbecomes hextra (ih (by simpa [Item.text] using h'))
  | extra hbecomes hextra _ ih => exact .extra hbecomes hextra (ih (by simpa [Item.text] using h'))

/-- Roles are given to the same nodes. -/
theorem inRole (role? : Option String) (h : Shows source before is ts) :
    Shows source before (is.map (.inRole role?)) (ts.map (.inRole role?)) := by
  induction h with
  | nil => exact .nil
  | gap _ _ ih => exact .gap _ ih
  | @node before n t is ts hbecomes hextra _ ih =>
    simp only [List.map_cons, Item.inRole, RangedTree.inRole, hextra, Bool.false_or,
      hbecomes.field_eq]
    split
    · exact .node hbecomes hextra ih
    · exact .node (hbecomes.withField role?) hextra (by simpa using ih)
  | extra hbecomes hextra _ ih =>
    simp only [List.map_cons, Item.inRole, RangedTree.inRole, hextra, Bool.true_or, if_true]
    exact .extra hbecomes hextra ih

theorem any_isNode (h : Shows source before is ts) : is.any isNode = !ts.isEmpty := by
  induction h with
  | nil => rfl
  | gap _ _ ih => simpa [isNode] using ih
  | node => simp [isNode]
  | extra => simp [isNode]

/-- The ranges of nodes behind each other are nested in that of all parts. -/
theorem nestedAmong (h : Shows source before is ts) {offset : Nat}
    (hoffset : offset ≤ byteLength before) :
    RangedTree.NestedAmong source offset (byteLength (before ++ (textAll is).toList)) ts := by
  induction h generalizing offset with
  | nil => simpa [RangedTree.NestedAmong] using hoffset
  | gap _ _ ih =>
    rw [textAll_cons, Item.text, String.toList_append, ← List.append_assoc]
    exact ih (by rw [byteLength_append]; omega)
  | node hbecomes _ _ ih =>
    rw [textAll_cons]
    exact hbecomes.nestedAmong_cons hoffset (ih (Nat.le_refl _))
  | extra hbecomes _ _ ih =>
    rw [textAll_cons]
    exact hbecomes.nestedAmong_cons hoffset (ih (Nat.le_refl _))

end Shows

end Item

/-! ### Closing gaps -/

/-- The gap behind an offset is the text that was passed, unless there is none. -/
theorem TreeBuilder.gap_append_placeAll {passed : String} (ns : List Node)
    (h : source.toList = before ++ passed.toList ++ after) :
    (ofSource source).gap (byteLength before) (byteLength (before ++ passed.toList)) ++
        Node.placeAll (.ofText source) (byteLength (before ++ passed.toList)) ns =
      Node.placeAll (.ofText source) (byteLength before)
        (if passed.isEmpty then ns else .trivia passed .nowhere :: ns) := by
  have hslice := slice_eq ⟨before, after, h, rfl, rfl⟩
  rw [gap, hslice, byteLength_append, ← utf8ByteSize_eq_byteLength]
  by_cases hempty : passed = ""
  · simp [hempty]
  · have hpos : 0 < passed.utf8ByteSize := by
      rw [Nat.pos_iff_ne_zero, Ne, String.utf8ByteSize_eq_zero_iff]
      exact hempty
    simp [hempty, hpos, Node.placeAll, Node.place, Node.trivia, ofSource, Node.text]

/-- A node behind a gap, and what comes behind it. -/
theorem RangedTree.Becomes.buildAmong_cons {passed rest : String} {n : Node} {t : RangedTree}
    {ns : List Node} {ts : List RangedTree} (h : t.Becomes source (before ++ passed.toList) n)
    (hsource : source.toList = before ++ passed.toList ++ (n.text ++ rest).toList ++ after)
    (hrest : (TreeBuilder.ofSource source).buildAmong
        (byteLength (before ++ passed.toList ++ n.text.toList))
        (byteLength (before ++ passed.toList ++ n.text.toList ++ rest.toList)) ts =
      Node.placeAll (.ofText source) (byteLength (before ++ passed.toList ++ n.text.toList)) ns) :
    (TreeBuilder.ofSource source).buildAmong (byteLength before)
        (byteLength (before ++ passed.toList ++ (n.text ++ rest).toList)) (t :: ts) =
      Node.placeAll (.ofText source) (byteLength before)
        (if passed.isEmpty then n :: ns else .trivia passed .nowhere :: n :: ns) := by
  have hmax : max (byteLength before) t.stop = t.stop := by
    rw [h.stop_eq, byteLength_append, byteLength_append]
    omega
  have hnode : Node.placeAll (.ofText source) (byteLength (before ++ passed.toList)) (n :: ns) =
      n.place (.ofText source) (byteLength (before ++ passed.toList)) ::
        Node.placeAll (.ofText source) (byteLength (before ++ passed.toList ++ n.text.toList))
          ns := by
    rw [Node.placeAll, utf8ByteSize_eq_byteLength, ← byteLength_append]
  rw [String.toList_append, ← List.append_assoc] at hsource ⊢
  rw [TreeBuilder.buildAmong, hmax, h.start_eq, h.stop_eq, h.build_eq, hrest, ← hnode,
    TreeBuilder.gap_append_placeAll (n :: ns)
      (by rw [hsource, List.append_assoc, List.append_assoc _ n.text.toList])]

namespace Item.Shows

variable {is : List Item} {ts : List RangedTree} {passed : String}

/-- **The running offset closes the gaps** between parts: what lies behind it in front of a node is
the text that was passed since the last one. -/
theorem buildAmong_eq (h : Shows source (before ++ passed.toList) is ts)
    (hsource : source.toList = before ++ passed.toList ++ (textAll is).toList ++ after) :
    (TreeBuilder.ofSource source).buildAmong (byteLength before)
        (byteLength (before ++ passed.toList ++ (textAll is).toList)) ts =
      Node.placeAll (.ofText source) (byteLength before) (close passed is) := by
  generalize hplace : before ++ passed.toList = place at h
  induction h generalizing before passed with
  | nil =>
    have hgap := TreeBuilder.gap_append_placeAll [] (by simpa using hsource)
    simpa [TreeBuilder.buildAmong, Node.placeAll, close, hplace] using hgap
  | @gap place text is ts _ ih =>
    have hplace' : before ++ (passed ++ text).toList = place ++ text.toList := by
      rw [← hplace, String.toList_append, List.append_assoc]
    have hpassed := ih (by rw [hplace']; simpa [hplace, Item.text] using hsource) hplace'
    simpa [close, Item.text, ← List.append_assoc, hplace] using hpassed
  | node hbecomes _ _ ih =>
    subst hplace
    rw [textAll_cons, Item.text] at hsource ⊢
    exact hbecomes.buildAmong_cons hsource
      (by simpa using @ih _ "" (by simpa using hsource) (by simp))
  | extra hbecomes _ _ ih =>
    subst hplace
    rw [textAll_cons, Item.text] at hsource ⊢
    exact hbecomes.buildAmong_cons hsource
      (by simpa using @ih _ "" (by simpa using hsource) (by simp))

/-- **A node is made of its parts** in the same way. -/
theorem becomes_build (h : Shows source before is ts)
    (hsource : source.toList = before ++ (textAll is).toList ++ after) (rule : String)
    (isNamed : Bool) (field : Option String) (isExtra : Bool) :
    RangedTree.Becomes source before
      ⟨rule, isNamed, field, byteLength before, byteLength (before ++ (textAll is).toList), ts,
        isExtra⟩
      (build (ruleLabel rule isNamed field) is) where
  start_eq := rfl
  stop_eq := by rw [text_build]
  wellNested := by
    refine ⟨by rw [byteLength_append]; omega, ⟨before, _, by simpa using hsource, rfl⟩,
      ⟨_, after, hsource, rfl⟩, h.nestedAmong (Nat.le_refl _)⟩
  build_eq := by
    have hlength : byteLength (before ++ (textAll is).toList) =
        byteLength before + (textAll is).utf8ByteSize := by
      rw [byteLength_append, utf8ByteSize_eq_byteLength]
    cases ts with
    | nil =>
      rw [build, h.any_isNode, if_neg (by simp), Node.place]
      have hslice := TreeBuilder.slice_eq ⟨before, after, hsource, rfl, rfl⟩
      rw [TreeBuilder.build, hslice, hlength]
      rfl
    | cons t ts =>
      have hamong := @buildAmong_eq source before after is (t :: ts) "" (by simpa using h)
        (by simpa using hsource)
      rw [build, h.any_isNode, if_pos (by simp), Node.place, textAll_close, String.empty_append,
        ← hlength, TreeBuilder.build]
      simp only [String.toList_empty, List.append_nil] at hamong
      rw [hamong]
      rfl

end Item.Shows

/-! ### Concrete trees -/

/-- Parts that show in a way, and their ranges. -/
theorem Item.Shows.dress {is : List Item} {ts : List RangedTree} (h : Shows source before is ts)
    (hsource : source.toList = before ++ (textAll is).toList ++ after) (guise : Guise)
    (role? : Option String) :
    Shows source before (DocBlocks.dress guise role? is)
      (RangedTree.dressed guise role? (byteLength before)
        (byteLength (before ++ (textAll is).toList)) ts) := by
  cases guise with
  | hidden => exact h.inRole role?
  | bare kind => exact .node (h.becomes_build hsource kind false role? false) rfl .nil
  | named kind => exact .node (h.becomes_build hsource kind true role? false) rfl .nil

theorem RangedTree.becomes_leaf {text : String}
    (hsource : source.toList = before ++ text.toList ++ after) (rule : String) (isNamed : Bool)
    (field : Option String) (isExtra : Bool) :
    Becomes source before
      ⟨rule, isNamed, field, byteLength before, byteLength (before ++ text.toList), [], isExtra⟩
      (.leaf (ruleLabel rule isNamed field) text) := by
  have hshows : Item.Shows source before [.gap text] [] := .gap text .nil
  have hleaf := hshows.becomes_build (by simpa [Item.text] using hsource) rule isNamed field isExtra
  simpa [Item.build, Item.isNode, Item.text] using hleaf

theorem shows_leafUnlessEmpty {text : String}
    (hsource : source.toList = before ++ text.toList ++ after) (rule : String) :
    Item.Shows source before (leafUnlessEmpty rule text)
      (RangedTree.leafUnlessNil rule (byteLength before) (byteLength (before ++ text.toList))) := by
  unfold leafUnlessEmpty RangedTree.leafUnlessNil
  by_cases hempty : text = ""
  · simpa [hempty] using Item.Shows.nil
  · have hlt : byteLength before < byteLength (before ++ text.toList) := by
      rw [byteLength_append, ← utf8ByteSize_eq_byteLength text, Nat.lt_add_right_iff_pos,
        Nat.pos_iff_ne_zero, Ne, String.utf8ByteSize_eq_zero_iff]
      exact hempty
    rw [if_neg (by simpa using hempty), if_pos hlt]
    exact .node (RangedTree.becomes_leaf hsource rule true none false) rfl .nil

/-- An island becomes its node. -/
theorem Island.becomes_range (i : Island)
    (hsource : source.toList = before ++ i.source.toList ++ after) :
    (i.range (byteLength before)).Becomes source before i.node := by
  simp only [Island.source, String.toList_append] at hsource
  have hclosing := RangedTree.becomes_leaf
    (show source.toList = before ++ closingTag.toList ++ (i.gap.toList ++ i.text.toList ++
      i.gapAfter.toList ++ i.tag.toList ++ after) by simpa using hsource)
    "php_end_tag" true none false
  have hmarkup := shows_leafUnlessEmpty
    (show source.toList = before ++ closingTag.toList ++ i.gap.toList ++ i.text.toList ++
      (i.gapAfter.toList ++ i.tag.toList ++ after) by simpa using hsource) "text"
  have htag := shows_leafUnlessEmpty
    (show source.toList = before ++ closingTag.toList ++ i.gap.toList ++ i.text.toList ++
      i.gapAfter.toList ++ i.tag.toList ++ after by simpa using hsource) "php_tag"
  have hparts := Item.Shows.node hclosing rfl
    (.gap i.gap (hmarkup.append (.gap i.gapAfter (by simpa using htag))))
  have hnode := hparts.becomes_build (by simpa [Item.text] using hsource) "text_interpolation" true
    none true
  -- the closing tag is never missing
  have hlt : byteLength before < byteLength (before ++ closingTag.toList) := by
    rw [byteLength_append]
    exact Nat.lt_add_of_pos_right (by decide)
  simpa [Island.range, Island.node, RangedTree.leafUnlessNil, byteLength_add_utf8ByteSize, hlt,
    Item.text] using hnode

namespace Concrete

variable {book : RuleBook}

/-- Whether a tree gives parts and the ranges of those that are nodes, wherever it stands in a
source. -/
def Shown (book : RuleBook) (source : String) (c : Concrete) : Prop :=
  ∀ {before after : List Char} (post : Post), source.toList = before ++ c.text.toList ++ after →
    ∃ ts, c.ranges book post (byteLength before) = (ts, byteLength (before ++ c.text.toList)) ∧
      Item.Shows source (before ++ c.lead.toList) (c.items book post) ts

/-- The parts that trees give behind each other, and their ranges. -/
theorem shows_rangesAmong {cs : List Concrete} (hcs : ∀ c ∈ cs, c.Shown book source)
    (posts : List Post) (hsource : source.toList = before ++ (textAll cs).toList ++ after) :
    ∃ ts, rangesAmong book posts (byteLength before) cs =
        (ts, byteLength (before ++ (textAll cs).toList)) ∧
      Item.Shows source before (itemsMore book posts cs) ts := by
  induction cs generalizing posts before with
  | nil => exact ⟨[], by simp [rangesAmong, textAll], .nil⟩
  | cons c cs ih =>
    have htext := c.lead_append_textAll_items book (posts.headD .plain)
    simp only [textAll, String.toList_append, List.append_assoc] at hsource
    have hfront : source.toList = before ++ c.text.toList ++ ((textAll cs).toList ++ after) := by
      simpa using hsource
    have hback : source.toList = before ++ c.text.toList ++ (textAll cs).toList ++ after := by
      simpa using hsource
    obtain ⟨ts, hranges, hshows⟩ := hcs c List.mem_cons_self (posts.headD .plain) hfront
    obtain ⟨us, hamong, hrest⟩ := ih (fun d hd => hcs d (List.mem_cons_of_mem _ hd))
      (if c.isExtra then posts else posts.tail) hback
    refine ⟨ts ++ us, ?_, ?_⟩
    · simp only [rangesAmong, hranges, hamong]
      simp [textAll]
    · rw [itemsMore]
      refine .gap _ (hshows.append ?_)
      rwa [List.append_assoc, ← String.toList_append, htext]

/-- The parts of a phrase that shows in a way. The gap in front of the first one stays outside. -/
theorem shows_dress_itemsFirst {parts : List Concrete} (hparts : ∀ c ∈ parts, c.Shown book source)
    (p : Nat) (hsource : source.toList = before ++ (textAll parts).toList ++ after)
    (posts : List Post) (guise : Guise) (role? : Option String) :
    ∃ ts, rangesAmong book posts (byteLength before) parts =
        (ts, byteLength (before ++ (textAll parts).toList)) ∧
      Item.Shows source (before ++ (phrase p parts).lead.toList)
        (dress guise role? (itemsFirst book posts parts))
        (RangedTree.dressed guise role?
          (byteLength before + (phrase p parts).lead.utf8ByteSize)
          (byteLength (before ++ (textAll parts).toList)) ts) := by
  obtain ⟨ts, hranges, hshows⟩ := shows_rangesAmong hparts posts hsource
  have hfirst : Item.Shows source (before ++ (phrase p parts).lead.toList)
      (itemsFirst book posts parts) ts := by
    cases parts with
    | nil => simpa [lead, itemsFirst, itemsMore] using hshows
    | cons c cs =>
      cases hshows with
      | gap _ hshows => exact hshows
  have htext : (phrase p parts).lead ++ Item.textAll (itemsFirst book posts parts) =
      textAll parts :=
    lead_append_textAll_itemsFirst fun c _ post => c.lead_append_textAll_items book post
  have hpiece : source.toList = before ++ (phrase p parts).lead.toList ++
      (Item.textAll (itemsFirst book posts parts)).toList ++ after := by
    rw [hsource, ← htext]
    simp
  have hdressed := hfirst.dress hpiece guise role?
  refine ⟨ts, hranges, ?_⟩
  rw [byteLength_add_utf8ByteSize, ← htext]
  simpa using hdressed

/-- **Trees give parts, and the ranges of those that are nodes.** -/
theorem shows_ranges (book : RuleBook) (c : Concrete) : c.Shown book source := by
  induction c using treeInduction with
  | token t gap text =>
    intro before after post hsource
    rw [Concrete.text, String.toList_append, ← List.append_assoc] at hsource
    have htext : Item.Shows source (before ++ gap.toList) [.gap text] [] := .gap text .nil
    have hshows := htext.dress (by simpa [Item.text] using hsource)
      (post.guise?.getD (book.guiseOf t)) post.role?
    refine ⟨_, ?_, by simpa [items, lead] using hshows⟩
    simp [ranges, Concrete.text, Item.text, byteLength_add_utf8ByteSize]
  | comment gap text =>
    intro before after post hsource
    rw [Concrete.text, String.toList_append, ← List.append_assoc] at hsource
    have hleaf := RangedTree.becomes_leaf hsource "comment" true none true
    refine ⟨_, ?_, by simpa [items, lead] using .extra hleaf rfl .nil⟩
    simp [ranges, Concrete.text, byteLength_add_utf8ByteSize]
  | island gap i =>
    intro before after post hsource
    rw [Concrete.text, String.toList_append, ← List.append_assoc] at hsource
    have hnode := i.becomes_range hsource
    refine ⟨_, ?_, by simpa [items, lead] using .extra hnode rfl .nil⟩
    rw [ranges, byteLength_add_utf8ByteSize, hnode.stop_eq, i.text_node]
    simp [Concrete.text]
  | phrase p parts ih =>
    intro before after post hsource
    rw [Concrete.text] at hsource
    rw [ranges, items, Concrete.text]
    -- a phrase of no production is nothing but its parts
    cases hproduction : book.productions[p]? with
    | none =>
      obtain ⟨ts, hranges, hshows⟩ :=
        shows_dress_itemsFirst ih p hsource [] .hidden post.role?
      simp only [hranges]
      exact ⟨_, rfl, hshows⟩
    | some r =>
      obtain ⟨ts, hranges, hshows⟩ := shows_dress_itemsFirst ih p hsource r.posts
        (post.guise?.getD (book.guiseOf r.head)) post.role?
      simp only [hranges]
      exact ⟨_, rfl, hshows⟩

/-- The parts of a root and their ranges. -/
theorem shows_rootRanges (book : RuleBook) (cs : List Concrete)
    (hsource : source.toList = before ++ (textAll cs).toList ++ after) :
    Item.Shows source before (rootItems book cs) (rootRanges book (byteLength before) cs) := by
  induction cs generalizing before with
  | nil => exact .nil
  | cons c cs ih =>
    simp only [textAll, String.toList_append, List.append_assoc] at hsource
    have hfront : source.toList = before ++ c.text.toList ++ ((textAll cs).toList ++ after) := by
      simpa using hsource
    have hback : source.toList = before ++ c.text.toList ++ (textAll cs).toList ++ after := by
      simpa using hsource
    obtain ⟨ts, hranges, hshows⟩ := shows_ranges book c ⟨none, some .hidden⟩ hfront
    have hrest := ih hback
    have hitems : c.items book ⟨none, if c.isExtra then none else some .hidden⟩ =
        c.items book ⟨none, some .hidden⟩ := by
      cases c <;> rfl
    have htext := c.lead_append_textAll_items book ⟨none, some .hidden⟩
    rw [rootItems, hitems, rootRanges, hranges]
    refine .gap _ (hshows.append ?_)
    rwa [List.append_assoc, ← String.toList_append, htext]

end Concrete

/-! ### Roots -/

namespace Parsed

variable (book : RuleBook) (p : Parsed)

/-- The parts of the root fill the source. -/
theorem shows_ranges : Item.Shows p.text [] (Concrete.rootItems book p.trees ++ [.gap p.tail])
    (Concrete.rootRanges book 0 p.trees) := by
  have hsource : p.text.toList = [] ++ (Concrete.textAll p.trees).toList ++ p.tail.toList := by
    simp [Parsed.text]
  have htrees := Concrete.shows_rootRanges book p.trees hsource
  simpa [byteLength] using htrees.append (.gap p.tail .nil)

theorem textAll_rootItems_append :
    Item.textAll (Concrete.rootItems book p.trees ++ [.gap p.tail]) = p.text := by
  simp [Concrete.textAll_rootItems, Item.text, Parsed.text]

/-- **What was read has well nested ranges.** -/
theorem wellNested_ranges : (p.ranges book).WellNested p.text := by
  have hnested := (p.shows_ranges book).nestedAmong (Nat.zero_le _)
  rw [List.nil_append, p.textAll_rootItems_append book, ← utf8ByteSize_eq_byteLength] at hnested
  have hend := onBoundary_utf8ByteSize p.text
  rw [RangedTree.wellNested_iff, Parsed.ranges]
  dsimp only
  cases hinner : Concrete.rootRanges book 0 p.trees with
  | nil => exact ⟨Nat.le_refl _, hend, hend, Nat.le_refl _⟩
  | cons t ts =>
    rw [hinner] at hnested
    obtain ⟨-, ht, hts⟩ := hnested
    exact ⟨ht.le.trans (hts.le), ht.onBoundary_start, hend, Nat.le_refl _, ht, hts⟩

/-- A root of parts that are the whole source, placed in it. -/
theorem placeIn_branch_close {is : List Item} {ts : List RangedTree}
    (h : Item.Shows p.text [] is ts) (htext : Item.textAll is = p.text) :
    (Node.branch (ruleLabel "program" true none) (Item.close "" is)).placeIn p.text =
      .branch ((TreeBuilder.ofSource p.text).label (p.ranges book) none 0 p.text.utf8ByteSize)
        ((TreeBuilder.ofSource p.text).buildAmong 0 p.text.utf8ByteSize ts) := by
  have hamong := @Item.Shows.buildAmong_eq p.text [] [] is ts "" h (by simp [htext])
  simp only [String.toList_empty, List.append_nil, List.nil_append, htext,
    ← utf8ByteSize_eq_byteLength, byteLength] at hamong
  rw [hamong, Node.placeIn, Node.place, Item.textAll_close, htext, String.empty_append,
    Nat.zero_add]
  rfl

/-- **The tree by ranges is the tree by texts**, placed in the source. -/
theorem syntaxTree_ranges : (p.ranges book).syntaxTree p.text = (p.root book).placeIn p.text := by
  have hshows := p.shows_ranges book
  have htext := p.textAll_rootItems_append book
  have hany := hshows.any_isNode
  rw [RangedTree.syntaxTree, Parsed.root]
  cases hinner : Concrete.rootRanges book 0 p.trees with
  | nil =>
    -- the root that is put in is an empty leaf behind the text
    rw [hinner] at hshows hany
    have hleaf := RangedTree.becomes_leaf
      (show p.text.toList = p.text.toList ++ "".toList ++ [] by simp) "program" true none false
    have hall := hshows.append (.node (by simpa [htext] using hleaf) rfl .nil)
    have hchildren : (p.ranges book).children = [] := hinner
    have hstart : (p.ranges book).start = p.text.utf8ByteSize := by simp [ranges, hinner]
    rw [if_neg (by simp [hany]), p.placeIn_branch_close book hall]
    · simp only [TreeBuilder.buildRoot, hchildren, hstart, List.nil_append, TreeBuilder.buildAmong,
        ← utf8ByteSize_eq_byteLength, Nat.zero_max]
      rfl
    · rw [Item.textAll_append, htext]
      simp [Item.text]
  | cons t ts =>
    rw [hinner] at hshows hany
    have hchildren : (p.ranges book).children = t :: ts := hinner
    rw [if_pos (by simpa using hany), p.placeIn_branch_close book hshows htext]
    simp only [TreeBuilder.buildRoot, hchildren]
    rfl

end Parsed

/-! ### Trees of sources -/

variable {root : Node}

theorem parseWith_eq_ok {read : String → Option RangedTree} :
    parseWith read source = .ok root ↔
      isAllBlank source = false ∧ ∃ t, read source = some t ∧ t.syntaxTree source = root := by
  unfold parseWith
  split
  · simp_all
  · split <;> simp_all

theorem gapsClosed_of_sourceTree? (h : sourceTree? source = some root) :
    ∀ d ∈ root.descendants, Node.GapsClosed d.children := by
  obtain ⟨p, -, rfl⟩ := Option.map_eq_some_iff.1 h
  exact p.gapsClosed_root sourceRules

/-- What is read of a source is well nested. -/
theorem wellNested_of_sourceRanges? {t : RangedTree} (h : sourceRanges? source = some t) :
    t.WellNested source := by
  obtain ⟨p, hp, rfl⟩ := Option.map_eq_some_iff.1 h
  obtain ⟨rfl, -⟩ := parse?_sound RuleBook.begunRight_sourceRules hp
  exact p.wellNested_ranges sourceRules

/-- The root of what is read of a source is a program. -/
theorem kind_of_sourceRanges? {t : RangedTree} (h : sourceRanges? source = some t) :
    t.kind = .program := by
  obtain ⟨p, -, rfl⟩ := Option.map_eq_some_iff.1 h
  rfl

/-- The tree that is made of what is read of a source is that of the texts, placed. -/
theorem sourceRanges?_syntaxTree (source : String) :
    (sourceRanges? source).map (·.syntaxTree source) =
      (sourceTree? source).map (·.placeIn source) := by
  rw [sourceRanges?, sourceTree?, Option.map_map, Option.map_map]
  refine Option.map_congr fun p hp => ?_
  obtain ⟨rfl, -⟩ := parse?_sound RuleBook.begunRight_sourceRules hp
  exact p.syntaxTree_ranges sourceRules

theorem exists_sourceTree?_of_sourceRanges? {t : RangedTree} (h : sourceRanges? source = some t) :
    ∃ tree, sourceTree? source = some tree ∧ tree.placeIn source = t.syntaxTree source := by
  rw [← Option.map_eq_some_iff, ← sourceRanges?_syntaxTree, h, Option.map_some]

/-- **When a source has a tree**, and which one. -/
theorem parseSource_eq_ok : parseSource source = .ok root ↔
    isAllBlank source = false ∧
      ∃ tree, sourceTree? source = some tree ∧ tree.placeIn source = root := by
  rw [parseSource, parseWith_eq_ok, ← Option.map_eq_some_iff, sourceRanges?_syntaxTree,
    Option.map_eq_some_iff]

end DocBlocks
