import DocBlocks.Proofs.Syntax.Origin

/-!
# Properties of nodes and of the text behind them

`Parsed.along_root`: a property of nodes and the text behind them holds of all nodes of a source, if
it holds of trivia, of the extras that were found, and of every node that a tree shows as
(`Concrete.ShowsAs`). What stands behind a node in its source stands behind the tree that the node
was built of, so each tree is looked at together with the text that it was found in front of.
-/

namespace DocBlocks

variable {P : Node → List Char → Prop} {after : List Char}

/-! ### Along a tree -/

namespace Node

mutual

/-- Whether a property holds of all nodes of a tree, each taken with the text behind it, given the
text behind the tree. -/
def Along (P : Node → List Char → Prop) (after : List Char) : Node → Prop
  | leaf l t => P (leaf l t) after
  | branch l cs => P (branch l cs) after ∧ AlongAll P after cs

/-- Whether it holds of all nodes of neighbouring trees. -/
def AlongAll (P : Node → List Char → Prop) (after : List Char) : List Node → Prop
  | [] => True
  | n :: ns => n.Along P ((textAll ns).toList ++ after) ∧ AlongAll P after ns

end

theorem along_iff {n : Node} :
    n.Along P after ↔ P n after ∧ AlongAll P after n.children := by
  cases n <;> simp [Along, AlongAll]

theorem alongAll_append {xs ys : List Node} :
    AlongAll P after (xs ++ ys) ↔
      AlongAll P ((textAll ys).toList ++ after) xs ∧ AlongAll P after ys := by
  induction xs with
  | nil => simp [AlongAll]
  | cons x xs ih => simp [AlongAll, ih, textAll_append, and_assoc]

theorem Along.withField {n : Node} (h : n.Along P after)
    (hfield : ∀ n f after, P n after → P (n.withField f) after) (f : Option String) :
    (n.withField f).Along P after := by
  rw [along_iff] at h ⊢
  rw [children_withField]
  exact ⟨hfield n f after h.1, h.2⟩

theorem Along.mono {Q : Node → List Char → Prop} {n : Node} (h : n.Along P after)
    (hPQ : ∀ n after, P n after → Q n after) : n.Along Q after := by
  induction n using treeInduction generalizing after with
  | leaf l t => exact hPQ _ _ h
  | branch l cs ih =>
    refine ⟨hPQ _ _ h.1, ?_⟩
    replace h := h.2
    induction cs with
    | nil => trivial
    | cons c cs ihcs =>
      exact ⟨ih c List.mem_cons_self h.1, ihcs (fun d hd => ih d (List.mem_cons_of_mem _ hd)) h.2⟩

theorem Along.and {Q : Node → List Char → Prop} {n : Node} (hP : n.Along P after)
    (hQ : n.Along Q after) : n.Along (fun n after => P n after ∧ Q n after) after := by
  induction n using treeInduction generalizing after with
  | leaf l t => exact ⟨hP, hQ⟩
  | branch l cs ih =>
    refine ⟨⟨hP.1, hQ.1⟩, ?_⟩
    replace hP := hP.2
    replace hQ := hQ.2
    induction cs with
    | nil => trivial
    | cons c cs ihcs =>
      refine ⟨ih c List.mem_cons_self hP.1 hQ.1, ?_⟩
      exact ihcs (fun d hd => ih d (List.mem_cons_of_mem _ hd)) hP.2 hQ.2

/-- What holds of all nodes holds along the tree, whatever stands behind it. -/
theorem along_of_descendants {Q : Node → Prop} {n : Node} (h : ∀ d ∈ n.descendants, Q d)
    (after : List Char) : n.Along (fun n _ => Q n) after := by
  induction n using treeInduction generalizing after with
  | leaf l t => exact h _ (self_mem_descendants _)
  | branch l cs ih =>
    refine ⟨h _ (self_mem_descendants _), ?_⟩
    have hcs : ∀ c ∈ cs, ∀ d ∈ c.descendants, Q d :=
      fun c hc d hd => h d (mem_descendants_branch.2 (.inr ⟨c, hc, hd⟩))
    clear h
    induction cs with
    | nil => trivial
    | cons c cs ihcs =>
      refine ⟨ih c List.mem_cons_self (hcs c List.mem_cons_self) _, ?_⟩
      exact ihcs (fun d hd => ih d (List.mem_cons_of_mem _ hd))
        fun d hd => hcs d (List.mem_cons_of_mem _ hd)

/-- **Where a node below the root gets to**, with what holds along it and the text behind it. -/
theorem Along.exists_of_mem_descendants {index : LineIndex} {offset : Nat} {n d : Node}
    (h : n.Along P after) (hd : d ∈ (n.place index offset).descendants) :
    ∃ (m : Node) (front back : List Char), n.text.toList = front ++ m.text.toList ++ back ∧
      d = m.place index (offset + byteLength front) ∧ m.Along P (back ++ after) := by
  induction n using treeInduction generalizing offset after with
  | leaf l t =>
    obtain rfl := mem_descendants_leaf.1 hd
    exact ⟨.leaf l t, [], [], by simp, rfl, h⟩
  | branch l cs ih =>
    rcases mem_descendants_branch.1 hd with rfl | ⟨c', hc', hd⟩
    · exact ⟨.branch l cs, [], [], by simp, rfl, h⟩
    · -- in front of the node are its elder siblings' texts, on every level, and behind it the
      -- others'
      obtain ⟨xs, c, ys, rfl, rfl⟩ := exists_place_of_mem_placeAll hc'
      have hc := (alongAll_append.1 (along_iff.1 h).2).2.1
      obtain ⟨m, front, back, htext, rfl, hm⟩ := ih c (by simp) hc hd
      refine ⟨m, (textAll xs).toList ++ front, back ++ (textAll ys).toList, ?_, ?_, ?_⟩
      · simp [textAll_append, htext]
      · rw [byteLength_append, Nat.add_assoc]
      · rwa [List.append_assoc]

end Node

/-! ### Along parts -/

namespace Item

/-- Whether a property holds of all nodes of a part, given the text behind it. -/
def Along (P : Node → List Char → Prop) (after : List Char) : Item → Prop
  | gap _ => True
  | node n => n.Along P after
  | extra n => n.Along P after

/-- Whether it holds of all nodes of neighbouring parts. -/
def AlongAll (P : Node → List Char → Prop) (after : List Char) : List Item → Prop
  | [] => True
  | i :: is => i.Along P ((textAll is).toList ++ after) ∧ AlongAll P after is

theorem alongAll_append {xs ys : List Item} :
    AlongAll P after (xs ++ ys) ↔
      AlongAll P ((textAll ys).toList ++ after) xs ∧ AlongAll P after ys := by
  induction xs with
  | nil => simp [AlongAll]
  | cons x xs ih => simp [AlongAll, ih, and_assoc]

/-- Closing gaps moves nothing. -/
theorem alongAll_close {passed : String} {is : List Item}
    (htrivia : ∀ t after, P (.trivia t .nowhere) after) (h : AlongAll P after is) :
    Node.AlongAll P after (close passed is) := by
  have hgap : ∀ t after, (Node.trivia t .nowhere).Along P after := htrivia
  induction is generalizing passed with
  | nil =>
    simp only [close]
    split
    · trivial
    · exact ⟨hgap _ _, trivial⟩
  | cons i is ih =>
    obtain ⟨hi, his⟩ := h
    have hnode : ∀ n : Node, n.Along P ((textAll is).toList ++ after) →
        Node.AlongAll P after (if passed.isEmpty then n :: close "" is
          else .trivia passed .nowhere :: n :: close "" is) := by
      intro n hn
      have hcons : Node.AlongAll P after (n :: close "" is) :=
        ⟨by simpa [textAll_close] using hn, ih his⟩
      split
      · exact hcons
      · exact ⟨hgap _ _, hcons⟩
    cases i with
    | gap t => exact ih his
    | node n => exact hnode n hi
    | extra n => exact hnode n hi

theorem along_build {l : Label} {is : List Item}
    (htrivia : ∀ t after, P (.trivia t .nowhere) after) (hown : P (build l is) after)
    (h : AlongAll P after is) : (build l is).Along P after := by
  refine Node.along_iff.2 ⟨hown, ?_⟩
  simp only [build]
  split
  · exact alongAll_close htrivia h
  · trivial

theorem Along.inRole {i : Item} (h : i.Along P after)
    (hfield : ∀ n f after, P n after → P (n.withField f) after) (role? : Option String) :
    (i.inRole role?).Along P after := by
  cases i with
  | gap t => trivial
  | extra n => exact h
  | node n =>
    simp only [Item.inRole]
    split
    · exact h
    · exact Node.Along.withField h hfield role?

theorem alongAll_map_inRole {is : List Item} (h : AlongAll P after is)
    (hfield : ∀ n f after, P n after → P (n.withField f) after) (role? : Option String) :
    AlongAll P after (is.map (.inRole role?)) := by
  induction is with
  | nil => trivial
  | cons i is ih =>
    have htext : textAll (is.map (.inRole role?)) = textAll is := textAll_dress .hidden role? is
    refine ⟨?_, ih h.2⟩
    rw [htext]
    exact h.1.inRole hfield role?

end Item

theorem alongAll_dress {guise : Guise} {role? : Option String} {is : List Item}
    (hfield : ∀ n f after, P n after → P (n.withField f) after)
    (htrivia : ∀ t after, P (.trivia t .nowhere) after)
    (hown : ∀ rule named, guise.rule? = some rule →
      P (Item.build (ruleLabel rule named role?) is) after)
    (h : Item.AlongAll P after is) : Item.AlongAll P after (dress guise role? is) := by
  cases guise with
  | hidden => exact Item.alongAll_map_inRole h hfield role?
  | bare kind => exact ⟨Item.along_build htrivia (hown kind false rfl) h, trivial⟩
  | named kind => exact ⟨Item.along_build htrivia (hown kind true rfl) h, trivial⟩

/-- An island is made of text and leaves. -/
theorem Island.along_node {i : Island} (htrivia : ∀ t after, P (.trivia t .nowhere) after)
    (hleaf : ∀ rule ∈ ["php_end_tag", "text", "php_tag"], ∀ t after,
      P (.leaf (ruleLabel rule true none) t) after)
    (hown : P i.node after) : i.node.Along P after := by
  obtain ⟨parts, hnode, hparts⟩ := i.exists_node_eq
  have hleaves : ∀ js ⊆ parts, ∀ after, Item.AlongAll P after js := by
    intro js hjs after
    induction js with
    | nil => trivial
    | cons j js ih =>
      rw [List.cons_subset] at hjs
      refine ⟨?_, ih hjs.2⟩
      rcases hparts j hjs.1 with ⟨t, rfl⟩ | ⟨rule, hrule, t, rfl⟩
      · trivial
      · exact hleaf rule hrule t _
  rw [hnode] at hown ⊢
  exact Item.along_build htrivia hown (hleaves parts (List.Subset.refl _) after)

theorem Island.label_node (i : Island) :
    i.node.label = ruleLabel "text_interpolation" true none := by
  obtain ⟨parts, hnode, -⟩ := i.exists_node_eq
  rw [hnode, Item.label_build]

/-! ### Along what was read -/

namespace Concrete

/-- The parts of a tree, before it shows in any way. -/
def ownItems (book : RuleBook) : Concrete → List Item
  | token _ _ text => [.gap text]
  | comment _ text => [.extra (.comment text .nowhere)]
  | island _ i => [.extra i.node]
  | phrase p parts => itemsFirst book ((book.productions[p]?.map Production.posts).getD []) parts

theorem ownItems_phrase {book : RuleBook} {q : Nat} {r : Production}
    (h : book.productions[q]? = some r) (parts : List Concrete) :
    (phrase q parts).ownItems book = itemsFirst book r.posts parts := by
  rw [ownItems, h, Option.map_some, Option.getD_some]

theorem lead_append_textAll_ownItems (book : RuleBook) (c : Concrete) :
    c.lead ++ Item.textAll (c.ownItems book) = c.text := by
  -- the parts are those that the tree has in some post, whatever it is
  have hitems := c.lead_append_textAll_items book ⟨none, some .hidden⟩
  cases c with
  | token t gap text => simpa [items, ownItems, textAll_dress] using hitems
  | comment gap text => exact hitems
  | island gap i => exact hitems
  | phrase p parts =>
    simp only [items] at hitems
    simp only [ownItems]
    cases hr : book.productions[p]? with
    | none => simpa [hr, textAll_dress] using hitems
    | some r => simpa [hr, textAll_dress] using hitems

theorem toList_lead_append_ownItems (book : RuleBook) (c : Concrete) :
    c.lead.toList ++ (Item.textAll (c.ownItems book)).toList = c.text.toList := by
  rw [← String.toList_append, lead_append_textAll_ownItems]

theorem items_of_isExtra {book : RuleBook} {c : Concrete} (h : c.isExtra = true) (post : Post) :
    c.items book post = c.ownItems book := by
  cases c with
  | token t gap text => simp [isExtra] at h
  | phrase p parts => simp [isExtra] at h
  | comment gap text => rfl
  | island gap i => rfl

theorem items_of_formed {book : RuleBook} {c : Concrete} (h : c.isExtra = false)
    (hc : c.Formed book) (post : Post) : c.items book post =
      dress (post.guise?.getD (book.guiseOf (c.symbol book))) post.role? (c.ownItems book) := by
  cases c with
  | comment gap text => simp [isExtra] at h
  | island gap i => simp [isExtra] at h
  | token t gap text => simp [items, ownItems, symbol]
  | phrase p parts =>
    simp only [Formed] at hc
    obtain ⟨⟨r, hr, -⟩, -⟩ := hc
    simp [items, ownItems, symbol, hr]

/-- The parts of the trees of a phrase behind others, given what holds along each of them. -/
theorem alongAll_itemsMore {book : RuleBook} {Q : Post → Prop} (hplain : Q .plain)
    {posts : List Post} (hposts : ∀ post ∈ posts, Q post) {cs : List Concrete}
    (hread : ReadAll book after cs)
    (h : ∀ c ∈ cs, ∀ {post after}, Q post → c.Read book after →
      Item.AlongAll P after (c.items book post)) :
    Item.AlongAll P after (itemsMore book posts cs) := by
  induction cs generalizing posts with
  | nil => trivial
  | cons c cs ih =>
    have hhead : Q (posts.headD .plain) := by
      cases posts with
      | nil => exact hplain
      | cons post posts => exact hposts post List.mem_cons_self
    have hrest : ∀ post ∈ if c.isExtra then posts else posts.tail, Q post := by
      intro post hpost
      split at hpost
      · exact hposts post hpost
      · exact hposts post (List.mem_of_mem_tail hpost)
    have htext : ∀ ps, Item.textAll (itemsMore book ps cs) = textAll cs :=
      fun _ => textAll_itemsMore fun d _ => d.lead_append_textAll_items book
    refine ⟨trivial, Item.alongAll_append.2 ⟨?_, ?_⟩⟩
    · rw [htext]
      exact h c List.mem_cons_self hhead hread.1
    · exact ih hrest hread.2 fun d hd => h d (List.mem_cons_of_mem _ hd)

theorem alongAll_itemsFirst {book : RuleBook} {posts : List Post} {cs : List Concrete}
    (h : Item.AlongAll P after (itemsMore book posts cs)) :
    Item.AlongAll P after (itemsFirst book posts cs) := by
  cases cs with
  | nil => trivial
  | cons c cs => exact h.2

/-- The parts of the root. -/
theorem alongAll_rootItems {book : RuleBook} {cs : List Concrete} (hread : ReadAll book after cs)
    (h : ∀ c ∈ cs, ∀ {post after}, post.guise?.bind Guise.rule? = none → c.Read book after →
      Item.AlongAll P after (c.items book post)) :
    Item.AlongAll P after (rootItems book cs) := by
  induction cs with
  | nil => trivial
  | cons c cs ih =>
    refine ⟨trivial, Item.alongAll_append.2 ⟨?_, ?_⟩⟩
    · rw [textAll_rootItems]
      refine h c List.mem_cons_self ?_ hread.1
      cases c.isExtra <;> rfl
    · exact ih hread.2 fun d hd => h d (List.mem_cons_of_mem _ hd)

end Concrete

section Trees

variable (definitions : List Definition) (source : String)

/-- Whether a post is for a tree that shows in no other way than it does by itself, or in one that a
wording has for it. -/
def Post.Offered (post : Post) : Prop :=
  post.guise?.bind Guise.rule? = none ∨ ∃ e ∈ RuleBook.entries definitions source,
    ∃ w ∈ RuleBook.wordingsOf e, ∃ p ∈ w.symbols, p.guise? = post.guise?

/-- Whether a tree can show as a node of a rule: a wording has it show so in some place, or it is a
token or a phrase that shows so by itself. -/
inductive Concrete.ShowsAs (c : Concrete) (rule : String) : Prop where
  | offered {e : Symbol × PhraseSort × Rule} {w : Wording} {p : Placed} :
      e ∈ RuleBook.entries definitions source → w ∈ RuleBook.wordingsOf e → p ∈ w.symbols →
      p.guise?.bind Guise.rule? = some rule → c.ShowsAs rule
  | token {t : Terminal} :
      t ∈ [.finish, .name, .given, .pause] ++ definitions.flatMap (·.body.terminals) →
      t.guise.rule? = some rule → c.ShowsAs rule
  | phrase {e : Symbol × PhraseSort × Rule} : e ∈ RuleBook.entries definitions source →
      RuleBook.symbolAt? definitions source
        (c.symbol (.ofDefinitions definitions source)) = some e.1 →
      e.2.1.guise.rule? = some rule → c.ShowsAs rule

/-- What has to be known of a property for it to hold of all nodes below a root. -/
structure Carried (P : Node → List Char → Prop) : Prop where
  withField : ∀ n f after, P n after → P (n.withField f) after
  trivia : ∀ t after, P (.trivia t .nowhere) after
  program : ∀ after, P (.leaf (ruleLabel "program" true none) "") after
  extra : ∀ (c : Concrete) after, c.isExtra = true →
    c.Read (.ofDefinitions definitions source) after →
    Item.AlongAll P after (c.ownItems (.ofDefinitions definitions source))
  own : ∀ (c : Concrete) after role? rule named, c.isExtra = false →
    c.Formed (.ofDefinitions definitions source) →
    c.Read (.ofDefinitions definitions source) after → c.ShowsAs definitions source rule →
    P (Item.build (ruleLabel rule named role?) (c.ownItems (.ofDefinitions definitions source))) after

variable {definitions source}

/-- **A property of the parts of a phrase**, given it for gaps, for extras, and for what each tree
gives in its place in a wording of the phrase. -/
theorem Concrete.forall_ownItems {Q : Item → Prop} {q : Nat} {parts : List Concrete}
    (hc : (phrase q parts).Formed (.ofDefinitions definitions source))
    (hread : (phrase q parts).Read (.ofDefinitions definitions source) after)
    (hgap : ∀ t, Q (.gap t))
    (hextra : ∀ c : Concrete, c.isExtra = true → ∀ post,
      ∀ i ∈ c.items (.ofDefinitions definitions source) post, Q i)
    (hpart : ∀ c ∈ parts, ∀ after, c.Formed (.ofDefinitions definitions source) →
      c.Read (.ofDefinitions definitions source) after →
      ∀ e ∈ RuleBook.entries definitions source, RuleBook.symbolAt? definitions source
        ((phrase q parts).symbol (.ofDefinitions definitions source)) = some e.1 →
      ∀ w ∈ RuleBook.wordingsOf e, ∀ p ∈ w.symbols, Fits (.ofDefinitions definitions source) c
        (RuleBook.number definitions source p.symbol) →
      ∀ i ∈ c.items (.ofDefinitions definitions source) ⟨p.role?, p.guise?⟩, Q i) :
    ∀ i ∈ (phrase q parts).ownItems (.ofDefinitions definitions source), Q i := by
  obtain ⟨r, hr, e, he, hhead, w, hw, hfits⟩ := exists_entry_of_formed hc
  rw [← symbol_phrase hr parts] at hhead
  simp only [Formed, formedAll_iff] at hc
  intro i hi
  rw [ownItems_phrase hr] at hi
  refine forall_itemsMore_of_forall₂ hgap hfits (fun c _ hx => hextra c hx) ?_ i
    (mem_itemsMore_of_mem_itemsFirst hi)
  rintro c hmem post ⟨p, hp, rfl, hfit⟩
  obtain ⟨after', hread'⟩ := exists_read_of_mem hread.2 hmem
  exact hpart c hmem after' (hc.2 c hmem) hread' e he hhead w hw p hp hfit

/-- The ways a tree shows in a post. -/
theorem Concrete.showsAs_of_guise {c : Concrete} {post : Post} {rule : String}
    (hextra : c.isExtra = false) (hc : c.Formed (.ofDefinitions definitions source))
    (hread : c.Read (.ofDefinitions definitions source) after)
    (hpost : post.Offered definitions source)
    (hrule : (post.guise?.getD ((RuleBook.ofDefinitions definitions source).guiseOf
      (c.symbol (.ofDefinitions definitions source)))).rule? = some rule) :
    c.ShowsAs definitions source rule := by
  cases hg : post.guise? with
  | some g =>
    rw [hg, Option.getD_some] at hrule
    rcases hpost with hnone | ⟨e, he, w, hw, p, hp, hguise⟩
    · simp [hg, hrule] at hnone
    · exact .offered he hw hp (by simp [hguise, hg, hrule])
  | none =>
    rw [hg, Option.getD_none] at hrule
    cases c with
    | comment gap text => simp [isExtra] at hextra
    | island gap i => simp [isExtra] at hextra
    | token k gap text =>
      obtain ⟨t, ht, -⟩ := exists_terminal_of_foundBefore hread
      obtain ⟨hmem, hguise⟩ := RuleBook.guiseOf_terminal ht
      exact .token (mem_of_mem_orderTerminals hmem) (by rw [← hguise]; exact hrule)
    | phrase q parts =>
      obtain ⟨r, hr, e, he, hhead, -⟩ := exists_entry_of_formed hc
      obtain ⟨e', he', hee, hguiseOf, -⟩ := RuleBook.exists_entry_of_symbolAt? hhead
        (RuleBook.isTerminal_fst_of_mem_entries he)
      have hsymbol := Concrete.symbol_phrase hr parts
      rw [hsymbol, hguiseOf] at hrule
      exact .phrase he' (by rw [hsymbol, hhead, hee]) hrule

/-- A tree that shows as a node of a rule, if nothing else shows so, is the phrase of the rule. -/
theorem OriginSurvey.symbol_of_showsAs {rules : List String}
    (hv : OriginSurvey definitions source rules) {c : Concrete} {rule : String}
    (hrule : rule ∈ rules) (h : c.ShowsAs definitions source rule) :
    RuleBook.symbolAt? definitions source (c.symbol (.ofDefinitions definitions source)) =
      some (.phrase rule) := by
  cases h with
  | offered he hw hp hoffered =>
    exact absurd hrule (hv.offered_ne _ he _ hw _ hp rule (by simp [hoffered]))
  | token ht hguise => exact absurd hrule (hv.terminal_ne _ ht rule (by simp [hguise]))
  | phrase he hsymbol hguise =>
    rw [hsymbol, hv.symbol_eq _ he rule (by simp [hguise]) hrule]

namespace Carried

/-- **What holds along all parts that a tree gives.** -/
theorem alongAll_items (hP : Carried definitions source P) {c : Concrete} {post : Post}
    (hc : c.Formed (.ofDefinitions definitions source))
    (hread : c.Read (.ofDefinitions definitions source) after)
    (hpost : post.Offered definitions source) :
    Item.AlongAll P after (c.items (.ofDefinitions definitions source) post) := by
  induction c using Concrete.treeInduction generalizing post after with
  | comment gap text =>
    rw [Concrete.items_of_isExtra rfl]
    exact hP.extra _ _ rfl hread
  | island gap i =>
    rw [Concrete.items_of_isExtra rfl]
    exact hP.extra _ _ rfl hread
  | token k gap text =>
    rw [Concrete.items_of_formed rfl hc]
    refine alongAll_dress hP.withField hP.trivia (fun rule named hrule => ?_) ⟨trivial, trivial⟩
    exact hP.own _ _ _ _ _ rfl hc hread (Concrete.showsAs_of_guise rfl hc hread hpost hrule)
  | phrase q parts ih =>
    have hformed := hc
    simp only [Concrete.Formed, Concrete.formedAll_iff] at hformed
    obtain ⟨⟨r, hr, -⟩, hformed⟩ := hformed
    obtain ⟨e, he, w, hw, -, -, -, hposts⟩ := RuleBook.exists_wording hr
    have hparts : Item.AlongAll P after
        ((Concrete.phrase q parts).ownItems (.ofDefinitions definitions source)) := by
      rw [Concrete.ownItems_phrase hr]
      have hplain : Post.plain.Offered definitions source := .inl rfl
      refine Concrete.alongAll_itemsFirst (Concrete.alongAll_itemsMore hplain
        (fun post hpost => ?_) hread.2
        fun c hc _ _ hpost hread => ih c hc (hformed c hc) hread hpost)
      rw [hposts] at hpost
      obtain ⟨p, hp, rfl⟩ := List.mem_map.1 hpost
      exact .inr ⟨e, he, w, hw, p, hp, rfl⟩
    rw [Concrete.items_of_formed rfl hc]
    refine alongAll_dress hP.withField hP.trivia (fun rule named hrule => ?_) hparts
    exact hP.own _ _ _ _ _ rfl hc hread (Concrete.showsAs_of_guise rfl hc hread hpost hrule)

end Carried

/-- **What holds along the tree of a source**, given that it holds of the root. -/
theorem Parsed.along_root (hP : Carried definitions source P) {p : Parsed}
    (hp : p.Formed (.ofDefinitions definitions source))
    (hread : Concrete.ReadAll (.ofDefinitions definitions source) p.tail.toList p.trees)
    (hroot : P (p.root (.ofDefinitions definitions source)) []) :
    (p.root (.ofDefinitions definitions source)).Along P [] := by
  have hitems : Item.AlongAll P p.tail.toList
      (Concrete.rootItems (.ofDefinitions definitions source) p.trees) :=
    Concrete.alongAll_rootItems hread fun c hc _ _ hpost hread =>
      hP.alongAll_items (hp c hc) hread (.inl hpost)
  refine Node.along_iff.2 ⟨hroot, ?_⟩
  simp only [root]
  split
  · refine Item.alongAll_close hP.trivia (Item.alongAll_append.2 ⟨?_, trivial, trivial⟩)
    simpa [Item.text] using hitems
  · rw [List.append_assoc]
    refine Item.alongAll_close hP.trivia
      (Item.alongAll_append.2 ⟨?_, trivial, hP.program _, trivial⟩)
    simpa [Item.text] using hitems

end Trees

end DocBlocks
