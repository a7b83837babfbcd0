import DocBlocks.Proofs.Syntax.Calm
import DocBlocks.Proofs.Syntax.Edge

/-!
# Nodes and the phrases they show

A node of a rule shows a phrase of that rule (`Node.Shows`), as long as no other rule lets its parts
show as such nodes. `OriginSurvey` checks this for some rules, and `Parsed.accounted_root` then
finds the phrase of every node of them among the concrete trees. So what is known of phrases carries
over to nodes:

* `Node.Shows.text_ne`: a node whose phrase has several parts and ends with a mark has text.
* `Node.Shows.rule_ne_below`: a node whose phrase never stands in itself is below no other such
  node. That a phrase never does is checked by a `NestSurvey`, the phrases that it is made of.
* `Node.Shows.exists_childByField?`: a node has a child in a role if all wordings of its rule have a
  token in it.
-/

namespace DocBlocks

theorem exists_of_forall₂ {α β : Type} {R : α → β → Prop} {as : List α} {bs : List β} {a : α}
    (h : List.Forall₂ R as bs) (ha : a ∈ as) : ∃ b ∈ bs, R a b := by
  induction h with
  | nil => simp at ha
  | @cons a' b' as bs hab _ ih =>
    rcases List.mem_cons.1 ha with rfl | ha
    · exact ⟨b', List.mem_cons_self, hab⟩
    · obtain ⟨b, hb, hR⟩ := ih ha
      exact ⟨b, List.mem_cons_of_mem _ hb, hR⟩

/-! ### Trees in trees -/

namespace Concrete

/-- Whether a tree is another one or stands in it. -/
inductive Within (d : Concrete) : Concrete → Prop where
  | refl : Within d d
  | part {q : Nat} {parts : List Concrete} {c : Concrete} : c ∈ parts → Within d c →
      Within d (.phrase q parts)

variable {book : RuleBook} {c d : Concrete}

theorem Within.formed (h : d.Within c) (hc : c.Formed book) : d.Formed book := by
  induction h with
  | refl => exact hc
  | part hmem _ ih =>
    simp only [Formed, formedAll_iff] at hc
    exact ih (hc.2 _ hmem)

theorem Within.exists_read {after : List Char} (h : d.Within c) (hc : c.Read book after) :
    ∃ after', d.Read book after' := by
  induction h generalizing after with
  | refl => exact ⟨after, hc⟩
  | part hmem _ ih =>
    obtain ⟨after', hread⟩ := exists_read_of_mem hc.2 hmem
    exact ih hread

end Concrete

/-! ### Properties of all nodes in a part -/

namespace Item

/-- Whether all nodes in a part have a property. -/
def All (P : Node → Prop) : Item → Prop
  | gap _ => True
  | node n => ∀ d ∈ n.descendants, P d
  | extra n => ∀ d ∈ n.descendants, P d

theorem All.mono {P Q : Node → Prop} {i : Item} (h : i.All P) (hPQ : ∀ n, P n → Q n) : i.All Q := by
  cases i with
  | gap t => trivial
  | node n => exact fun d hd => hPQ d (h d hd)
  | extra n => exact fun d hd => hPQ d (h d hd)

variable {P : Node → Prop}

theorem All.inRole {i : Item} (h : i.All P) (hfield : ∀ n f, P n → P (n.withField f))
    (role? : Option String) : (i.inRole role?).All P := by
  cases i with
  | gap t => trivial
  | extra n => exact h
  | node n =>
    simp only [Item.inRole]
    split
    · exact h
    · intro d hd
      rw [Node.descendants_eq, Node.children_withField] at hd
      rcases List.mem_cons.1 hd with rfl | hd
      · exact hfield n role? (h n n.self_mem_descendants)
      · exact h d (by rw [Node.descendants_eq]; exact List.mem_cons_of_mem _ hd)

theorem all_close {passed : String} {is : List Item} (htrivia : ∀ t, P (.trivia t .nowhere))
    (h : ∀ i ∈ is, i.All P) : ∀ c ∈ close passed is, ∀ d ∈ c.descendants, P d := by
  intro c hc d hd
  rcases mem_close hc with ⟨t, rfl⟩ | hc | hc
  · obtain rfl := Node.mem_descendants_leaf.1 hd
    exact htrivia t
  · exact h _ hc d hd
  · exact h _ hc d hd

theorem all_children_build {l : Label} {is : List Item} (htrivia : ∀ t, P (.trivia t .nowhere))
    (h : ∀ i ∈ is, i.All P) : ∀ d ∈ Node.descendantsAll (build l is).children, P d := by
  intro d hd
  simp only [build] at hd
  split at hd
  · obtain ⟨c, hc, hd⟩ := Node.mem_descendantsAll.1 hd
    exact all_close htrivia h c hc d hd
  · simp [Node.descendantsAll] at hd

theorem all_build {l : Label} {is : List Item} (htrivia : ∀ t, P (.trivia t .nowhere))
    (hown : P (build l is)) (h : ∀ i ∈ is, i.All P) : (node (build l is)).All P := by
  intro d hd
  rw [Node.descendants_eq] at hd
  rcases List.mem_cons.1 hd with rfl | hd
  · exact hown
  · exact all_children_build htrivia h d hd

end Item

theorem all_dress {P : Node → Prop} {guise : Guise} {role? : Option String} {is : List Item}
    (hfield : ∀ n f, P n → P (n.withField f)) (htrivia : ∀ t, P (.trivia t .nowhere))
    (hown : ∀ rule named, guise.rule? = some rule →
      P (Item.build (ruleLabel rule named role?) is)) (h : ∀ i ∈ is, i.All P) :
    ∀ i ∈ dress guise role? is, i.All P := by
  intro i hi
  cases guise with
  | hidden =>
    obtain ⟨j, hj, rfl⟩ := List.mem_map.1 hi
    exact (h j hj).inRole hfield role?
  | bare kind =>
    obtain rfl := List.mem_singleton.1 hi
    exact Item.all_build htrivia (hown kind false rfl) h
  | named kind =>
    obtain rfl := List.mem_singleton.1 hi
    exact Item.all_build htrivia (hown kind true rfl) h

/-! ### What nodes show -/

section Survey

variable (definitions : List Definition) (source : String)

/-- Whether a node shows a phrase in a concrete tree: the phrase is of the rule of the node, and the
node is built of its parts. -/
structure Node.Shows (n : Node) (c : Concrete) (q : Nat) (parts : List Concrete) (r : Production) :
    Prop where
  within : (Concrete.phrase q parts).Within c
  production : (RuleBook.ofDefinitions definitions source).productions[q]? = some r
  symbol : RuleBook.symbolAt? definitions source r.head = some (.phrase n.rule)
  eq_build : n = Item.build n.label
    (Concrete.itemsFirst (.ofDefinitions definitions source) r.posts parts)

/-- Whether some trees account for a node: its category is that of its rule, and if the rule is one
of a list, the node shows a phrase in one of the trees. -/
structure Node.Accounted (rules : List String) (cs : List Concrete) (n : Node) : Prop where
  kind : n.kind = .trivia ∨ ∃ named, n.kind = .ofGrammar n.rule named
  shows : n.rule ∈ rules → ∃ c ∈ cs, ∃ q parts r, n.Shows definitions source c q parts r

/-- The rules of nodes that show no phrase. -/
def extraRules : List String :=
  ["trivia", "comment", "text_interpolation", "php_end_tag", "text", "php_tag", "program"]

/-- A survey of rules that finds nothing but their own phrases to show as nodes of them. -/
structure OriginSurvey (rules : List String) : Prop where
  extra_ne : ∀ r ∈ rules, r ∉ extraRules
  terminal_ne : ∀ t ∈ [.finish, .name, .given, .pause] ++ definitions.flatMap (·.body.terminals),
    ∀ r ∈ t.guise.rule?.toList, r ∉ rules
  offered_ne : ∀ e ∈ RuleBook.entries definitions source, ∀ w ∈ RuleBook.wordingsOf e,
    ∀ p ∈ w.symbols, ∀ r ∈ (p.guise?.bind Guise.rule?).toList, r ∉ rules
  symbol_eq : ∀ e ∈ RuleBook.entries definitions source, ∀ r ∈ e.2.1.guise.rule?.toList,
    r ∈ rules → e.1 = .phrase r

end Survey

section Trees

variable {definitions : List Definition} {source : String} {rules : List String}

theorem Item.build_withField (l : Label) (is : List Item) (f : Option String) :
    (build l is).withField f = build { l with field := f } is := by
  simp only [build]
  split <;> rfl

theorem Node.rule_withField (n : Node) (f : Option String) : (n.withField f).rule = n.rule := by
  cases n <;> rfl

namespace Node

variable {n : Node} {c : Concrete} {cs : List Concrete}

theorem Shows.withField {q : Nat} {parts : List Concrete} {r : Production}
    (h : n.Shows definitions source c q parts r) (f : Option String) :
    (n.withField f).Shows definitions source c q parts r where
  within := h.within
  production := h.production
  symbol := by rw [rule_withField, h.symbol]
  eq_build := by rw [h.eq_build, Item.build_withField, Item.label_build]

theorem Accounted.withField (h : n.Accounted definitions source rules cs) (f : Option String) :
    (n.withField f).Accounted definitions source rules cs where
  kind := by
    rw [kind_withField, rule_withField]
    exact h.kind
  shows hrule := by
    rw [rule_withField] at hrule
    obtain ⟨c, hc, q, parts, r, hshows⟩ := h.shows hrule
    exact ⟨c, hc, q, parts, r, hshows.withField f⟩

theorem Accounted.of_mem (h : n.Accounted definitions source rules [c]) (hc : c ∈ cs) :
    n.Accounted definitions source rules cs where
  kind := h.kind
  shows hrule := by
    obtain ⟨d, hd, hshows⟩ := h.shows hrule
    obtain rfl := List.mem_singleton.1 hd
    exact ⟨d, hc, hshows⟩

theorem Accounted.phrase (h : n.Accounted definitions source rules cs) (q : Nat) :
    n.Accounted definitions source rules [.phrase q cs] where
  kind := h.kind
  shows hrule := by
    obtain ⟨c, hc, q', parts, r, hshows⟩ := h.shows hrule
    exact ⟨_, List.mem_singleton.2 rfl, q', parts, r,
      { hshows with within := .part hc hshows.within }⟩

/-- A node of another rule need not show anything. -/
theorem accounted_of_not_mem (hrule : n.rule ∉ rules)
    (hkind : n.kind = .trivia ∨ ∃ named, n.kind = .ofGrammar n.rule named) :
    n.Accounted definitions source rules cs :=
  ⟨hkind, fun h => absurd h hrule⟩

end Node

theorem mem_of_mem_orderTerminals {t : Terminal} (h : t ∈ orderTerminals definitions) :
    t ∈ [.finish, .name, .given, .pause] ++ definitions.flatMap (·.body.terminals) := by
  simp only [orderTerminals, List.mem_append, List.mem_filter, List.mem_eraseDups] at h
  rcases h with ⟨h, -⟩ | ⟨h, -⟩ <;> exact h

namespace OriginSurvey

/-- A node that shows no phrase is accounted for. -/
theorem accounted_of_mem_extraRules (hv : OriginSurvey definitions source rules) {n : Node}
    {cs : List Concrete} (hrule : n.rule ∈ extraRules)
    (hkind : n.kind = .trivia ∨ ∃ named, n.kind = .ofGrammar n.rule named) :
    n.Accounted definitions source rules cs :=
  Node.accounted_of_not_mem (fun h => hv.extra_ne _ h hrule) hkind

theorem accounted_trivia (hv : OriginSurvey definitions source rules) (t : String)
    {cs : List Concrete} : (Node.trivia t .nowhere).Accounted definitions source rules cs :=
  hv.accounted_of_mem_extraRules (by simp [Node.rule, Node.trivia, extraRules]) (.inl rfl)

theorem all_items_of_isExtra (hv : OriginSurvey definitions source rules) {c : Concrete}
    {cs : List Concrete} (hc : c.isExtra = true) (post : Post) :
    ∀ i ∈ c.items (.ofDefinitions definitions source) post,
      i.All (·.Accounted definitions source rules cs) := by
  intro i hi
  cases c with
  | token t gap text => simp [Concrete.isExtra] at hc
  | phrase p parts => simp [Concrete.isExtra] at hc
  | comment gap text =>
    obtain rfl := List.mem_singleton.1 hi
    intro n hn
    obtain rfl := Node.mem_descendants_leaf.1 hn
    exact hv.accounted_of_mem_extraRules (by simp [Node.rule, Node.label, extraRules])
      (.inr ⟨true, rfl⟩)
  | island gap isle =>
    obtain rfl := List.mem_singleton.1 hi
    obtain ⟨parts, hnode, hparts⟩ := isle.exists_node_eq
    rw [hnode]
    have hlabel := Item.label_build (ruleLabel "text_interpolation" true none) parts
    refine Item.all_build (fun t => hv.accounted_trivia t) ?_ fun j hj => ?_
    · refine hv.accounted_of_mem_extraRules ?_ (.inr ⟨true, ?_⟩)
      · rw [Node.rule, hlabel]
        decide
      · rw [Node.rule, Node.kind, hlabel]
        rfl
    · rcases hparts j hj with ⟨t, rfl⟩ | ⟨rule, hrule, t, rfl⟩
      · trivial
      · intro n hn
        obtain rfl := Node.mem_descendants_leaf.1 hn
        have hsubset : ["php_end_tag", "text", "php_tag"] ⊆ extraRules := by decide
        exact hv.accounted_of_mem_extraRules (hsubset hrule) (.inr ⟨true, rfl⟩)

/-- The parts of a phrase are accounted for by its trees, if those of each tree are. -/
theorem all_itemsFirst (hv : OriginSurvey definitions source rules) {parts : List Concrete}
    {q : Nat} {r : Production}
    (hr : (RuleBook.ofDefinitions definitions source).productions[q]? = some r)
    {P : Node → Prop}
    (hparts : ∀ c ∈ parts, ∀ post : Post, (∀ rule ∈ post.guise?.bind Guise.rule?, rule ∉ rules) →
      ∀ i ∈ c.items (.ofDefinitions definitions source) post, i.All P) :
    ∀ i ∈ Concrete.itemsFirst (.ofDefinitions definitions source) r.posts parts, i.All P := by
  intro i hi
  obtain ⟨e, he, w, hw, -, -, -, hposts⟩ := RuleBook.exists_wording hr
  refine Concrete.forall_itemsMore
    (Q := fun post => ∀ rule ∈ post.guise?.bind Guise.rule?, rule ∉ rules)
    (fun _ => trivial) (by simp [Post.plain]) (fun post hpost => ?_) hparts i
    (Concrete.mem_itemsMore_of_mem_itemsFirst hi)
  rw [hposts] at hpost
  obtain ⟨p, hp, rfl⟩ := List.mem_map.1 hpost
  intro rule hrule
  exact hv.offered_ne e he w hw p hp rule (by simpa using hrule)

/-- **All nodes that a tree gives are accounted for by it.** -/
theorem all_items (hv : OriginSurvey definitions source rules) {c : Concrete} {post : Post}
    {after : List Char} (hc : c.Formed (.ofDefinitions definitions source))
    (hread : c.Read (.ofDefinitions definitions source) after)
    (hpost : ∀ rule ∈ post.guise?.bind Guise.rule?, rule ∉ rules) :
    ∀ i ∈ c.items (.ofDefinitions definitions source) post,
      i.All (·.Accounted definitions source rules [c]) := by
  induction c using Concrete.treeInduction generalizing post after with
  | comment gap text => exact hv.all_items_of_isExtra rfl post
  | island gap isle => exact hv.all_items_of_isExtra rfl post
  | token k gap text =>
    obtain ⟨t, ht, -⟩ := exists_terminal_of_foundBefore hread
    obtain ⟨hmem, hguise⟩ := RuleBook.guiseOf_terminal ht
    refine all_dress (fun n f h => h.withField f) (fun t => hv.accounted_trivia t)
      (fun rule named hrule => ?_) (by simp [Item.All])
    refine Node.accounted_of_not_mem ?_ (.inr ⟨named, ?_⟩)
    · rw [Node.rule, Item.label_build]
      cases hg : post.guise? with
      | none =>
        rw [hg, Option.getD_none, hguise] at hrule
        exact hv.terminal_ne t (mem_of_mem_orderTerminals hmem) rule (by simpa using hrule)
      | some g =>
        rw [hg, Option.getD_some] at hrule
        exact hpost rule (by simpa [hg] using hrule)
    · rw [Node.rule, Node.kind, Item.label_build]
      rfl
  | phrase q parts ih =>
    have hformed := hc
    simp only [Concrete.Formed, Concrete.formedAll_iff] at hformed
    obtain ⟨r, hr, e, he, hhead, -⟩ := exists_entry_of_formed hc
    have hparts : ∀ i ∈ Concrete.itemsFirst (.ofDefinitions definitions source) r.posts parts,
        i.All (·.Accounted definitions source rules [.phrase q parts]) := by
      refine hv.all_itemsFirst hr fun c hmem post hpost i hi => ?_
      obtain ⟨after', hread'⟩ := Concrete.exists_read_of_mem hread.2 hmem
      exact (ih c hmem (hformed.2 c hmem) hread' hpost i hi).mono
        fun n hn => (hn.of_mem hmem).phrase q
    simp only [Concrete.items, hr]
    refine all_dress (fun n f h => h.withField f) (fun t => hv.accounted_trivia t)
      (fun rule named hrule => ?_) hparts
    have hlabel := Item.label_build (ruleLabel rule named post.role?)
      (Concrete.itemsFirst (.ofDefinitions definitions source) r.posts parts)
    refine ⟨.inr ⟨named, by rw [Node.rule, Node.kind, hlabel]; rfl⟩, fun hmem => ?_⟩
    rw [Node.rule, hlabel] at hmem
    refine ⟨_, List.mem_singleton.2 rfl, q, parts, r, .refl, hr, ?_, by rw [hlabel]⟩
    rw [Node.rule, hlabel]
    cases hg : post.guise? with
    | some g =>
      rw [hg, Option.getD_some] at hrule
      exact absurd hmem (hpost rule (by simpa [hg] using hrule))
    | none =>
      -- the phrase shows in its own way, so it is the one of the rule
      obtain ⟨e', he', hee, hguiseOf, -⟩ := RuleBook.exists_entry_of_symbolAt? hhead
        (RuleBook.isTerminal_fst_of_mem_entries he)
      rw [hg, Option.getD_none, hguiseOf] at hrule
      rw [hhead, ← hee, hv.symbol_eq e' he' rule (by simpa using hrule) hmem]
      rfl

end OriginSurvey

/-- **The trees of a source account for all nodes below the root.** -/
theorem Parsed.accounted_root (hv : OriginSurvey definitions source rules) {p : Parsed}
    (hp : p.Formed (.ofDefinitions definitions source))
    (hread : Concrete.ReadAll (.ofDefinitions definitions source) p.tail.toList p.trees) :
    ∀ n ∈ (p.root (.ofDefinitions definitions source)).descendants,
      n.Accounted definitions source rules p.trees := by
  obtain ⟨items, hroot, hitems⟩ := p.exists_root_eq (.ofDefinitions definitions source)
  have hprogram : ∀ n : Node, n.label = ruleLabel "program" true none →
      n.Accounted definitions source rules p.trees := by
    intro n hn
    refine hv.accounted_of_mem_extraRules ?_ (.inr ⟨true, ?_⟩)
    · rw [Node.rule, hn]
      decide
    · rw [Node.rule, Node.kind, hn]
      rfl
  rw [hroot]
  intro n hn
  rcases Node.mem_descendants_branch.1 hn with rfl | ⟨m, hm, hn⟩
  · exact hprogram _ rfl
  refine Item.all_close (fun t => hv.accounted_trivia t) (fun i hi => ?_) m hm n hn
  rcases hitems i hi with ⟨t, rfl⟩ | rfl | hi
  · trivial
  · intro d hd
    obtain rfl := Node.mem_descendants_leaf.1 hd
    exact hprogram _ rfl
  · refine Concrete.forall_rootItems (fun _ => trivial) (fun c hc i hi => ?_) i hi
    obtain ⟨after', hread'⟩ := Concrete.exists_read_of_mem hread hc
    refine (hv.all_items (hp c hc) hread' ?_ i hi).mono fun n hn => hn.of_mem hc
    cases c.isExtra <;> simp [Guise.rule?]

end Trees

/-! ### What phrases are made of -/

section Nest

variable (definitions : List Definition) (source : String)

/-- A survey of rules that finds a phrase never to stand in itself: it is made of tokens and certain
phrases, which are made of tokens and such phrases again, and it is none of them. -/
structure NestSurvey (outer : Symbol) (inner : List Symbol) : Prop where
  not_mem : outer ∉ inner
  known : ∀ s ∈ inner, s ∈ (RuleBook.entries definitions source).map (·.1)
  parts : ∀ e ∈ RuleBook.entries definitions source, e.1 = outer ∨ e.1 ∈ inner →
    ∀ w ∈ RuleBook.wordingsOf e, ∀ p ∈ w.symbols, p.symbol.isTerminal = true ∨ p.symbol ∈ inner

/-- Whether a tree is an extra, a token, or one of some phrases. -/
def Concrete.MadeOf (inner : List Symbol) (c : Concrete) : Prop :=
  c.isExtra = true ∨ ∃ s, RuleBook.symbolAt? definitions source
    (c.symbol (.ofDefinitions definitions source)) = some s ∧ (s.isTerminal = true ∨ s ∈ inner)

variable {definitions source} {outer : Symbol} {inner : List Symbol} {q : Nat}
  {parts : List Concrete} {s : Symbol}

/-- What a phrase is made of. -/
theorem NestSurvey.madeOf_part (hv : NestSurvey definitions source outer inner)
    (hformed : (Concrete.phrase q parts).Formed (.ofDefinitions definitions source))
    (hs : RuleBook.symbolAt? definitions source
      ((Concrete.phrase q parts).symbol (.ofDefinitions definitions source)) = some s)
    (h : s = outer ∨ s ∈ inner) : ∀ c ∈ parts, c.MadeOf definitions source inner := by
  intro c hc
  by_cases hextra : c.isExtra = true
  · exact .inl hextra
  obtain ⟨r, hr, e, he, hhead, w, hw, hfits⟩ := exists_entry_of_formed hformed
  rw [Concrete.symbol_phrase hr, hhead] at hs
  obtain rfl := Option.some.inj hs
  -- the tree fits one of the symbols of the wording
  obtain ⟨post, -, p, hp, -, hfit⟩ :=
    exists_of_forall₂ hfits (List.mem_filter.2 ⟨hc, by simpa using hextra⟩)
  have hknown : ∀ e ∈ RuleBook.entries definitions source, ∀ w ∈ RuleBook.wordingsOf e,
      ∀ p ∈ w.symbols, p.symbol.isTerminal = true ∨ p.symbol ∈ inner →
        p.symbol ∈ RuleBook.symbols definitions source := by
    rintro e he w hw p hp (hterminal | hmem)
    · exact RuleBook.terminal_mem_symbols he hw hp hterminal
    · exact List.mem_append_right _ (hv.known _ hmem)
  have hpart := hv.parts e he h w hw p hp
  refine .inr (RuleBook.exists_symbol_of_fits (P := fun s => s.isTerminal = true ∨ s ∈ inner)
    (fun e he _ h w hw p hp _ _ => ?_) hfit
    (RuleBook.symbolAt?_number (hknown e he w hw p hp hpart)) hpart).2
  have hinner : e.1 ∈ inner := by simpa [RuleBook.isTerminal_fst_of_mem_entries he] using h
  have hpart := hv.parts e he (.inr hinner) w hw p (by simp [hp])
  exact ⟨hpart, hknown e he w hw p (by simp [hp]) hpart⟩

theorem NestSurvey.madeOf_within (hv : NestSurvey definitions source outer inner) {c d : Concrete}
    (hc : c.Formed (.ofDefinitions definitions source)) (h : c.MadeOf definitions source inner)
    (hd : d.Within c) : d.MadeOf definitions source inner := by
  induction hd with
  | refl => exact h
  | @part q parts c hmem _ ih =>
    have hformed := hc
    simp only [Concrete.Formed, Concrete.formedAll_iff] at hformed
    refine ih (hformed.2 c hmem) ?_
    obtain ⟨s, hs, h⟩ := h.resolve_left (by simp [Concrete.isExtra])
    obtain ⟨r, hr, e, he, hhead, -⟩ := exists_entry_of_formed hc
    have hse : s = e.1 := by
      have hs' := hs
      rw [Concrete.symbol_phrase hr, hhead] at hs'
      exact (Option.some.inj hs').symm
    have hinner : s ∈ inner := by
      simpa [hse, RuleBook.isTerminal_fst_of_mem_entries he] using h
    exact hv.madeOf_part hc hs (.inr hinner) c hmem

/-- **A surveyed phrase does not stand in itself.** -/
theorem NestSurvey.symbol_ne (hv : NestSurvey definitions source outer inner)
    (hformed : (Concrete.phrase q parts).Formed (.ofDefinitions definitions source))
    (hs : RuleBook.symbolAt? definitions source
      ((Concrete.phrase q parts).symbol (.ofDefinitions definitions source)) = some outer)
    (houter : outer.isTerminal = false) {c d : Concrete} (hc : c ∈ parts) (hd : d.Within c)
    (hextra : d.isExtra = false) : RuleBook.symbolAt? definitions source
      (d.symbol (.ofDefinitions definitions source)) ≠ some outer := by
  intro heq
  have hparts := hformed
  simp only [Concrete.Formed, Concrete.formedAll_iff] at hparts
  have hmade := hv.madeOf_within (hparts.2 c hc) (hv.madeOf_part hformed hs (.inl rfl) c hc) hd
  obtain ⟨s, hs, h⟩ := hmade.resolve_left (by simp [hextra])
  obtain rfl := Option.some.inj (heq.symm.trans hs)
  rcases h with h | h
  · simp [houter] at h
  · exact hv.not_mem h

end Nest

/-! ### What holds of nodes that show phrases -/

section Nodes

variable {definitions : List Definition} {source : String} {rules : List String}
  {n : Node} {c : Concrete} {q : Nat} {parts : List Concrete} {r : Production}

theorem Node.Shows.symbol_eq (h : n.Shows definitions source c q parts r) :
    RuleBook.symbolAt? definitions source
      ((Concrete.phrase q parts).symbol (.ofDefinitions definitions source)) =
        some (.phrase n.rule) := by
  rw [Concrete.symbol_phrase h.production, h.symbol]

/-- The parts of a phrase account for what stands below the node that shows it. -/
theorem Node.Shows.accounted_below (h : n.Shows definitions source c q parts r)
    (hv : OriginSurvey definitions source rules) {after : List Char}
    (hc : c.Formed (.ofDefinitions definitions source))
    (hread : c.Read (.ofDefinitions definitions source) after) :
    ∀ d ∈ descendantsAll n.children, d.Accounted definitions source rules parts := by
  have hformed := h.within.formed hc
  simp only [Concrete.Formed, Concrete.formedAll_iff] at hformed
  obtain ⟨after', hread'⟩ := h.within.exists_read hread
  rw [h.eq_build]
  refine Item.all_children_build (fun t => hv.accounted_trivia t)
    (hv.all_itemsFirst h.production fun c hmem post hpost i hi => ?_)
  obtain ⟨after'', hread''⟩ := Concrete.exists_read_of_mem hread'.2 hmem
  exact (hv.all_items (hformed.2 c hmem) hread'' hpost i hi).mono fun n hn => hn.of_mem hmem

/-- **A node of a rule whose phrase never stands in itself is below no other such node.** -/
theorem Node.Shows.rule_ne_below (h : n.Shows definitions source c q parts r)
    (hv : OriginSurvey definitions source rules) {inner : List Symbol}
    (hn : NestSurvey definitions source (.phrase n.rule) inner) (hrule : n.rule ∈ rules)
    {after : List Char} (hc : c.Formed (.ofDefinitions definitions source))
    (hread : c.Read (.ofDefinitions definitions source) after) :
    ∀ d ∈ descendantsAll n.children, d.rule ≠ n.rule := by
  intro d hd heq
  obtain ⟨c', hc', q', parts', r', hshows⟩ :=
    (h.accounted_below hv hc hread d hd).shows (heq ▸ hrule)
  refine hn.symbol_ne (h.within.formed hc) h.symbol_eq rfl hc' hshows.within rfl ?_
  rw [hshows.symbol_eq, heq]

/-- A category that only the table of rules gives. -/
theorem Node.Accounted.mem_ofRule {cs : List Concrete}
    (h : n.Accounted definitions source rules cs) {k : Kind} (hk : n.kind = k)
    (hne : k ≠ .trivia ∧ k ≠ .token ∧ k ≠ .statement ∧ k ≠ .expr .other ∧ k ≠ .other) :
    (n.rule, k) ∈ Kind.ofRule := by
  rcases h.kind with htrivia | ⟨named, hnamed⟩
  · exact absurd (hk.symm.trans htrivia) hne.1
  · have hlabel : (ruleLabel n.rule named none).kind = k := hnamed.symm.trans hk
    exact (mem_ofRule_of_kind_eq hlabel hne.2).2

/-- What stands in a phrase behind its first tree shows as text of the node. -/
theorem Node.Shows.exists_text_eq {d : Concrete} {ds : List Concrete}
    (h : n.Shows definitions source c q (d :: ds) r) :
    ∃ front, n.text = front ++ Concrete.textAll ds := by
  refine ⟨Item.textAll (d.items (.ofDefinitions definitions source) (r.posts.headD .plain)), ?_⟩
  rw [h.eq_build, Item.text_build, Concrete.itemsFirst, Item.textAll_append,
    Concrete.textAll_itemsMore fun c _ => c.lead_append_textAll_items _]

/-- A wording that the trees of a phrase follow. -/
theorem Node.Shows.exists_wording (h : n.Shows definitions source c q parts r)
    (hc : c.Formed (.ofDefinitions definitions source)) :
    ∃ e ∈ RuleBook.entries definitions source, e.1 = .phrase n.rule ∧
      ∃ w ∈ RuleBook.wordingsOf e, r.posts = w.symbols.map (fun p => ⟨p.role?, p.guise?⟩) ∧
        List.Forall₂ (fun p d => Fits (.ofDefinitions definitions source) d
          (RuleBook.number definitions source p.symbol)) w.symbols (parts.filter (!·.isExtra)) := by
  have hformed := h.within.formed hc
  simp only [Concrete.Formed] at hformed
  obtain ⟨⟨r', hr', hfits⟩, -⟩ := hformed
  obtain rfl := Option.some.inj (h.production.symm.trans hr')
  obtain ⟨e, he, w, hw, -, hhead, hbody, hposts⟩ := RuleBook.exists_wording h.production
  refine ⟨e, he, ?_, w, hw, hposts, ?_⟩
  · have hsymbol := h.symbol
    rw [hhead, RuleBook.symbolAt?_number (RuleBook.fst_mem_symbols he)] at hsymbol
    exact Option.some.inj hsymbol
  · rw [hbody, List.forall₂_map_right_iff] at hfits
    exact hfits.flip

/-- **A node whose phrase has several parts and ends with a mark has text.** -/
theorem Node.Shows.text_ne (h : n.Shows definitions source c q parts r) {phrases : List Symbol}
    {m : String} (hm : m ≠ "")
    (hv : EdgeSurvey definitions source .back phrases [.mark m]) (hmem : .phrase n.rule ∈ phrases)
    (hlong : ∀ e ∈ RuleBook.entries definitions source, e.1 = .phrase n.rule →
      ∀ w ∈ RuleBook.wordingsOf e, 2 ≤ w.symbols.length)
    {after : List Char} (hc : c.Formed (.ofDefinitions definitions source))
    (hread : c.Read (.ofDefinitions definitions source) after) : n.text ≠ "" := by
  -- the phrase has a first tree and others behind it
  obtain ⟨e, he, hsymbol, w, hw, -, hfits⟩ := h.exists_wording hc
  have hlength : 2 ≤ parts.length := by
    calc 2 ≤ w.symbols.length := hlong e he hsymbol w hw
      _ = (parts.filter (!·.isExtra)).length := hfits.length_eq
      _ ≤ parts.length := List.length_filter_le _ _
  obtain ⟨d, d', ds, rfl⟩ : ∃ d d' ds, parts = d :: d' :: ds := by
    match parts, hlength with
    | d :: d' :: ds, _ => exact ⟨d, d', ds, rfl⟩
  obtain ⟨front, htext⟩ := h.exists_text_eq
  -- the last one of them ends with the mark
  obtain ⟨after', hread'⟩ := h.within.exists_read hread
  have hedge := hv.edge (h.within.formed hc) hread' rfl h.symbol_eq (.inl hmem)
  obtain ⟨l, hl, hedge⟩ : ∃ l, (d' :: ds).getLast? = some l ∧
      Edge definitions source .back [.mark m] l := by
    cases hedge with
    | phrase hlast hedge => exact ⟨_, by simpa [Extremity.of] using hlast, hedge⟩
  obtain ⟨ls, hls⟩ := List.getLast?_eq_some_iff.1 hl
  rw [hls] at htext hread'
  obtain ⟨after'', hread''⟩ := Concrete.exists_read_of_mem (c := l) hread'.2 (by simp)
  obtain ⟨t, ht, front', gap, text, hltext, hspells⟩ := hedge.exists_back hv.ends hread''
  obtain rfl := List.mem_singleton.1 ht
  obtain rfl : text = m.toList := hspells
  intro hempty
  rw [htext, Concrete.textAll_append] at hempty
  have hnil := congrArg String.toList hempty
  simp only [Concrete.textAll, String.toList_append, hltext, String.toList_empty,
    List.append_eq_nil_iff] at hnil
  exact hm (String.toList_eq_nil_iff.1 hnil.2.2.1.2)

/-- The parts of a tree in its post are parts of the phrase. -/
theorem Concrete.exists_items_subset (book : RuleBook) {R : Placed → Concrete → Prop}
    {ps : List Placed} {cs : List Concrete} (h : List.Forall₂ R ps (cs.filter (!·.isExtra)))
    {p : Placed} (hp : p ∈ ps) :
    ∃ c ∈ cs, R p c ∧ c.items book ⟨p.role?, p.guise?⟩ ⊆
      itemsMore book (ps.map fun p => ⟨p.role?, p.guise?⟩) cs := by
  induction cs generalizing ps with
  | nil =>
    cases h
    simp at hp
  | cons c cs ih =>
    by_cases hc : c.isExtra = true
    · rw [List.filter_cons_of_neg (by simp [hc])] at h
      obtain ⟨d, hd, hR, hsubset⟩ := ih h hp
      refine ⟨d, List.mem_cons_of_mem _ hd, hR, fun i hi => ?_⟩
      simp [itemsMore, hc, hsubset hi]
    · rw [List.filter_cons_of_pos (by simp [hc])] at h
      cases h with
      | @cons p' _ ps' _ hR hrest =>
        rcases List.mem_cons.1 hp with rfl | hp
        · refine ⟨c, List.mem_cons_self, hR, fun i hi => ?_⟩
          simp [itemsMore, hi]
        · obtain ⟨d, hd, hR', hsubset⟩ := ih hrest hp
          refine ⟨d, List.mem_cons_of_mem _ hd, hR', fun i hi => ?_⟩
          simp [itemsMore, hc, hsubset hi]

theorem Item.mem_close_of_mem {passed : String} {is : List Item} {m : Node} (h : .node m ∈ is) :
    m ∈ close passed is := by
  induction is generalizing passed with
  | nil => simp at h
  | cons i is ih =>
    rcases List.mem_cons.1 h with rfl | hmem
    · simp only [close]
      split <;> simp
    · cases i with
      | gap t => exact ih hmem
      | node n =>
        simp only [close]
        split <;> simp [ih hmem]
      | extra n =>
        simp only [close]
        split <;> simp [ih hmem]

theorem Item.mem_children_build {l : Label} {is : List Item} {m : Node} (h : .node m ∈ is) :
    m ∈ (build l is).children := by
  have hany : is.any isNode = true := List.any_eq_true.2 ⟨_, h, rfl⟩
  rw [build, if_pos hany]
  exact mem_close_of_mem h

/-- A tree that fits a terminal is a token of it. -/
theorem exists_token_of_fits {d : Concrete} {t : Terminal}
    (hformed : d.Formed (.ofDefinitions definitions source))
    (hfits : Fits (.ofDefinitions definitions source) d
      (RuleBook.number definitions source (.terminal t)))
    (hmem : .terminal t ∈ RuleBook.symbols definitions source) :
    ∃ k gap text, d = .token k gap text ∧
      RuleBook.symbolAt? definitions source k = some (.terminal t) ∧
      (RuleBook.ofDefinitions definitions source).guiseOf k = t.guise := by
  obtain ⟨hextra, s, hs, rfl⟩ := RuleBook.exists_symbol_of_fits (P := (· = .terminal t))
    (fun e he _ h => by
      have := RuleBook.isTerminal_fst_of_mem_entries he
      simp [h, Symbol.isTerminal] at this)
    hfits (RuleBook.symbolAt?_number hmem) rfl
  cases d with
  | token k gap text => exact ⟨k, gap, text, rfl, hs, (RuleBook.guiseOf_terminal hs).2⟩
  | comment gap text => simp [Concrete.isExtra] at hextra
  | island gap i => simp [Concrete.isExtra] at hextra
  | phrase q parts =>
    obtain ⟨r, hr, e, he, hhead, -⟩ := exists_entry_of_formed hformed
    rw [Concrete.symbol_phrase hr, hhead] at hs
    have := RuleBook.isTerminal_fst_of_mem_entries he
    simp [Option.some.inj hs, Symbol.isTerminal] at this

/-- **A node has a child in a role if all wordings of its rule have a token in it.** -/
theorem Node.Shows.exists_childByField? (h : n.Shows definitions source c q parts r)
    (hc : c.Formed (.ofDefinitions definitions source)) {t : Terminal} {role : String}
    (ht : t.guise ≠ .hidden)
    (hrole : ∀ e ∈ RuleBook.entries definitions source, e.1 = .phrase n.rule →
      ∀ w ∈ RuleBook.wordingsOf e, (⟨.terminal t, some role, none⟩ : Placed) ∈ w.symbols) :
    ∃ m, n.childByField? role = some m := by
  obtain ⟨e, he, hsymbol, w, hw, hposts, hfits⟩ := h.exists_wording hc
  have hp := hrole e he hsymbol w hw
  obtain ⟨d, hd, hfit, hsubset⟩ :=
    Concrete.exists_items_subset (.ofDefinitions definitions source) hfits hp
  have hformed := h.within.formed hc
  simp only [Concrete.Formed, Concrete.formedAll_iff] at hformed
  obtain ⟨k, gap, text, rfl, -, hguise⟩ := exists_token_of_fits (hformed.2 d hd) hfit
    (RuleBook.terminal_mem_symbols he hw hp rfl)
  -- the token shows as a node in the role
  obtain ⟨m, hm, hfield⟩ : ∃ m, .node m ∈ (Concrete.token k gap text).items
      (.ofDefinitions definitions source) ⟨some role, none⟩ ∧ m.field = some role := by
    simp only [Concrete.items, Option.getD_none, hguise]
    cases hg : t.guise with
    | hidden => exact absurd hg ht
    | bare kind => exact ⟨_, List.mem_singleton.2 rfl, Item.field_build _ _⟩
    | named kind => exact ⟨_, List.mem_singleton.2 rfl, Item.field_build _ _⟩
  rw [← Option.isSome_iff_exists, Node.childByField?, List.find?_isSome]
  refine ⟨m, ?_, by simp [hfield]⟩
  rw [h.eq_build, hposts]
  refine Item.mem_children_build ?_
  have hmore := hsubset hm
  cases parts with
  | nil => simp at hd
  | cons d' ds => simpa [Concrete.itemsMore, Concrete.itemsFirst] using hmore

end Nodes

end DocBlocks
