import DocBlocks.Proofs.Syntax.SourceReader

/-!
# Where no method stands

What a description reads as text is read from nodes that no method stands in: the names of classes,
namespaces and methods, the types that methods return, what a class extends, what is imported, and
how visible something is (`Node.Quiet`). So documentation, which is put in front of methods, does
not show there.

`quiet_of_sourceTree?`: the trees of sources are like that. As for roles, the rules are checked for
it once (`CalmSurvey`). A survey names phrases that no method can stand in, closed under what they
are made of (`calm`), and the phrases whose parts can show directly in a declaration (`inner`).
-/

namespace DocBlocks

/-! ### Trees without methods -/

namespace Node

/-- Whether no method stands below a node. -/
def HoldsNoMethod (n : Node) : Prop := ∀ d ∈ descendantsAll n.children, d.kind ≠ .method

instance (n : Node) : Decidable n.HoldsNoMethod :=
  inferInstanceAs (Decidable (∀ d ∈ descendantsAll n.children, d.kind ≠ .method))

theorem holdsNoMethod_of_isLeaf {n : Node} (h : n.isLeaf = true) : n.HoldsNoMethod := by
  cases n with
  | leaf l t => simp [HoldsNoMethod, descendantsAll]
  | branch l cs => simp [isLeaf] at h

theorem HoldsNoMethod.of_mem_children {n c : Node} (h : n.HoldsNoMethod) (hc : c ∈ n.children) :
    c.kind ≠ .method ∧ c.HoldsNoMethod := by
  refine ⟨h c (mem_descendantsAll.2 ⟨c, hc, c.self_mem_descendants⟩), fun d hd => ?_⟩
  refine h d (mem_descendantsAll.2 ⟨c, hc, ?_⟩)
  rw [descendants_eq]
  exact List.mem_cons_of_mem _ hd

/-- Whether a node is read as text by a description. -/
def IsRead (n : Node) : Prop :=
  n.kind = .baseClause ∨ n.kind = .modifier .visibility ∨ n.kind = .namespaceUse

/-- Whether a description reads parts of a node by their roles. -/
def Declares (n : Node) : Prop :=
  n.kind = .classDeclaration ∨ n.kind = .namespaceDefinition ∨ n.kind = .method

/-- The roles of what is read as text in a declaration. -/
def readRoles : List String := ["name", "return_type"]

/-- Whether no method stands in what a description reads as text. -/
structure Quiet (n : Node) : Prop where
  read : ∀ d ∈ n.descendants, d.IsRead → d.HoldsNoMethod
  role : ∀ d ∈ n.descendants, d.Declares → ∀ c ∈ d.children, ∀ r ∈ readRoles,
    c.field = some r → c.HoldsNoMethod

instance (n : Node) : Decidable n.IsRead := by
  unfold IsRead
  infer_instance

instance (n : Node) : Decidable n.Declares := by
  unfold Declares
  infer_instance

instance (n : Node) : Decidable n.Quiet :=
  decidable_of_iff ((∀ d ∈ n.descendants, d.IsRead → d.HoldsNoMethod) ∧
      ∀ d ∈ n.descendants, d.Declares → ∀ c ∈ d.children, ∀ r ∈ readRoles,
        c.field = some r → c.HoldsNoMethod)
    ⟨fun h => ⟨h.1, h.2⟩, fun h => ⟨h.read, h.role⟩⟩

theorem Quiet.of_mem_descendants {n d : Node} (h : n.Quiet) (hd : d ∈ n.descendants) : d.Quiet where
  read e he := h.read e (mem_descendants_trans he hd)
  role e he := h.role e (mem_descendants_trans he hd)

theorem quiet_leaf (l : Label) (t : String) : (leaf l t).Quiet where
  read d hd _ := by
    obtain rfl := mem_descendants_leaf.1 hd
    exact holdsNoMethod_of_isLeaf rfl
  role d hd _ c hc := by
    obtain rfl := mem_descendants_leaf.1 hd
    simp at hc

theorem Quiet.withField {n : Node} (h : n.Quiet) (f : Option String) : (n.withField f).Quiet := by
  cases n with
  | leaf l t => exact quiet_leaf _ t
  | branch l cs =>
    refine ⟨fun d hd hread => ?_, fun d hd hdeclares c hc => ?_⟩
    · rcases mem_descendants_branch.1 hd with rfl | ⟨c, hc, hd⟩
      · exact h.read (branch l cs) (self_mem_descendants _) hread
      · exact h.read d (mem_descendants_branch.2 (.inr ⟨c, hc, hd⟩)) hread
    · rcases mem_descendants_branch.1 hd with rfl | ⟨e, he, hd⟩
      · exact h.role (branch l cs) (self_mem_descendants _) hdeclares c hc
      · exact h.role d (mem_descendants_branch.2 (.inr ⟨e, he, hd⟩)) hdeclares c hc

end Node

/-! ### Parts without methods -/

namespace Item

/-- Whether a part is no method and none stands in it. -/
def Calm : Item → Prop
  | gap _ => True
  | node n => ∀ d ∈ n.descendants, d.kind ≠ .method
  | extra n => ∀ d ∈ n.descendants, d.kind ≠ .method

/-- Whether no method stands in a part if it is read as text for its role. -/
def CalmIfRead : Item → Prop
  | gap _ => True
  | node n => ∀ r ∈ Node.readRoles, n.field = some r → n.HoldsNoMethod
  | extra n => ∀ r ∈ Node.readRoles, n.field = some r → n.HoldsNoMethod

/-- Whether the tree of a part is quiet. -/
def Quiet : Item → Prop
  | gap _ => True
  | node n => n.Quiet
  | extra n => n.Quiet

theorem holdsNoMethod_branch {l : Label} {is : List Item} (h : ∀ i ∈ is, i.Calm) :
    (Node.branch l (close "" is)).HoldsNoMethod := by
  intro d hd
  obtain ⟨c, hc, hd⟩ := Node.mem_descendantsAll.1 hd
  rcases mem_close hc with ⟨t, rfl⟩ | hc | hc
  · obtain rfl := Node.mem_descendants_leaf.1 hd
    simp
  · exact h _ hc d hd
  · exact h _ hc d hd

theorem holdsNoMethod_build {l : Label} {is : List Item} (h : ∀ i ∈ is, i.Calm) :
    (build l is).HoldsNoMethod := by
  simp only [build]
  split
  · exact holdsNoMethod_branch h
  · exact Node.holdsNoMethod_of_isLeaf rfl

theorem label_build (l : Label) (is : List Item) : (build l is).label = l := by
  simp only [build]
  split <;> rfl

theorem calm_build {l : Label} {is : List Item} (hl : l.kind ≠ .method) (h : ∀ i ∈ is, i.Calm) :
    (node (build l is)).Calm := by
  intro d hd
  rw [Node.descendants_eq] at hd
  rcases List.mem_cons.1 hd with rfl | hd
  · rwa [Node.kind, label_build]
  · exact holdsNoMethod_build h d hd

theorem Calm.inRole {i : Item} (h : i.Calm) (role? : Option String) : (i.inRole role?).Calm := by
  cases i with
  | gap t => trivial
  | extra n => exact h
  | node n =>
    simp only [Item.inRole]
    split
    · exact h
    · intro d hd
      rw [Node.descendants_eq, Node.children_withField] at hd
      rcases List.mem_cons.1 hd with rfl | hd
      · rw [Node.kind_withField]
        exact h n n.self_mem_descendants
      · exact h d (by rw [Node.descendants_eq]; exact List.mem_cons_of_mem _ hd)

theorem Calm.calmIfRead {i : Item} (h : i.Calm) : i.CalmIfRead := by
  have hnode : ∀ n : Node, (∀ d ∈ n.descendants, d.kind ≠ .method) → n.HoldsNoMethod :=
    fun n hn d hd => hn d (by rw [Node.descendants_eq]; exact List.mem_cons_of_mem _ hd)
  cases i with
  | gap t => trivial
  | node n => exact fun _ _ _ => hnode n h
  | extra n => exact fun _ _ _ => hnode n h

theorem CalmIfRead.inRole {i : Item} (h : i.CalmIfRead) {role? : Option String}
    (hrole : ∀ r ∈ role?, r ∉ Node.readRoles) : (i.inRole role?).CalmIfRead := by
  cases i with
  | gap t => trivial
  | extra n => exact h
  | node n =>
    simp only [Item.inRole]
    split
    · exact h
    · intro r hr hf
      rw [Node.field_withField] at hf
      exact absurd hr (hrole r hf)

theorem Quiet.inRole {i : Item} (h : i.Quiet) (role? : Option String) : (i.inRole role?).Quiet := by
  cases i with
  | gap t => trivial
  | extra n => exact h
  | node n =>
    simp only [Item.inRole]
    split
    · exact h
    · exact Node.Quiet.withField h role?

theorem quiet_branch {l : Label} {is : List Item} (h : ∀ i ∈ is, i.Quiet)
    (hread : (Node.leaf l "").IsRead → ∀ i ∈ is, i.Calm)
    (hdeclares : (Node.leaf l "").Declares → ∀ i ∈ is, i.CalmIfRead) :
    (Node.branch l (close "" is)).Quiet := by
  have hbelow : ∀ c ∈ close "" is, c.Quiet := by
    intro c hc
    rcases mem_close hc with ⟨t, rfl⟩ | hc | hc
    · exact Node.quiet_leaf _ t
    · exact h _ hc
    · exact h _ hc
  refine ⟨fun d hd hd' => ?_, fun d hd hd' c hc r hr hf => ?_⟩
  · rcases Node.mem_descendants_branch.1 hd with rfl | ⟨c, hc, hd⟩
    · exact holdsNoMethod_branch (hread hd')
    · exact (hbelow c hc).read d hd hd'
  · rcases Node.mem_descendants_branch.1 hd with rfl | ⟨e, he, hd⟩
    · rcases mem_close hc with ⟨t, rfl⟩ | hc | hc
      · exact Node.holdsNoMethod_of_isLeaf rfl
      · exact hdeclares hd' _ hc r hr hf
      · exact hdeclares hd' _ hc r hr hf
    · exact (hbelow e he).role d hd hd' c hc r hr hf

theorem quiet_build {l : Label} {is : List Item} (h : ∀ i ∈ is, i.Quiet)
    (hread : (Node.leaf l "").IsRead → ∀ i ∈ is, i.Calm)
    (hdeclares : (Node.leaf l "").Declares → ∀ i ∈ is, i.CalmIfRead) : (build l is).Quiet := by
  simp only [build]
  split
  · exact quiet_branch h hread hdeclares
  · exact Node.quiet_leaf _ _

end Item

theorem calm_dress {guise : Guise} {role? : Option String} {is : List Item}
    (hguise : guise ≠ .named "method_declaration") (h : ∀ i ∈ is, i.Calm) :
    ∀ i ∈ dress guise role? is, i.Calm := by
  intro i hi
  cases guise with
  | hidden =>
    obtain ⟨j, hj, rfl⟩ := List.mem_map.1 hi
    exact (h j hj).inRole role?
  | bare kind =>
    obtain rfl := List.mem_singleton.1 hi
    refine Item.calm_build (fun hk => ?_) h
    simpa using (rule_of_kind_eq_method hk).1
  | named kind =>
    obtain rfl := List.mem_singleton.1 hi
    refine Item.calm_build (fun hk => hguise ?_) h
    rw [(rule_of_kind_eq_method hk).2]

theorem calmIfRead_dress {guise : Guise} {role? : Option String} {is : List Item}
    (hrole : ∀ r ∈ role?, r ∉ Node.readRoles) (h : guise = .hidden → ∀ i ∈ is, i.CalmIfRead) :
    ∀ i ∈ dress guise role? is, i.CalmIfRead := by
  have hbuild : ∀ kind named, (Item.node (Item.build (ruleLabel kind named role?) is)).CalmIfRead := by
    intro kind named r hr hf
    rw [Item.field_build] at hf
    exact absurd hr (hrole r hf)
  intro i hi
  cases guise with
  | hidden =>
    obtain ⟨j, hj, rfl⟩ := List.mem_map.1 hi
    exact (h rfl j hj).inRole hrole
  | bare kind =>
    obtain rfl := List.mem_singleton.1 hi
    exact hbuild kind false
  | named kind =>
    obtain rfl := List.mem_singleton.1 hi
    exact hbuild kind true

/-- The rules whose nodes are read as text. -/
def readRules : List String :=
  ["base_clause", "visibility_modifier", "namespace_use_declaration"]

/-- The rules whose nodes declare something. -/
def declaringRules : List String :=
  ["class_declaration", "namespace_definition", "method_declaration"]

theorem mem_readRules {rule : String} {named : Bool} {role? : Option String} {t : String}
    (h : (Node.leaf (ruleLabel rule named role?) t).IsRead) : rule ∈ readRules := by
  have htable : ∀ x ∈ Kind.ofRule, x.2 = .baseClause ∨ x.2 = .modifier .visibility ∨
      x.2 = .namespaceUse → x.1 ∈ readRules := by decide
  rcases h with h | h | h
  · exact htable _ (mem_ofRule_of_kind_eq h (by decide)).2 (.inl rfl)
  · exact htable _ (mem_ofRule_of_kind_eq h (by decide)).2 (.inr (.inl rfl))
  · exact htable _ (mem_ofRule_of_kind_eq h (by decide)).2 (.inr (.inr rfl))

theorem mem_declaringRules {rule : String} {named : Bool} {role? : Option String} {t : String}
    (h : (Node.leaf (ruleLabel rule named role?) t).Declares) : rule ∈ declaringRules := by
  have htable : ∀ x ∈ Kind.ofRule, x.2 = .classDeclaration ∨ x.2 = .namespaceDefinition ∨
      x.2 = .method → x.1 ∈ declaringRules := by decide
  rcases h with h | h | h
  · exact htable _ (mem_ofRule_of_kind_eq h (by decide)).2 (.inl rfl)
  · exact htable _ (mem_ofRule_of_kind_eq h (by decide)).2 (.inr (.inl rfl))
  · exact htable _ (mem_ofRule_of_kind_eq h (by decide)).2 (.inr (.inr rfl))

/-- The rule that a node in a guise is of. -/
def Guise.rule? : Guise → Option String
  | hidden => none
  | bare kind => some kind
  | named kind => some kind

theorem quiet_dress {guise : Guise} {role? : Option String} {is : List Item}
    (h : ∀ i ∈ is, i.Quiet) (hread : ∀ r ∈ guise.rule?, r ∈ readRules → ∀ i ∈ is, i.Calm)
    (hdeclares : ∀ r ∈ guise.rule?, r ∈ declaringRules → ∀ i ∈ is, i.CalmIfRead) :
    ∀ i ∈ dress guise role? is, i.Quiet := by
  intro i hi
  cases guise with
  | hidden =>
    obtain ⟨j, hj, rfl⟩ := List.mem_map.1 hi
    exact (h j hj).inRole role?
  | bare kind =>
    obtain rfl := List.mem_singleton.1 hi
    exact Item.quiet_build h (fun hr => hread kind rfl (mem_readRules hr))
      fun hd => hdeclares kind rfl (mem_declaringRules hd)
  | named kind =>
    obtain rfl := List.mem_singleton.1 hi
    exact Item.quiet_build h (fun hr => hread kind rfl (mem_readRules hr))
      fun hd => hdeclares kind rfl (mem_declaringRules hd)

/-! ### Extras and tokens -/

theorem Island.calm_node (i : Island) : (Item.extra i.node).Calm := by
  obtain ⟨parts, hnode, hparts⟩ := i.exists_node_eq
  have hkind : (ruleLabel "text_interpolation" true none).kind ≠ .method :=
    fun hk => absurd (rule_of_kind_eq_method hk).2 (by decide)
  rw [hnode]
  refine Item.calm_build hkind fun j hj => ?_
  rcases hparts j hj with ⟨t, rfl⟩ | ⟨rule, hrule, t, rfl⟩
  · trivial
  · intro d hd
    obtain rfl := Node.mem_descendants_leaf.1 hd
    intro hk
    obtain ⟨-, rfl⟩ := rule_of_kind_eq_method hk
    simp at hrule

theorem Island.quiet_node (i : Island) : i.node.Quiet := by
  obtain ⟨parts, hnode, hparts⟩ := i.exists_node_eq
  rw [hnode]
  refine Item.quiet_build (fun j hj => ?_) (fun h => ?_) fun h => ?_
  · rcases hparts j hj with ⟨t, rfl⟩ | ⟨rule, -, t, rfl⟩
    · trivial
    · exact Node.quiet_leaf _ _
  · exact absurd (mem_readRules h) (by decide)
  · exact absurd (mem_declaringRules h) (by decide)

namespace Concrete

variable {book : RuleBook} {c : Concrete}

theorem calm_items_of_isExtra (h : c.isExtra = true) (post : Post) :
    ∀ i ∈ c.items book post, i.Calm := by
  intro i hi
  cases c with
  | token t gap text => simp [isExtra] at h
  | phrase p parts => simp [isExtra] at h
  | comment gap text =>
    obtain rfl := List.mem_singleton.1 hi
    intro d hd
    obtain rfl := Node.mem_descendants_leaf.1 hd
    simp [Node.kind]
  | island gap isle =>
    obtain rfl := List.mem_singleton.1 hi
    exact isle.calm_node

theorem quiet_items_of_isExtra (h : c.isExtra = true) (post : Post) :
    ∀ i ∈ c.items book post, i.Quiet := by
  intro i hi
  cases c with
  | token t gap text => simp [isExtra] at h
  | phrase p parts => simp [isExtra] at h
  | comment gap text =>
    obtain rfl := List.mem_singleton.1 hi
    exact Node.quiet_leaf _ _
  | island gap isle =>
    obtain rfl := List.mem_singleton.1 hi
    exact isle.quiet_node

end Concrete

/-! ### A survey of rules -/

section Survey

variable (definitions : List Definition) (source : String) (calm inner : List Symbol)

/-- Whether a symbol is a token or a phrase that no method can stand in. -/
def IsCalm (s : Symbol) : Prop := s.isTerminal = true ∨ s ∈ calm

/-- Whether a symbol in a post leaves no methods in what is read for its role: none can stand in it,
or it is in another role and does not bring such roles of its own along. -/
def CalmInPost (s : Symbol) (post : Post) : Prop :=
  IsCalm calm s ∨ ((∀ r ∈ post.role?.toList, r ∉ Node.readRoles) ∧
    (post.guise?.any (· != .hidden) = true ∨
      (post.guise? = none ∧ (ShowsAsNode definitions source s ∨ s ∈ inner))))

instance (s : Symbol) : Decidable (IsCalm calm s) := by
  unfold IsCalm
  infer_instance

instance (s : Symbol) (post : Post) : Decidable (CalmInPost definitions source calm inner s post) := by
  unfold CalmInPost ShowsAsNode
  infer_instance

/-- A survey of rules that finds no method in what descriptions read as text. -/
structure CalmSurvey : Prop where
  guise_ne : ∀ e ∈ RuleBook.entries definitions source, ∀ w ∈ RuleBook.wordingsOf e,
    ∀ p ∈ w.symbols, ∀ r ∈ (p.guise?.bind Guise.rule?).toList, r ∉ readRules ∧ r ∉ declaringRules
  known : ∀ e ∈ RuleBook.entries definitions source, e.1 ∈ calm ∨ e.1 ∈ inner →
    ∀ w ∈ RuleBook.wordingsOf e, ∀ p ∈ w.symbols,
      p.symbol.isTerminal = true ∨ p.symbol ∈ (RuleBook.entries definitions source).map (·.1)
  calm_parts : ∀ e ∈ RuleBook.entries definitions source, e.1 ∈ calm →
    e.2.1.guise ≠ .named "method_declaration" ∧ ∀ w ∈ RuleBook.wordingsOf e, ∀ p ∈ w.symbols,
      IsCalm calm p.symbol
  calm_of_read : ∀ e ∈ RuleBook.entries definitions source, ∀ r ∈ e.2.1.guise.rule?.toList,
    r ∈ readRules → e.1 ∈ calm
  inner_of_declaring : ∀ e ∈ RuleBook.entries definitions source, ∀ r ∈ e.2.1.guise.rule?.toList,
    r ∈ declaringRules → e.1 ∈ inner
  inner_parts : ∀ e ∈ RuleBook.entries definitions source, e.1 ∈ inner →
    ∀ w ∈ RuleBook.wordingsOf e, ∀ p ∈ w.symbols,
      CalmInPost definitions source calm inner p.symbol ⟨p.role?, p.guise?⟩

end Survey

/-! ### Trees of surveyed rules -/

section Trees

variable {definitions : List Definition} {source : String} {calm inner : List Symbol}

theorem CalmSurvey.mem_symbols (hv : CalmSurvey definitions source calm inner)
    {e : Symbol × PhraseSort × Rule} (he : e ∈ RuleBook.entries definitions source)
    (hknown : e.1 ∈ calm ∨ e.1 ∈ inner) {w : Wording} (hw : w ∈ RuleBook.wordingsOf e) {p : Placed}
    (hp : p ∈ w.symbols) : p.symbol ∈ RuleBook.symbols definitions source := by
  rcases hv.known e he hknown w hw p hp with h | h
  · exact RuleBook.terminal_mem_symbols he hw hp h
  · exact List.mem_append_right _ h

theorem IsCalm.mem {e : Symbol × PhraseSort × Rule} (h : IsCalm calm e.1)
    (he : e ∈ RuleBook.entries definitions source) : e.1 ∈ calm := by
  rcases h with h | h
  · simp [RuleBook.isTerminal_fst_of_mem_entries he] at h
  · exact h

/-- A calm symbol does not show as a method. -/
theorem CalmSurvey.guiseOf_ne (hv : CalmSurvey definitions source calm inner) {n : Nat} {s : Symbol}
    (hn : RuleBook.symbolAt? definitions source n = some s) (hs : IsCalm calm s) :
    (RuleBook.ofDefinitions definitions source).guiseOf n ≠ .named "method_declaration" := by
  by_cases hterminal : s.isTerminal = true
  · obtain ⟨t, rfl⟩ := Symbol.exists_terminal hterminal
    rw [(RuleBook.guiseOf_terminal hn).2]
    cases t <;> simp [Terminal.guise]
  · obtain ⟨e, he, rfl, hguise, -⟩ := RuleBook.exists_entry_of_symbolAt? hn (by simpa using hterminal)
    rw [hguise]
    exact (hv.calm_parts e he (hs.mem he)).1

/-- A tree that fits a calm symbol has a calm symbol. -/
theorem IsCalm.of_fits (hv : CalmSurvey definitions source calm inner) {c : Concrete} {n : Nat}
    {s : Symbol} (hfits : Fits (.ofDefinitions definitions source) c n)
    (hn : RuleBook.symbolAt? definitions source n = some s) (h : IsCalm calm s) :
    ∃ s', RuleBook.symbolAt? definitions source
        (c.symbol (.ofDefinitions definitions source)) = some s' ∧ IsCalm calm s' := by
  refine (RuleBook.exists_symbol_of_fits (fun e he _ h w hw p hp _ _ => ?_) hfits hn h).2
  have hpm : p ∈ w.symbols := by simp [hp]
  exact ⟨(hv.calm_parts e he (h.mem he)).2 w hw p hpm,
    hv.mem_symbols he (.inl (h.mem he)) hw hpm⟩

/-- No rule lets its parts show as methods. -/
theorem CalmSurvey.guise?_ne_method (hv : CalmSurvey definitions source calm inner)
    {e : Symbol × PhraseSort × Rule} (he : e ∈ RuleBook.entries definitions source) {w : Wording}
    (hw : w ∈ RuleBook.wordingsOf e) {p : Placed} (hp : p ∈ w.symbols) :
    p.guise? ≠ some (.named "method_declaration") := by
  intro hguise
  have hrule : "method_declaration" ∈ (p.guise?.bind Guise.rule?).toList := by
    simp [hguise, Guise.rule?]
  exact (hv.guise_ne e he w hw p hp _ hrule).2 (by decide)

/-- No method stands in the parts of a calm phrase, if none stands in its trees. -/
theorem calm_itemsFirst (hv : CalmSurvey definitions source calm inner) {parts : List Concrete}
    {posts : List Post} {e : Symbol × PhraseSort × Rule}
    (he : e ∈ RuleBook.entries definitions source) (hcalm : e.1 ∈ calm) {w : Wording}
    (hw : w ∈ RuleBook.wordingsOf e)
    (hfits : List.Forall₂ (fun c post => ∃ p ∈ w.symbols, post = ⟨p.role?, p.guise?⟩ ∧
        Fits (.ofDefinitions definitions source) c (RuleBook.number definitions source p.symbol))
      (parts.filter (!·.isExtra)) posts)
    (hparts : ∀ c ∈ parts, ∀ {n s post}, Fits (.ofDefinitions definitions source) c n →
      RuleBook.symbolAt? definitions source n = some s → IsCalm calm s →
      post.guise? ≠ some (.named "method_declaration") →
      ∀ i ∈ c.items (.ofDefinitions definitions source) post, i.Calm) :
    ∀ i ∈ Concrete.itemsFirst (.ofDefinitions definitions source) posts parts, i.Calm := by
  intro i hi
  refine Concrete.forall_itemsMore_of_forall₂ (fun _ => trivial) hfits
    (fun c _ hc => Concrete.calm_items_of_isExtra hc) ?_ i
    (Concrete.mem_itemsMore_of_mem_itemsFirst hi)
  rintro c hc _ ⟨p, hp, rfl, hfit⟩
  exact hparts c hc hfit (RuleBook.symbolAt?_number (hv.mem_symbols he (.inl hcalm) hw hp))
    ((hv.calm_parts e he hcalm).2 w hw p hp) (hv.guise?_ne_method he hw hp)

/-- **No method stands in a tree that fits a calm symbol.** -/
theorem calm_items (hv : CalmSurvey definitions source calm inner) {c : Concrete} {n : Nat}
    {s : Symbol} {post : Post} (hc : c.Formed (.ofDefinitions definitions source))
    (hfits : Fits (.ofDefinitions definitions source) c n)
    (hn : RuleBook.symbolAt? definitions source n = some s) (h : IsCalm calm s)
    (hpost : post.guise? ≠ some (.named "method_declaration")) :
    ∀ i ∈ c.items (.ofDefinitions definitions source) post, i.Calm := by
  induction c using Concrete.treeInduction generalizing n s post with
  | token t gap text =>
    obtain ⟨s', hs', h'⟩ := h.of_fits hv hfits hn
    refine calm_dress ?_ (by simp [Item.Calm])
    cases hg : post.guise? with
    | none => exact hv.guiseOf_ne hs' h'
    | some g => exact fun heq => hpost (hg.trans (congrArg some heq))
  | comment gap text => exact Concrete.calm_items_of_isExtra rfl post
  | island gap isle => exact Concrete.calm_items_of_isExtra rfl post
  | phrase q parts ih =>
    obtain ⟨s', hs', h'⟩ := h.of_fits hv hfits hn
    have hformed := hc
    obtain ⟨r, hr, e, he, hhead, w, hw, hposts⟩ := exists_entry_of_formed hc
    simp only [Concrete.Formed, Concrete.formedAll_iff] at hformed
    rw [Concrete.symbol_phrase hr] at hs'
    obtain rfl := Option.some.inj (hhead.symm.trans hs')
    simp only [Concrete.items, hr]
    refine calm_dress ?_ fun i hi => ?_
    · cases hg : post.guise? with
      | none => exact hv.guiseOf_ne hs' h'
      | some g => exact fun heq => hpost (hg.trans (congrArg some heq))
    · exact calm_itemsFirst hv he (h'.mem he) hw hposts (fun c hc => ih c hc (hformed.2 c hc)) i hi

/-! ### Declarations -/

theorem Item.Bare.calmIfRead {i : Item} (h : i.Bare) : i.CalmIfRead := by
  cases i with
  | gap t => trivial
  | node n => exact fun _ _ _ => Node.holdsNoMethod_of_isLeaf h
  | extra n =>
    intro r _ hf
    rw [show n.field = none from h] at hf
    simp at hf

/-- A tree that fits a symbol that leaves no methods in what is read has such a symbol. -/
theorem CalmInPost.of_fits (hv : CalmSurvey definitions source calm inner) {c : Concrete} {n : Nat}
    {s : Symbol} {role? : Option String} (hfits : Fits (.ofDefinitions definitions source) c n)
    (hn : RuleBook.symbolAt? definitions source n = some s)
    (h : CalmInPost definitions source calm inner s ⟨role?, none⟩) :
    ∃ s', RuleBook.symbolAt? definitions source
        (c.symbol (.ofDefinitions definitions source)) = some s' ∧
      CalmInPost definitions source calm inner s' ⟨role?, none⟩ := by
  refine (RuleBook.exists_symbol_of_fits (fun e he hhidden h w hw p hp hrole hguise => ?_)
    hfits hn h).2
  have hpm : p ∈ w.symbols := by simp [hp]
  rcases h with h | ⟨hne, h | ⟨-, h | h⟩⟩
  · exact ⟨.inl ((hv.calm_parts e he (h.mem he)).2 w hw p hpm),
      hv.mem_symbols he (.inl (h.mem he)) hw hpm⟩
  · simp at h
  · -- a phrase that shows as a node is never passed over
    obtain ⟨e', he', hee, hguise'⟩ := hhidden
    exact absurd hguise' (h e' he' hee)
  · have hpart := hv.inner_parts e he h w hw p hpm
    rw [hrole, hguise] at hpart
    refine ⟨?_, hv.mem_symbols he (.inr h) hw hpm⟩
    rcases hpart with hpart | ⟨-, hpart⟩
    · exact .inl hpart
    · exact .inr ⟨hne, hpart⟩

/-- No method stands in what is read for its role in the parts of a phrase that shows in a
declaration, if none does in its trees. -/
theorem calmIfRead_itemsFirst (hv : CalmSurvey definitions source calm inner)
    {parts : List Concrete} {posts : List Post} {e : Symbol × PhraseSort × Rule}
    (he : e ∈ RuleBook.entries definitions source) (hinner : e.1 ∈ inner) {w : Wording}
    (hw : w ∈ RuleBook.wordingsOf e)
    (hfits : List.Forall₂ (fun c post => ∃ p ∈ w.symbols, post = ⟨p.role?, p.guise?⟩ ∧
        Fits (.ofDefinitions definitions source) c (RuleBook.number definitions source p.symbol))
      (parts.filter (!·.isExtra)) posts)
    (hparts : ∀ c ∈ parts, ∀ {n s post}, Fits (.ofDefinitions definitions source) c n →
      RuleBook.symbolAt? definitions source n = some s →
      CalmInPost definitions source calm inner s post →
      post.guise? ≠ some (.named "method_declaration") →
      ∀ i ∈ c.items (.ofDefinitions definitions source) post, i.CalmIfRead) :
    ∀ i ∈ Concrete.itemsFirst (.ofDefinitions definitions source) posts parts, i.CalmIfRead := by
  intro i hi
  refine Concrete.forall_itemsMore_of_forall₂ (fun _ => trivial) hfits
    (fun c _ hc post j hj => (Concrete.bare_items_of_isExtra hc post j hj).calmIfRead) ?_ i
    (Concrete.mem_itemsMore_of_mem_itemsFirst hi)
  rintro c hc _ ⟨p, hp, rfl, hfit⟩
  exact hparts c hc hfit (RuleBook.symbolAt?_number (hv.mem_symbols he (.inr hinner) hw hp))
    (hv.inner_parts e he hinner w hw p hp) (hv.guise?_ne_method he hw hp)

/-- **No method stands in what is read for its role.** -/
theorem calmIfRead_items (hv : CalmSurvey definitions source calm inner) {c : Concrete} {n : Nat}
    {s : Symbol} {post : Post} (hc : c.Formed (.ofDefinitions definitions source))
    (hfits : Fits (.ofDefinitions definitions source) c n)
    (hn : RuleBook.symbolAt? definitions source n = some s)
    (h : CalmInPost definitions source calm inner s post)
    (hpost : post.guise? ≠ some (.named "method_declaration")) :
    ∀ i ∈ c.items (.ofDefinitions definitions source) post, i.CalmIfRead := by
  induction c using Concrete.treeInduction generalizing n s post with
  | token t gap text => exact fun i hi => (bare_dress_gap _ _ _ i hi).calmIfRead
  | comment gap text => exact fun i hi => (Concrete.bare_items_of_isExtra rfl post i hi).calmIfRead
  | island gap isle => exact fun i hi => (Concrete.bare_items_of_isExtra rfl post i hi).calmIfRead
  | phrase q parts ih =>
    have hformed := hc
    obtain ⟨r, hr, e, he, hhead, w, hw, hposts⟩ := exists_entry_of_formed hc
    simp only [Concrete.Formed, Concrete.formedAll_iff] at hformed
    replace hformed := hformed.2
    cases hguise : post.guise? with
    | some g =>
      -- the rule says how the phrase shows
      rcases h with h | ⟨hrole, h⟩
      · exact fun i hi => (calm_items hv hc hfits hn h hpost i hi).calmIfRead
      · simp only [Concrete.items, hr, hguise]
        refine calmIfRead_dress (by simpa using hrole) fun hg => ?_
        simp_all
    | none =>
      -- the phrase shows in its own way, so its own symbol decides
      obtain ⟨role?, guise?⟩ := post
      obtain rfl : guise? = none := hguise
      obtain ⟨s', hs', h'⟩ := CalmInPost.of_fits hv hfits hn h
      have hsymbol := hs'
      rw [Concrete.symbol_phrase hr] at hs'
      obtain rfl := Option.some.inj (hhead.symm.trans hs')
      obtain ⟨e', he', hee, hguiseOf, -⟩ := RuleBook.exists_entry_of_symbolAt? hhead
        (RuleBook.isTerminal_fst_of_mem_entries he)
      rcases h' with h' | ⟨hrole, h' | ⟨-, h' | h'⟩⟩
      · exact fun i hi => (calm_items hv hc (.here rfl) hsymbol h' hpost i hi).calmIfRead
      · simp at h'
      · simp only [Concrete.items, hr, Option.getD_none, hguiseOf]
        exact calmIfRead_dress (by simpa using hrole) fun hg => absurd hg (h' e' he' hee)
      · simp only [Concrete.items, hr, Option.getD_none, hguiseOf]
        exact calmIfRead_dress (by simpa using hrole) fun _ =>
          calmIfRead_itemsFirst hv he h' hw hposts fun c hc => ih c hc (hformed c hc)

/-- **Trees of surveyed rules are quiet.** -/
theorem quiet_items (hv : CalmSurvey definitions source calm inner) {c : Concrete} {post : Post}
    (hc : c.Formed (.ofDefinitions definitions source))
    (hpost : ∀ r ∈ post.guise?.bind Guise.rule?, r ∉ readRules ∧ r ∉ declaringRules) :
    ∀ i ∈ c.items (.ofDefinitions definitions source) post, i.Quiet := by
  induction c using Concrete.treeInduction generalizing post with
  | token t gap text =>
    refine quiet_dress ?_ ?_ ?_ <;> simp [Item.Quiet, Item.Calm, Item.CalmIfRead]
  | comment gap text => exact Concrete.quiet_items_of_isExtra rfl post
  | island gap isle => exact Concrete.quiet_items_of_isExtra rfl post
  | phrase q parts ih =>
    have hformed := hc
    obtain ⟨r, hr, e, he, hhead, w, hw, hposts⟩ := exists_entry_of_formed hc
    simp only [Concrete.Formed, Concrete.formedAll_iff] at hformed
    replace hformed := hformed.2
    have hparts : ∀ i ∈ Concrete.itemsFirst (.ofDefinitions definitions source) r.posts parts,
        i.Quiet := by
      intro i hi
      refine Concrete.forall_itemsMore_of_forall₂ (fun _ => trivial) hposts
        (fun c _ hc => Concrete.quiet_items_of_isExtra hc) ?_ i
        (Concrete.mem_itemsMore_of_mem_itemsFirst hi)
      rintro c hc _ ⟨p, hp, rfl, -⟩
      exact ih c hc (hformed c hc) fun rule hrule => hv.guise_ne e he w hw p hp rule (by simpa using hrule)
    obtain ⟨e', he', hee, hguiseOf, -⟩ := RuleBook.exists_entry_of_symbolAt? hhead
      (RuleBook.isTerminal_fst_of_mem_entries he)
    -- a phrase is read as text, or declares something, only if it shows in its own way
    have hown : ∀ rule, (post.guise?.getD e'.2.1.guise).rule? = some rule →
        rule ∈ readRules ∨ rule ∈ declaringRules → e'.2.1.guise.rule? = some rule := by
      intro rule hrule hmem
      cases hg : post.guise? with
      | none => simpa [hg] using hrule
      | some g =>
        have hne := hpost rule (by simpa [hg] using hrule)
        exact absurd hmem (not_or.2 hne)
    simp only [Concrete.items, hr, hguiseOf]
    refine quiet_dress hparts (fun rule hrule hread => ?_) fun rule hrule hdeclares => ?_
    · have hcalm := hv.calm_of_read e' he' rule (by simpa using hown rule hrule (.inl hread)) hread
      exact calm_itemsFirst hv he (hee ▸ hcalm) hw hposts fun c hc => calm_items hv (hformed c hc)
    · have hinner := hv.inner_of_declaring e' he' rule
        (by simpa using hown rule hrule (.inr hdeclares)) hdeclares
      exact calmIfRead_itemsFirst hv he (hee ▸ hinner) hw hposts fun c hc =>
        calmIfRead_items hv (hformed c hc)

theorem Parsed.quiet_root (hv : CalmSurvey definitions source calm inner) {p : Parsed}
    (hp : p.Formed (.ofDefinitions definitions source)) :
    (p.root (.ofDefinitions definitions source)).Quiet := by
  obtain ⟨items, hroot, hitems⟩ := p.exists_root_eq (.ofDefinitions definitions source)
  rw [hroot]
  refine Item.quiet_branch (fun i hi => ?_) (fun h => ?_) fun h => ?_
  · rcases hitems i hi with ⟨t, rfl⟩ | rfl | hi
    · trivial
    · exact Node.quiet_leaf _ _
    · refine Concrete.forall_rootItems (fun _ => trivial) (fun c hc => ?_) i hi
      refine quiet_items hv (hp c hc) ?_
      cases c.isExtra <;> simp [Guise.rule?]
  · exact absurd (mem_readRules h) (by decide)
  · exact absurd (mem_declaringRules h) (by decide)

end Trees

/-- The phrases that no method can stand in and that descriptions read as text, or parts of them. -/
def calmPhrases : List Symbol :=
  [ .phrase "namespace_use_declaration", .phrase "namespace_use_group", .phrase "statement_end",
    .phrase "namespace_use_clause", .series (.followed (.mark ",") (.rule "namespace_use_clause")),
    .phrase "import_sort", .phrase "class_word",
    .phrase "qualified_name", .phrase "namespace_name", .phrase "relative_name", .phrase "path",
    .phrase "base_clause", .phrase "visibility_modifier", .phrase "type", .phrase "simple_type",
    .phrase "optional_type", .phrase "named_type", .phrase "primitive_type", .phrase "union_type",
    .phrase "intersection_type", .phrase "disjunctive_normal_form_type", .phrase "bottom_type",
    .series (.seq [.mark "\\", .token .name]), .series (.followed (.mark ",") .anyPath),
    .series (.followed (.mark "|") (.rule "simple_type")),
    .series (.followed (.mark "&") (.rule "simple_type")),
    .series (.followed (.mark "|") .disjunct) ]

/-- The phrases whose parts can show directly in a declaration. -/
def declaringPhrases : List Symbol :=
  [ .phrase "class_declaration", .phrase "namespace_definition", .phrase "method_declaration",
    .phrase "function_head", .phrase "modifier", .series (.rule "modifier"),
    .phrase "return_type", .phrase "statement_end" ]

theorem calmSurvey_sourceDefinitions :
    CalmSurvey sourceDefinitions "program" calmPhrases declaringPhrases where
  guise_ne := by decide +kernel
  known := by decide +kernel
  calm_parts := by decide +kernel
  calm_of_read := by decide +kernel
  inner_of_declaring := by decide +kernel
  inner_parts := by decide +kernel

/-- **No method stands in what is read as text in a source.** -/
theorem quiet_of_sourceTree? {source : String} {root : Node} (h : sourceTree? source = some root) :
    root.Quiet := by
  obtain ⟨p, hp, rfl⟩ := Option.map_eq_some_iff.1 h
  exact Parsed.quiet_root calmSurvey_sourceDefinitions
    (parse?_sound RuleBook.begunRight_sourceRules hp).2

namespace Node

theorem HoldsNoMethod.place {n : Node} (h : n.HoldsNoMethod) (index : LineIndex) (offset : Nat) :
    (n.place index offset).HoldsNoMethod := by
  intro d hd
  obtain ⟨c, hc, hd⟩ := mem_descendantsAll.1 hd
  rw [children_place] at hc
  obtain ⟨xs, c', ys, hcs, rfl⟩ := exists_place_of_mem_placeAll hc
  obtain ⟨m, hm, front, back, -, rfl⟩ := exists_place_of_mem_descendants hd
  rw [kind_place]
  exact h m (mem_descendantsAll.2 ⟨c', by simp [hcs], hm⟩)

theorem Quiet.placeIn {n : Node} (h : n.Quiet) (source : String) : (n.placeIn source).Quiet where
  read d hd hread := by
    obtain ⟨m, hm, front, back, -, rfl⟩ := exists_place_of_mem_descendants hd
    exact (h.read m hm (by simpa [IsRead] using hread)).place _ _
  role d hd hdeclares c hc r hr hf := by
    obtain ⟨m, hm, front, back, -, rfl⟩ := exists_place_of_mem_descendants hd
    rw [children_place] at hc
    obtain ⟨xs, c', ys, hcs, rfl⟩ := exists_place_of_mem_placeAll hc
    rw [field_place] at hf
    exact (h.role m hm (by simpa [Declares] using hdeclares) c' (by simp [hcs]) r hr hf).place _ _

end Node

theorem Node.quiet_of_parseSource {source : String} {root : Node}
    (h : parseSource source = .ok root) : root.Quiet := by
  obtain ⟨-, tree, htree, rfl⟩ := parseSource_eq_ok.1 h
  exact (quiet_of_sourceTree? htree).placeIn source

end DocBlocks
