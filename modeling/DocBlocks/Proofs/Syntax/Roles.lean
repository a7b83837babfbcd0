import DocBlocks.Proofs.Grammar.RuleBook
import DocBlocks.Proofs.Syntax.Build

/-!
# Roles

* `namesLeaf_of_sourceTree?`: in the tree of a source, what has the role of a name in a method has
  no nodes below it, so no documentation is ever attached inside a name.
* `commentsPlain_of_sourceTree?`: comments have no role.

The rules are checked for it once, as a list of definitions (`RoleSurvey`), and the check is carried
over to all trees that are formed by them. A survey names the phrases whose parts can show directly
in a method (`inner`) and the phrases that are nothing but tokens (`words`).
-/

namespace DocBlocks

/-! ### A survey of rules -/

section Survey

variable (definitions : List Definition) (source : String) (inner words : List Symbol)

/-- Whether a phrase shows as a node of its own. -/
def ShowsAsNode (s : Symbol) : Prop :=
  ∀ e ∈ RuleBook.entries definitions source, e.1 = s → e.2.1.guise ≠ .hidden

/-- Whether a symbol in a post leaves only leaves in the role of a name: it is a token, or nothing
but tokens, or it is in another role and does not bring names of its own along. -/
def Settled (s : Symbol) (post : Post) : Prop :=
  s.isTerminal = true ∨ (post.guise? = none ∧ s ∈ words) ∨
    (post.role? ≠ some "name" ∧
      (post.guise?.any (· != .hidden) = true ∨
        (post.guise? = none ∧ (ShowsAsNode definitions source s ∨ s ∈ inner))))

instance (s : Symbol) (post : Post) :
    Decidable (Settled definitions source inner words s post) := by
  unfold Settled ShowsAsNode
  infer_instance

/-- A survey of rules that finds the names of methods to be leaves, and no rule for comments. -/
structure RoleSurvey : Prop where
  guise_ne : ∀ e ∈ RuleBook.entries definitions source, ∀ w ∈ RuleBook.wordingsOf e,
    ∀ p ∈ w.symbols,
      p.guise? ≠ some (.named "method_declaration") ∧ p.guise? ≠ some (.named "comment")
  phrase_ne : ∀ e ∈ RuleBook.entries definitions source, e.2.1.guise ≠ .named "comment"
  inner_of_method : ∀ e ∈ RuleBook.entries definitions source,
    e.2.1.guise = .named "method_declaration" → e.1 ∈ inner
  hidden_of_word : ∀ e ∈ RuleBook.entries definitions source, e.1 ∈ words → e.2.1.guise = .hidden
  known : ∀ e ∈ RuleBook.entries definitions source, e.1 ∈ inner →
    ∀ w ∈ RuleBook.wordingsOf e, ∀ p ∈ w.symbols,
      p.symbol.isTerminal = true ∨ p.symbol ∈ (RuleBook.entries definitions source).map (·.1)
  settled : ∀ e ∈ RuleBook.entries definitions source, e.1 ∈ inner →
    ∀ w ∈ RuleBook.wordingsOf e, ∀ p ∈ w.symbols,
      Settled definitions source inner words p.symbol ⟨p.role?, p.guise?⟩
  terminal_of_word : ∀ e ∈ RuleBook.entries definitions source, e.1 ∈ words →
    ∀ w ∈ RuleBook.wordingsOf e, ∀ p ∈ w.symbols, p.symbol.isTerminal = true

end Survey

/-! ### Parts in the role of a name -/

namespace Item

/-- Whether a part is text, a leaf, or an extra, which never has a role. -/
def Bare : Item → Prop
  | gap _ => True
  | node n => n.isLeaf = true
  | extra n => n.field = none

/-- Whether a part is no branch in the role of a name. -/
def LeafIfName : Item → Prop
  | gap _ => True
  | node n => n.field = some "name" → n.isLeaf = true
  | extra n => n.field = some "name" → n.isLeaf = true

theorem field_build (l : Label) (is : List Item) : (build l is).field = l.field := by
  simp only [build]
  split <;> rfl

theorem Bare.inRole {i : Item} (h : i.Bare) (role? : Option String) : (i.inRole role?).Bare := by
  cases i with
  | node n =>
    simp only [Item.inRole]
    split
    · exact h
    · simpa [Bare] using h
  | gap t => trivial
  | extra n => exact h

theorem Bare.leafIfName {i : Item} (h : i.Bare) : i.LeafIfName := by
  cases i with
  | gap t => trivial
  | node n => exact fun _ => h
  | extra n =>
    intro hn
    rw [show n.field = none from h] at hn
    simp at hn

theorem LeafIfName.inRole {i : Item} (h : i.LeafIfName) {role? : Option String}
    (hrole : role? ≠ some "name") : (i.inRole role?).LeafIfName := by
  cases i with
  | node n =>
    simp only [Item.inRole]
    split
    · exact h
    · simp [LeafIfName, hrole]
  | gap t => trivial
  | extra n => exact h

end Item

theorem bare_dress_gap (guise : Guise) (role? : Option String) (t : String) :
    ∀ i ∈ dress guise role? [.gap t], i.Bare := by
  cases guise <;> simp [dress, Item.inRole, Item.Bare, Item.build, Item.isNode, Node.isLeaf]

theorem leafIfName_dress {guise : Guise} {role? : Option String} {is : List Item}
    (hrole : role? ≠ some "name") (h : guise = .hidden → ∀ i ∈ is, i.LeafIfName) :
    ∀ i ∈ dress guise role? is, i.LeafIfName := by
  intro i hi
  cases guise with
  | hidden =>
    obtain ⟨j, hj, rfl⟩ := List.mem_map.1 hi
    exact (h rfl j hj).inRole hrole
  | bare kind =>
    obtain rfl := List.mem_singleton.1 hi
    simp [Item.LeafIfName, Item.field_build, ruleLabel, hrole]
  | named kind =>
    obtain rfl := List.mem_singleton.1 hi
    simp [Item.LeafIfName, Item.field_build, ruleLabel, hrole]

/-! ### Parts and their posts -/

namespace Concrete

/-- A property of the parts of a phrase, given it for each tree in the post that belongs to it. -/
theorem forall_itemsMore_of_forall₂ {book : RuleBook} {P : Item → Prop} (hgap : ∀ t, P (.gap t))
    {R : Concrete → Post → Prop} {posts : List Post} {cs : List Concrete}
    (hposts : List.Forall₂ R (cs.filter (!·.isExtra)) posts)
    (hextra : ∀ c ∈ cs, c.isExtra = true → ∀ post, ∀ i ∈ c.items book post, P i)
    (hpart : ∀ c ∈ cs, ∀ post, R c post → ∀ i ∈ c.items book post, P i) :
    ∀ i ∈ itemsMore book posts cs, P i := by
  induction cs generalizing posts with
  | nil => simp [itemsMore]
  | cons c cs ih =>
    intro i hi
    simp only [itemsMore, List.cons_append, List.mem_cons, List.mem_append] at hi
    by_cases hc : c.isExtra = true
    · rw [List.filter_cons_of_neg (by simp [hc])] at hposts
      rcases hi with rfl | hi | hi
      · exact hgap _
      · exact hextra c List.mem_cons_self hc _ i hi
      · rw [if_pos hc] at hi
        exact ih hposts (fun d hd => hextra d (List.mem_cons_of_mem _ hd))
          (fun d hd => hpart d (List.mem_cons_of_mem _ hd)) i hi
    · rw [List.filter_cons_of_pos (by simp [hc])] at hposts
      cases hposts with
      | cons hpost hposts =>
        rcases hi with rfl | hi | hi
        · exact hgap _
        · exact hpart c List.mem_cons_self _ hpost i hi
        · rw [if_neg hc] at hi
          exact ih hposts (fun d hd => hextra d (List.mem_cons_of_mem _ hd))
            (fun d hd => hpart d (List.mem_cons_of_mem _ hd)) i hi

theorem bare_items_of_isExtra {book : RuleBook} {c : Concrete} (h : c.isExtra = true)
    (post : Post) : ∀ i ∈ c.items book post, i.Bare := by
  intro i hi
  cases c with
  | token t gap text => simp [isExtra] at h
  | phrase p parts => simp [isExtra] at h
  | comment gap text =>
    obtain rfl := List.mem_singleton.1 hi
    exact Node.field_comment _ _
  | island gap isle =>
    obtain rfl := List.mem_singleton.1 hi
    exact Item.field_build _ _

end Concrete

/-! ### Trees of surveyed rules -/

section Trees

variable {definitions : List Definition} {source : String} {inner words : List Symbol}

/-- The production of a formed phrase: its head stands for the phrase of an entry, and its parts fit
the symbols of a wording of that entry, each in its post. -/
theorem exists_entry_of_formed {q : Nat} {parts : List Concrete}
    (h : (Concrete.phrase q parts).Formed (.ofDefinitions definitions source)) :
    ∃ r, (RuleBook.ofDefinitions definitions source).productions[q]? = some r ∧
      ∃ e ∈ RuleBook.entries definitions source,
        RuleBook.symbolAt? definitions source r.head = some e.1 ∧
        ∃ w ∈ RuleBook.wordingsOf e, List.Forall₂ (fun c post => ∃ p ∈ w.symbols,
          post = ⟨p.role?, p.guise?⟩ ∧
            Fits (.ofDefinitions definitions source) c (RuleBook.number definitions source p.symbol))
          (parts.filter (!·.isExtra)) r.posts := by
  simp only [Concrete.Formed] at h
  obtain ⟨⟨r, hr, hfits⟩, -⟩ := h
  obtain ⟨e, he, w, hw, -, hhead, hbody, hposts⟩ := RuleBook.exists_wording hr
  refine ⟨r, hr, e, he, ?_, w, hw, ?_⟩
  · rw [hhead]
    exact RuleBook.symbolAt?_number (RuleBook.fst_mem_symbols he)
  · rw [hbody, List.forall₂_map_right_iff] at hfits
    rw [hposts, List.forall₂_map_right_iff, List.forall₂_iff_get]
    refine ⟨hfits.length_eq, fun i h₁ h₂ => ⟨w.symbols.get ⟨i, h₂⟩, List.get_mem _ _, rfl, ?_⟩⟩
    exact hfits.get h₁ h₂

theorem RoleSurvey.mem_symbols (hv : RoleSurvey definitions source inner words)
    {e : Symbol × PhraseSort × Rule} (he : e ∈ RuleBook.entries definitions source)
    (hinner : e.1 ∈ inner) {w : Wording} (hw : w ∈ RuleBook.wordingsOf e) {p : Placed}
    (hp : p ∈ w.symbols) : p.symbol ∈ RuleBook.symbols definitions source := by
  rcases hv.known e he hinner w hw p hp with h | h
  · exact RuleBook.terminal_mem_symbols he hw hp h
  · exact List.mem_append_right _ h

/-- A tree that fits a settled symbol has a settled symbol: phrases that are passed over do not
unsettle anything. -/
theorem Settled.of_fits (hv : RoleSurvey definitions source inner words) {c : Concrete} {n : Nat}
    {s : Symbol} {role? : Option String} (hfits : Fits (.ofDefinitions definitions source) c n)
    (hn : RuleBook.symbolAt? definitions source n = some s)
    (h : Settled definitions source inner words s ⟨role?, none⟩) :
    ∃ s', RuleBook.symbolAt? definitions source
        (c.symbol (.ofDefinitions definitions source)) = some s' ∧
      Settled definitions source inner words s' ⟨role?, none⟩ := by
  refine (RuleBook.exists_symbol_of_fits (fun e he hhidden h w hw p hp hrole hguise => ?_)
    hfits hn h).2
  have hpm : p ∈ w.symbols := by simp [hp]
  rcases h with h | ⟨-, h⟩ | ⟨hne, h | ⟨-, h | h⟩⟩
  · simp [RuleBook.isTerminal_fst_of_mem_entries he] at h
  · -- a phrase that is nothing but tokens: below it there is a token
    have hterm := hv.terminal_of_word e he h w hw p hpm
    exact ⟨.inl hterm, RuleBook.terminal_mem_symbols he hw hpm hterm⟩
  · simp at h
  · -- a phrase that shows as a node is never passed over
    obtain ⟨e', he', hee, hguise'⟩ := hhidden
    exact absurd hguise' (h e' he' hee)
  · -- a phrase that shows in a method directly: its parts are settled as well
    have hset := hv.settled e he h w hw p hpm
    rw [hrole, hguise] at hset
    refine ⟨?_, hv.mem_symbols he h hw hpm⟩
    rcases hset with hset | hset | ⟨-, hset⟩
    · exact .inl hset
    · exact .inr (.inl hset)
    · exact .inr (.inr ⟨hne, hset⟩)

/-- A tree that fits a terminal is a token. -/
theorem bare_items_of_fits_terminal {c : Concrete} {n : Nat} {s : Symbol}
    (hc : c.Formed (.ofDefinitions definitions source))
    (hfits : Fits (.ofDefinitions definitions source) c n)
    (hn : RuleBook.symbolAt? definitions source n = some s) (hs : s.isTerminal = true)
    (post : Post) : ∀ i ∈ c.items (.ofDefinitions definitions source) post, i.Bare := by
  cases hfits with
  | here hextra =>
    cases c with
    | token t gap text => exact bare_dress_gap _ _ _
    | comment gap text => simp [Concrete.isExtra] at hextra
    | island gap i => simp [Concrete.isExtra] at hextra
    | phrase q parts =>
      obtain ⟨r, hr, e, he, hhead, -⟩ := exists_entry_of_formed hc
      rw [Concrete.symbol_phrase hr, hhead] at hn
      obtain rfl := Option.some.inj hn
      simp [RuleBook.isTerminal_fst_of_mem_entries he] at hs
  | unit hm hr hbody hposts hsplice =>
    obtain ⟨e, he, w, hw, -, hhead, -, -⟩ := RuleBook.exists_wording hr
    rw [hhead, RuleBook.symbolAt?_number (RuleBook.fst_mem_symbols he)] at hn
    obtain rfl := Option.some.inj hn
    simp [RuleBook.isTerminal_fst_of_mem_entries he] at hs

/-- The parts of a phrase that is nothing but tokens are no branches. -/
theorem bare_itemsFirst (hv : RoleSurvey definitions source inner words) {parts : List Concrete}
    {posts : List Post} {e : Symbol × PhraseSort × Rule}
    (he : e ∈ RuleBook.entries definitions source) (hword : e.1 ∈ words) {w : Wording}
    (hw : w ∈ RuleBook.wordingsOf e)
    (hformed : ∀ c ∈ parts, c.Formed (.ofDefinitions definitions source))
    (hfits : List.Forall₂ (fun c post => ∃ p ∈ w.symbols, post = ⟨p.role?, p.guise?⟩ ∧
        Fits (.ofDefinitions definitions source) c (RuleBook.number definitions source p.symbol))
      (parts.filter (!·.isExtra)) posts) :
    ∀ i ∈ Concrete.itemsFirst (.ofDefinitions definitions source) posts parts, i.Bare := by
  intro i hi
  refine Concrete.forall_itemsMore_of_forall₂ (fun _ => trivial) hfits
    (fun c _ hc => Concrete.bare_items_of_isExtra hc) ?_ i
    (Concrete.mem_itemsMore_of_mem_itemsFirst hi)
  rintro c hc _ ⟨p, hp, rfl, hfit⟩
  have hterm := hv.terminal_of_word e he hword w hw p hp
  exact bare_items_of_fits_terminal (hformed c hc) hfit
    (RuleBook.symbolAt?_number (RuleBook.terminal_mem_symbols he hw hp hterm)) hterm _

/-- The parts of a phrase that shows in a method leave only leaves in the role of a name, if each of
its trees does in a settled post. -/
theorem leafIfName_itemsFirst (hv : RoleSurvey definitions source inner words)
    {parts : List Concrete} {posts : List Post} {e : Symbol × PhraseSort × Rule}
    (he : e ∈ RuleBook.entries definitions source) (hinner : e.1 ∈ inner) {w : Wording}
    (hw : w ∈ RuleBook.wordingsOf e)
    (hfits : List.Forall₂ (fun c post => ∃ p ∈ w.symbols, post = ⟨p.role?, p.guise?⟩ ∧
        Fits (.ofDefinitions definitions source) c (RuleBook.number definitions source p.symbol))
      (parts.filter (!·.isExtra)) posts)
    (hparts : ∀ c ∈ parts, ∀ {n s post}, Fits (.ofDefinitions definitions source) c n →
      RuleBook.symbolAt? definitions source n = some s →
      Settled definitions source inner words s post →
      ∀ i ∈ c.items (.ofDefinitions definitions source) post, i.LeafIfName) :
    ∀ i ∈ Concrete.itemsFirst (.ofDefinitions definitions source) posts parts, i.LeafIfName := by
  intro i hi
  refine Concrete.forall_itemsMore_of_forall₂ (fun _ => trivial) hfits
    (fun c _ hc post j hj => (Concrete.bare_items_of_isExtra hc post j hj).leafIfName) ?_ i
    (Concrete.mem_itemsMore_of_mem_itemsFirst hi)
  rintro c hc _ ⟨p, hp, rfl, hfit⟩
  exact hparts c hc hfit (RuleBook.symbolAt?_number (hv.mem_symbols he hinner hw hp))
    (hv.settled e he hinner w hw p hp)

/-- **A tree in a settled post leaves only leaves in the role of a name.** -/
theorem leafIfName_items (hv : RoleSurvey definitions source inner words) {c : Concrete} {n : Nat}
    {s : Symbol} {post : Post} (hc : c.Formed (.ofDefinitions definitions source))
    (hfits : Fits (.ofDefinitions definitions source) c n)
    (hn : RuleBook.symbolAt? definitions source n = some s)
    (h : Settled definitions source inner words s post) :
    ∀ i ∈ c.items (.ofDefinitions definitions source) post, i.LeafIfName := by
  induction c using Concrete.treeInduction generalizing n s post with
  | token t gap text => exact fun i hi => (bare_dress_gap _ _ _ i hi).leafIfName
  | comment gap text => exact fun i hi => (Concrete.bare_items_of_isExtra rfl post i hi).leafIfName
  | island gap isle => exact fun i hi => (Concrete.bare_items_of_isExtra rfl post i hi).leafIfName
  | phrase q parts ih =>
    have hformed := hc
    obtain ⟨r, hr, e, he, hhead, w, hw, hposts⟩ := exists_entry_of_formed hc
    simp only [Concrete.Formed, Concrete.formedAll_iff] at hformed
    replace hformed := hformed.2
    have hsymbol := Concrete.symbol_phrase hr parts
    simp only [Concrete.items, hr]
    cases hguise : post.guise? with
    | some g =>
      -- the rule says how the phrase shows
      rcases h with h | ⟨h, -⟩ | ⟨hrole, h⟩
      · exact fun i hi => (bare_items_of_fits_terminal hc hfits hn h post i
          (by simpa only [Concrete.items, hr, hguise] using hi)).leafIfName
      · simp [hguise] at h
      · refine leafIfName_dress hrole fun hg => ?_
        simp_all
    | none =>
      -- the phrase shows in its own way, so its own symbol has to be settled
      obtain ⟨role?, guise?⟩ := post
      obtain rfl : guise? = none := hguise
      obtain ⟨s', hs', hset⟩ := Settled.of_fits hv hfits hn h
      rw [hsymbol, hhead] at hs'
      obtain rfl := Option.some.inj hs'
      obtain ⟨e', he', hee, hguiseOf, -⟩ := RuleBook.exists_entry_of_symbolAt? hhead
        (RuleBook.isTerminal_fst_of_mem_entries he)
      rw [Option.getD_none, hguiseOf]
      rcases hset with hset | ⟨-, hset⟩ | ⟨hrole, hset | ⟨-, hset | hset⟩⟩
      · simp [RuleBook.isTerminal_fst_of_mem_entries he] at hset
      · -- only tokens come out, and they may have any role
        rw [hv.hidden_of_word e' he' (hee ▸ hset)]
        intro i hi
        obtain ⟨j, hj, rfl⟩ := List.mem_map.1 hi
        exact ((bare_itemsFirst hv he hset hw hformed hposts j hj).inRole role?).leafIfName
      · simp at hset
      · exact leafIfName_dress hrole fun hg => absurd hg (hset e' he' hee)
      · exact leafIfName_dress hrole fun _ =>
          leafIfName_itemsFirst hv he hset hw hposts fun c hc => ih c hc (hformed c hc)

end Trees

/-! ### Methods and their names -/

/-- The kinds that only the table of rules gives. -/
theorem mem_ofRule_of_kind_eq {rule : String} {named : Bool} {role? : Option String} {k : Kind}
    (h : (ruleLabel rule named role?).kind = k)
    (hk : k ≠ .token ∧ k ≠ .statement ∧ k ≠ .expr .other ∧ k ≠ .other) :
    named = true ∧ (rule, k) ∈ Kind.ofRule := by
  obtain ⟨htoken, hstatement, hexpr, hother⟩ := hk
  unfold ruleLabel Kind.ofGrammar Kind.ofNamedRule at h
  dsimp only at h
  split at h
  · rename_i hnamed
    refine ⟨hnamed, ?_⟩
    split at h
    · rename_i kind hkind
      obtain ⟨front, back, hmem, -⟩ := List.lookup_eq_some_iff.1 hkind
      simp [hmem, ← h]
    · split at h
      · exact absurd h.symm hstatement
      · split at h
        · exact absurd h.symm hexpr
        · exact absurd h.symm hother
  · exact absurd h.symm htoken

theorem rule_of_kind_eq_method {rule : String} {named : Bool} {role? : Option String}
    (h : (ruleLabel rule named role?).kind = .method) :
    named = true ∧ rule = "method_declaration" := by
  have htable : ∀ x ∈ Kind.ofRule, x.2 = .method → x.1 = "method_declaration" := by decide
  obtain ⟨hnamed, hmem⟩ := mem_ofRule_of_kind_eq h (by decide)
  exact ⟨hnamed, htable _ hmem rfl⟩

/-- Whether the methods in a tree have leaves for names. -/
def Node.NamesLeaf (n : Node) : Prop :=
  ∀ m ∈ n.descendants, m.kind = .method → ∀ c ∈ m.children, c.field = some "name" → c.isLeaf = true

/-- Whether the methods in a part have leaves for names. -/
def Item.NamesLeaf : Item → Prop
  | gap _ => True
  | node n => n.NamesLeaf
  | extra n => n.NamesLeaf

theorem Node.namesLeaf_leaf (l : Label) (t : String) : (leaf l t).NamesLeaf := by
  intro m hm _ c hc
  obtain rfl := mem_descendants_leaf.1 hm
  simp at hc

theorem Node.NamesLeaf.withField {n : Node} (h : n.NamesLeaf) (f : Option String) :
    (n.withField f).NamesLeaf := by
  intro m hm hk c hc hf
  rcases mem_descendants_iff.1 hm with rfl | ⟨d, hd, hm⟩
  · rw [children_withField] at hc
    exact h n n.self_mem_descendants (by simpa using hk) c hc hf
  · rw [children_withField] at hd
    exact h m (mem_descendants_iff.2 (.inr ⟨d, hd, hm⟩)) hk c hc hf

namespace Item

theorem namesLeaf_branch {l : Label} {is : List Item} (h : ∀ i ∈ is, i.NamesLeaf)
    (hl : l.kind = .method → ∀ i ∈ is, i.LeafIfName) :
    (Node.branch l (close "" is)).NamesLeaf := by
  intro m hm hk c hc hf
  rcases Node.mem_descendants_branch.1 hm with rfl | ⟨d, hd, hm⟩
  · rcases mem_close hc with ⟨t, rfl⟩ | hc | hc
    · simp at hf
    · exact hl hk _ hc hf
    · exact hl hk _ hc hf
  · rcases mem_close hd with ⟨t, rfl⟩ | hd | hd
    · exact Node.namesLeaf_leaf _ _ m hm hk c hc hf
    · exact h _ hd m hm hk c hc hf
    · exact h _ hd m hm hk c hc hf

theorem namesLeaf_build {l : Label} {is : List Item} (h : ∀ i ∈ is, i.NamesLeaf)
    (hl : l.kind = .method → ∀ i ∈ is, i.LeafIfName) : (build l is).NamesLeaf := by
  simp only [build]
  split
  · exact namesLeaf_branch h hl
  · exact Node.namesLeaf_leaf _ _

end Item

theorem namesLeaf_dress {guise : Guise} {role? : Option String} {is : List Item}
    (h : ∀ i ∈ is, i.NamesLeaf)
    (hl : guise = .named "method_declaration" → ∀ i ∈ is, i.LeafIfName) :
    ∀ i ∈ dress guise role? is, i.NamesLeaf := by
  intro i hi
  cases guise with
  | hidden =>
    obtain ⟨j, hj, rfl⟩ := List.mem_map.1 hi
    cases j with
    | gap t => trivial
    | extra n => exact h _ hj
    | node n =>
      simp only [Item.inRole]
      split
      · exact h _ hj
      · exact Node.NamesLeaf.withField (h _ hj) role?
  | bare kind =>
    obtain rfl := List.mem_singleton.1 hi
    refine Item.namesLeaf_build h fun hk => ?_
    simpa using (rule_of_kind_eq_method hk).1
  | named kind =>
    -- a method: what it is built of has to be known
    obtain rfl := List.mem_singleton.1 hi
    refine Item.namesLeaf_build h fun hk => ?_
    obtain ⟨-, rfl⟩ := rule_of_kind_eq_method hk
    exact hl rfl

theorem Island.namesLeaf_node (i : Island) : i.node.NamesLeaf := by
  obtain ⟨parts, hnode, hparts⟩ := i.exists_node_eq
  rw [hnode]
  refine Item.namesLeaf_build (fun j hj => ?_) fun hk => ?_
  · rcases hparts j hj with ⟨t, rfl⟩ | ⟨rule, -, t, rfl⟩
    · trivial
    · exact Node.namesLeaf_leaf _ _
  · simpa using (rule_of_kind_eq_method hk).2

theorem Concrete.namesLeaf_items_of_isExtra {book : RuleBook} {c : Concrete}
    (h : c.isExtra = true) (post : Post) : ∀ i ∈ c.items book post, i.NamesLeaf := by
  intro i hi
  cases c with
  | token t gap text => simp [isExtra] at h
  | phrase p parts => simp [isExtra] at h
  | comment gap text =>
    obtain rfl := List.mem_singleton.1 hi
    exact Node.namesLeaf_leaf _ _
  | island gap isle =>
    obtain rfl := List.mem_singleton.1 hi
    exact isle.namesLeaf_node

section Trees

variable {definitions : List Definition} {source : String} {inner words : List Symbol}

/-- **In all trees of surveyed rules methods have leaves for names.** -/
theorem namesLeaf_items (hv : RoleSurvey definitions source inner words) {c : Concrete}
    {post : Post} (hc : c.Formed (.ofDefinitions definitions source))
    (hpost : post.guise? ≠ some (.named "method_declaration")) :
    ∀ i ∈ c.items (.ofDefinitions definitions source) post, i.NamesLeaf := by
  induction c using Concrete.treeInduction generalizing post with
  | token t gap text =>
    refine namesLeaf_dress ?_ ?_ <;> simp [Item.NamesLeaf, Item.LeafIfName]
  | comment gap text => exact Concrete.namesLeaf_items_of_isExtra rfl post
  | island gap isle => exact Concrete.namesLeaf_items_of_isExtra rfl post
  | phrase q parts ih =>
    have hformed := hc
    obtain ⟨r, hr, e, he, hhead, w, hw, hposts⟩ := exists_entry_of_formed hc
    simp only [Concrete.Formed, Concrete.formedAll_iff] at hformed
    replace hformed := hformed.2
    have hparts : ∀ i ∈ Concrete.itemsFirst (.ofDefinitions definitions source) r.posts parts,
        i.NamesLeaf := by
      intro i hi
      refine Concrete.forall_itemsMore_of_forall₂ (fun _ => trivial) hposts
        (fun c _ hc => Concrete.namesLeaf_items_of_isExtra hc) ?_ i
        (Concrete.mem_itemsMore_of_mem_itemsFirst hi)
      rintro c hc _ ⟨p, hp, rfl, -⟩
      exact ih c hc (hformed c hc) (hv.guise_ne e he w hw p hp).1
    simp only [Concrete.items, hr]
    refine namesLeaf_dress hparts fun hguise => ?_
    cases hg : post.guise? with
    | some g =>
      rw [hg, Option.getD_some] at hguise
      exact absurd (hguise ▸ hg) hpost
    | none =>
      obtain ⟨e', he', hee, hguiseOf, -⟩ := RuleBook.exists_entry_of_symbolAt? hhead
        (RuleBook.isTerminal_fst_of_mem_entries he)
      rw [hg, Option.getD_none, hguiseOf] at hguise
      refine leafIfName_itemsFirst hv he (hee ▸ hv.inner_of_method e' he' hguise) hw hposts ?_
      exact fun c hc => leafIfName_items hv (hformed c hc)

theorem Parsed.namesLeaf_root (hv : RoleSurvey definitions source inner words) {p : Parsed}
    (hp : p.Formed (.ofDefinitions definitions source)) :
    (p.root (.ofDefinitions definitions source)).NamesLeaf := by
  obtain ⟨items, hroot, hitems⟩ := p.exists_root_eq (.ofDefinitions definitions source)
  have hprogram : (ruleLabel "program" true none).kind ≠ .method := by decide
  rw [hroot]
  refine Item.namesLeaf_branch (fun i hi => ?_) fun hk => absurd hk hprogram
  rcases hitems i hi with ⟨t, rfl⟩ | rfl | hi
  · trivial
  · exact Node.namesLeaf_leaf _ _
  · refine Concrete.forall_rootItems (fun _ => trivial) (fun c hc => ?_) i hi
    refine namesLeaf_items hv (hp c hc) ?_
    cases c.isExtra <;> simp

end Trees

/-! ### Comments -/

theorem rule_of_kind_eq_comment {rule : String} {named : Bool} {role? : Option String}
    (h : (ruleLabel rule named role?).kind = .comment) : named = true ∧ rule = "comment" := by
  have htable : ∀ x ∈ Kind.ofRule, x.2 = .comment → x.1 = "comment" := by decide
  obtain ⟨hnamed, hmem⟩ := mem_ofRule_of_kind_eq h (by decide)
  exact ⟨hnamed, htable _ hmem rfl⟩

/-- Whether the comments in a tree have no role. -/
def Node.CommentsPlain (n : Node) : Prop :=
  ∀ c ∈ n.descendants, c.kind = .comment → c.field = none

/-- Whether the comments in a part have no role. Only an extra is a comment itself. -/
def Item.CommentsPlain : Item → Prop
  | gap _ => True
  | node n => n.kind ≠ .comment ∧ n.CommentsPlain
  | extra n => n.CommentsPlain

namespace Item

theorem commentsPlain_branch {l : Label} {is : List Item} (hl : l.kind ≠ .comment)
    (h : ∀ i ∈ is, i.CommentsPlain) : (Node.branch l (close "" is)).CommentsPlain := by
  intro c hc hk
  rcases Node.mem_descendants_branch.1 hc with rfl | ⟨d, hd, hc⟩
  · exact absurd hk hl
  · rcases mem_close hd with ⟨t, rfl⟩ | hd | hd
    · obtain rfl := Node.mem_descendants_leaf.1 hc
      simp at hk
    · exact (h _ hd).2 c hc hk
    · exact h _ hd c hc hk

theorem commentsPlain_build {l : Label} {is : List Item} (hl : l.kind ≠ .comment)
    (h : ∀ i ∈ is, i.CommentsPlain) : (node (build l is)).CommentsPlain := by
  simp only [build]
  split
  · exact ⟨hl, commentsPlain_branch hl h⟩
  · refine ⟨hl, fun c hc hk => ?_⟩
    obtain rfl := Node.mem_descendants_leaf.1 hc
    exact absurd hk hl

theorem CommentsPlain.inRole {i : Item} (h : i.CommentsPlain) (role? : Option String) :
    (i.inRole role?).CommentsPlain := by
  cases i with
  | gap t => trivial
  | extra n => exact h
  | node n =>
    simp only [Item.inRole]
    split
    · exact h
    · refine ⟨by simpa using h.1, fun c hc hk => ?_⟩
      rcases Node.mem_descendants_iff.1 hc with rfl | ⟨d, hd, hc⟩
      · exact absurd (by simpa using hk) h.1
      · rw [Node.children_withField] at hd
        exact h.2 c (Node.mem_descendants_iff.2 (.inr ⟨d, hd, hc⟩)) hk

end Item

theorem commentsPlain_dress {guise : Guise} {role? : Option String} {is : List Item}
    (hguise : guise ≠ .named "comment") (h : ∀ i ∈ is, i.CommentsPlain) :
    ∀ i ∈ dress guise role? is, i.CommentsPlain := by
  intro i hi
  cases guise with
  | hidden =>
    obtain ⟨j, hj, rfl⟩ := List.mem_map.1 hi
    exact (h j hj).inRole role?
  | bare kind =>
    obtain rfl := List.mem_singleton.1 hi
    refine Item.commentsPlain_build (fun hk => ?_) h
    simpa using (rule_of_kind_eq_comment hk).1
  | named kind =>
    obtain rfl := List.mem_singleton.1 hi
    refine Item.commentsPlain_build (fun hk => ?_) h
    obtain ⟨-, rfl⟩ := rule_of_kind_eq_comment hk
    exact hguise rfl

theorem Item.commentsPlain_leaf {rule : String} (h : rule ≠ "comment") (t : String) :
    (Item.node (.leaf (ruleLabel rule true none) t)).CommentsPlain := by
  have hk : (ruleLabel rule true none).kind ≠ .comment :=
    fun hk => h (rule_of_kind_eq_comment hk).2
  refine ⟨hk, fun c hc hc' => ?_⟩
  obtain rfl := Node.mem_descendants_leaf.1 hc
  exact absurd hc' hk

theorem Island.commentsPlain_node (i : Island) : i.node.CommentsPlain := by
  obtain ⟨parts, hnode, hparts⟩ := i.exists_node_eq
  have hkind : (ruleLabel "text_interpolation" true none).kind ≠ .comment :=
    fun hk => absurd (rule_of_kind_eq_comment hk).2 (by decide)
  rw [hnode]
  refine (Item.commentsPlain_build hkind fun j hj => ?_).2
  rcases hparts j hj with ⟨t, rfl⟩ | ⟨rule, hrule, t, rfl⟩
  · trivial
  · refine Item.commentsPlain_leaf ?_ t
    rintro rfl
    simp at hrule

section Trees

variable {definitions : List Definition} {source : String} {inner words : List Symbol}

/-- No symbol of surveyed rules shows as a comment. -/
theorem RoleSurvey.guiseOf_ne (hv : RoleSurvey definitions source inner words) (n : Nat) :
    (RuleBook.ofDefinitions definitions source).guiseOf n ≠ .named "comment" := by
  have hterminal : ∀ t : Terminal, t.guise ≠ .named "comment" := by
    intro t
    cases t <;> simp [Terminal.guise]
  have hphrases : (RuleBook.ofDefinitions definitions source).phrases =
      ((RuleBook.entries definitions source).map (·.2.1)).toArray := rfl
  unfold RuleBook.guiseOf
  split
  · exact hterminal _
  · cases hp : (RuleBook.ofDefinitions definitions source).phrase? n with
    | none => simp
    | some p =>
      have hmem := Array.mem_of_getElem? hp
      rw [hphrases, List.mem_toArray] at hmem
      obtain ⟨e, he, rfl⟩ := List.mem_map.1 hmem
      exact hv.phrase_ne e he

/-- **In all trees of surveyed rules comments have no role.** -/
theorem commentsPlain_items (hv : RoleSurvey definitions source inner words) (c : Concrete)
    {post : Post} (hpost : post.guise? ≠ some (.named "comment")) :
    ∀ i ∈ c.items (.ofDefinitions definitions source) post, i.CommentsPlain := by
  have hguise : ∀ {post : Post} (n : Nat), post.guise? ≠ some (.named "comment") →
      post.guise?.getD ((RuleBook.ofDefinitions definitions source).guiseOf n) ≠
        .named "comment" := by
    intro post n hpost
    cases hg : post.guise? with
    | none => exact hv.guiseOf_ne n
    | some g => exact fun h => hpost (hg.trans (congrArg some h))
  induction c using Concrete.treeInduction generalizing post with
  | token t gap text => exact commentsPlain_dress (hguise t hpost) (by simp [Item.CommentsPlain])
  | comment gap text =>
    intro i hi
    obtain rfl := List.mem_singleton.1 hi
    intro c hc _
    obtain rfl := Node.mem_descendants_leaf.1 hc
    rfl
  | island gap isle =>
    intro i hi
    obtain rfl := List.mem_singleton.1 hi
    exact isle.commentsPlain_node
  | phrase q parts ih =>
    have hparts : ∀ posts : List Post, (∀ post ∈ posts, post.guise? ≠ some (.named "comment")) →
        ∀ i ∈ Concrete.itemsFirst (.ofDefinitions definitions source) posts parts,
          i.CommentsPlain := by
      intro posts hposts i hi
      exact Concrete.forall_itemsMore (fun _ => trivial) (by simp [Post.plain]) hposts
        (fun c hc post hpost => ih c hc hpost) i (Concrete.mem_itemsMore_of_mem_itemsFirst hi)
    simp only [Concrete.items]
    split
    · exact commentsPlain_dress (by simp) (hparts [] (by simp))
    · rename_i r hr
      refine commentsPlain_dress (hguise _ hpost) (hparts _ fun post hmem => ?_)
      obtain ⟨e, he, w, hw, -, -, -, hposts⟩ := RuleBook.exists_wording hr
      rw [hposts] at hmem
      obtain ⟨p, hp, rfl⟩ := List.mem_map.1 hmem
      exact (hv.guise_ne e he w hw p hp).2

theorem Parsed.commentsPlain_root (hv : RoleSurvey definitions source inner words) (p : Parsed) :
    (p.root (.ofDefinitions definitions source)).CommentsPlain := by
  obtain ⟨items, hroot, hitems⟩ := p.exists_root_eq (.ofDefinitions definitions source)
  have hprogram : (ruleLabel "program" true none).kind ≠ .comment := by decide
  rw [hroot]
  refine Item.commentsPlain_branch hprogram fun i hi => ?_
  rcases hitems i hi with ⟨t, rfl⟩ | rfl | hi
  · trivial
  · exact Item.commentsPlain_leaf (by decide) ""
  · refine Concrete.forall_rootItems (fun _ => trivial) (fun c _ => ?_) i hi
    refine commentsPlain_items hv c ?_
    cases c.isExtra <;> simp

end Trees

/-! ### The rules of a source file -/

/-- The phrases whose parts can show directly in a method. -/
def methodPhrases : List Symbol :=
  [ .phrase "method_declaration", .phrase "function_head", .phrase "modifier",
    .series (.rule "modifier"), .phrase "return_type", .phrase "type", .phrase "simple_type",
    .phrase "statement_end" ]

/-- The phrases that are nothing but a word. -/
def wordPhrases : List Symbol := [.phrase "class_word"]

theorem roleSurvey_sourceDefinitions :
    RoleSurvey sourceDefinitions "program" methodPhrases wordPhrases where
  guise_ne := by decide +kernel
  phrase_ne := by decide +kernel
  inner_of_method := by decide +kernel
  hidden_of_word := by decide +kernel
  known := by decide +kernel
  settled := by decide +kernel
  terminal_of_word := by decide +kernel

/-- **The methods of a source have leaves for names.** -/
theorem namesLeaf_of_sourceTree? {source : String} {root : Node}
    (h : sourceTree? source = some root) : root.NamesLeaf := by
  obtain ⟨p, hp, rfl⟩ := Option.map_eq_some_iff.1 h
  exact Parsed.namesLeaf_root roleSurvey_sourceDefinitions
    (parse?_sound RuleBook.begunRight_sourceRules hp).2

/-- **The comments of a source have no role.** -/
theorem commentsPlain_of_sourceTree? {source : String} {root : Node}
    (h : sourceTree? source = some root) : root.CommentsPlain := by
  obtain ⟨p, -, rfl⟩ := Option.map_eq_some_iff.1 h
  exact p.commentsPlain_root roleSurvey_sourceDefinitions

end DocBlocks
