import DocBlocks.Proofs.Reading.Goal
import DocBlocks.Proofs.Syntax.Members

/-!
# Where methods stand

`housed_of_sourceTree?`: where a method stands among the children of a node, the first child is an
opening brace, and all others are trivia, extras, members and the closing brace (`Node.Housed`).

A method shows in a node only if a phrase of the node brings it along that shows as nothing itself.
The phrases that do so are few (`carriers`), and they stand nowhere but in the bodies of classes and
enums (`HouseSurvey`). That the root is no such phrase is known from how a source is read
(`parse?_goal`).
-/

namespace DocBlocks

/-- The phrases that are nothing but members. -/
def carriers : List Symbol :=
  [ .phrase "member", .phrase "enum_member", .series (.rule "member"),
    .series (.rule "enum_member") ]

/-- The phrases that hold members. -/
def houses : List Symbol := [.phrase "declaration_list", .phrase "enum_declaration_list"]

/-- What stands around members. -/
def braces : List String := ["\x7b", "\x7d"]

/-- A survey of rules that finds methods in nothing but the bodies of classes and enums. -/
structure HouseSurvey (definitions : List Definition) (source : String) : Prop where
  known : ∀ s ∈ carriers ++ memberRules.map .phrase,
    s ∈ (RuleBook.entries definitions source).map (·.1)
  carried : ∀ e ∈ RuleBook.entries definitions source, ∀ w ∈ RuleBook.wordingsOf e,
    ∀ p ∈ w.symbols, p.symbol ∈ .phrase "method_declaration" :: carriers →
      e.1 ∈ carriers ++ houses
  offered : ∀ e ∈ RuleBook.entries definitions source, ∀ w ∈ RuleBook.wordingsOf e,
    ∀ p ∈ w.symbols, p.symbol ∈ carriers ++ houses → p.guise? = none
  alone : ∀ e ∈ RuleBook.entries definitions source, ∀ w ∈ RuleBook.wordingsOf e,
    ∀ p ∈ w.symbols, p.symbol ∈ houses → w.symbols ≠ [p]
  goal : ∀ e ∈ RuleBook.entries definitions source, e.1 = .phrase "" →
    ∀ w ∈ RuleBook.wordingsOf e, ∀ p ∈ w.symbols, p.symbol ∉ carriers ++ houses
  goal_apart : ∀ e ∈ RuleBook.entries definitions source, ∀ w ∈ RuleBook.wordingsOf e,
    ∀ p ∈ w.symbols, p.symbol ≠ .phrase ""
  guise_carrier : ∀ e ∈ RuleBook.entries definitions source, e.1 ∈ carriers →
    e.2.1.guise = .hidden
  guise_house : ∀ e ∈ RuleBook.entries definitions source, e.1 ∈ houses → e.2.1.guise ≠ .hidden
  guise_member : ∀ e ∈ RuleBook.entries definitions source, e.1 ∈ memberRules.map .phrase →
    ∃ r ∈ memberRules, e.2.1.guise = .named r
  carrier_parts : ∀ e ∈ RuleBook.entries definitions source, e.1 ∈ carriers →
    ∀ w ∈ RuleBook.wordingsOf e, ∀ p ∈ w.symbols,
      p.guise? = none ∧ p.symbol ∈ carriers ++ memberRules.map .phrase
  house_parts : ∀ e ∈ RuleBook.entries definitions source, e.1 ∈ houses →
    ∀ w ∈ RuleBook.wordingsOf e, w.symbols.head? = some (.plain (.terminal (.mark "\x7b"))) ∧
      ∀ p ∈ w.symbols, p ∈ braces.map (fun t => .plain (.terminal (.mark t))) ∨
        p.guise? = none ∧ p.symbol ∈ carriers

theorem houseSurvey_sourceDefinitions : HouseSurvey sourceDefinitions "program" where
  known := by decide +kernel
  carried := by decide +kernel
  offered := by decide +kernel
  alone := by decide +kernel
  goal := by decide +kernel
  goal_apart := by decide +kernel
  guise_carrier := by decide +kernel
  guise_house := by decide +kernel
  guise_member := by decide +kernel
  carrier_parts := by decide +kernel
  house_parts := by decide +kernel

/-- Whether a part is a method. -/
def Item.IsMethod : Item → Prop
  | gap _ => False
  | node n => n.kind = .method
  | extra n => n.kind = .method

theorem Item.isMethod_inRole {i : Item} {role? : Option String} :
    (i.inRole role?).IsMethod ↔ i.IsMethod := by
  cases i with
  | gap t => exact Iff.rfl
  | extra n => exact Iff.rfl
  | node n =>
    simp only [Item.inRole]
    split
    · exact Iff.rfl
    · simp [IsMethod]

/-- A method among the children of a node is one among its parts. -/
theorem Item.exists_isMethod_of_mem_close {passed : String} {is : List Item} {m : Node}
    (h : m ∈ close passed is) (hm : m.kind = .method) : ∃ i ∈ is, i.IsMethod := by
  rcases mem_close h with ⟨t, rfl⟩ | h | h
  · simp at hm
  · exact ⟨_, h, hm⟩
  · exact ⟨_, h, hm⟩

/-- A method that a tree gives is the tree itself, or one of its parts. -/
theorem isMethod_of_mem_dress {guise : Guise} {role? : Option String} {is : List Item} {i : Item}
    (hi : i ∈ dress guise role? is) (h : i.IsMethod) :
    guise.rule? = some "method_declaration" ∨ (guise = .hidden ∧ ∃ j ∈ is, j.IsMethod) := by
  cases guise with
  | hidden =>
    obtain ⟨j, hj, rfl⟩ := List.mem_map.1 hi
    exact .inr ⟨rfl, j, hj, Item.isMethod_inRole.1 h⟩
  | bare kind =>
    obtain rfl := List.mem_singleton.1 hi
    rw [Item.IsMethod, Node.kind, Item.label_build] at h
    simpa using (rule_of_kind_eq_method h).1
  | named kind =>
    obtain rfl := List.mem_singleton.1 hi
    rw [Item.IsMethod, Node.kind, Item.label_build] at h
    exact .inl (congrArg some (rule_of_kind_eq_method h).2)

theorem Concrete.not_isMethod_of_isExtra {book : RuleBook} {c : Concrete}
    (h : c.isExtra = true) {post : Post} : ∀ i ∈ c.items book post, ¬i.IsMethod := by
  intro i hi hmethod
  cases c with
  | token t gap text => simp [isExtra] at h
  | phrase p parts => simp [isExtra] at h
  | comment gap text =>
    obtain rfl := List.mem_singleton.1 hi
    simp [Item.IsMethod] at hmethod
  | island gap isle =>
    obtain rfl := List.mem_singleton.1 hi
    rw [Item.IsMethod, Node.kind, isle.label_node] at hmethod
    exact absurd (rule_of_kind_eq_method hmethod).2 (by decide)

section Places

variable {definitions : List Definition} {source : String} {after : List Char} {c : Concrete}
  {post : Post}

/-- Whether a post leaves a tree the way it shows by itself if methods may stand in it. -/
structure Post.Spares (definitions : List Definition) (source : String) (post : Post)
    (c : Concrete) : Prop where
  offered : post.Offered definitions source
  guise_eq : ∀ s ∈ carriers ++ houses, RuleBook.symbolAt? definitions source
    (c.symbol (.ofDefinitions definitions source)) = some s → post.guise? = none

namespace HouseSurvey

/-- A symbol that a tree fits is one of a phrase that methods may stand in if the tree is such a
phrase. -/
theorem mem_of_fits (hv : HouseSurvey definitions source) {s t : Symbol}
    (hfits : Fits (.ofDefinitions definitions source) c (RuleBook.number definitions source s))
    (hc : RuleBook.symbolAt? definitions source
      (c.symbol (.ofDefinitions definitions source)) = some t) (ht : t ∈ carriers ++ houses) :
    s ∈ carriers ++ houses := by
  refine RuleBook.sort_of_fits (by decide) (fun e he _ w hw p hp hmem => ?_) hfits hc ht
  rcases List.mem_append.1 hmem with hmem | hmem
  · exact hv.carried e he w hw p (by simp [hp]) (List.mem_cons_of_mem _ hmem)
  · exact absurd hp (hv.alone e he w hw p (by simp [hp]) hmem)

/-- A symbol that a method fits, or a phrase that is nothing but members, is one of these. -/
theorem carries_of_fits (hv : HouseSurvey definitions source) {s t : Symbol}
    (hfits : Fits (.ofDefinitions definitions source) c (RuleBook.number definitions source s))
    (hc : RuleBook.symbolAt? definitions source
      (c.symbol (.ofDefinitions definitions source)) = some t)
    (ht : t ∈ .phrase "method_declaration" :: carriers) :
    s ∈ .phrase "method_declaration" :: carriers := by
  refine RuleBook.sort_of_fits (Q := (· ∈ .phrase "method_declaration" :: carriers)) (by decide)
    (fun e he hhidden w hw p hp hmem => ?_) hfits hc ht
  -- what is passed over does not show, so it is no body of a class
  rcases List.mem_append.1 (hv.carried e he w hw p (by simp [hp]) hmem) with h | h
  · exact List.mem_cons_of_mem _ h
  · obtain ⟨e', he', hee, hguise⟩ := hhidden
    exact absurd hguise (hv.guise_house e' he' (hee ▸ h))

/-- Every place in a wording spares what stands there. -/
theorem spares (hv : HouseSurvey definitions source) {e : Symbol × PhraseSort × Rule}
    (he : e ∈ RuleBook.entries definitions source) {w : Wording} (hw : w ∈ RuleBook.wordingsOf e)
    {p : Placed} (hp : p ∈ w.symbols) (hfits : Fits (.ofDefinitions definitions source) c
      (RuleBook.number definitions source p.symbol)) :
    Post.Spares definitions source ⟨p.role?, p.guise?⟩ c where
  offered := .inr ⟨e, he, w, hw, p, hp, rfl⟩
  guise_eq _ hs hc := hv.offered e he w hw p hp (hv.mem_of_fits hfits hc hs)

/-- A phrase that has a method among its parts is one that methods may stand in, given which of its
trees give a method. -/
theorem mem_of_parts (hv : HouseSurvey definitions source) {q : Nat} {parts : List Concrete}
    (hc : (Concrete.phrase q parts).Formed (.ofDefinitions definitions source))
    (hread : (Concrete.phrase q parts).Read (.ofDefinitions definitions source) after)
    (hparts : ∀ c ∈ parts, ∀ {post after}, c.Formed (.ofDefinitions definitions source) →
      c.Read (.ofDefinitions definitions source) after → post.Spares definitions source c →
      ∀ i ∈ c.items (.ofDefinitions definitions source) post, i.IsMethod →
        ∃ s ∈ .phrase "method_declaration" :: carriers, RuleBook.symbolAt? definitions source
          (c.symbol (.ofDefinitions definitions source)) = some s)
    {i : Item} (hi : i ∈ (Concrete.phrase q parts).ownItems (.ofDefinitions definitions source))
    (hmethod : i.IsMethod) : ∃ s ∈ carriers ++ houses, RuleBook.symbolAt? definitions source
      ((Concrete.phrase q parts).symbol (.ofDefinitions definitions source)) = some s := by
  revert hmethod
  refine Concrete.forall_ownItems (Q := fun i => i.IsMethod → _) hc hread ?_ ?_ ?_ i hi
  · exact fun _ h => h.elim
  · exact fun c hx post i hi h => absurd h (Concrete.not_isMethod_of_isExtra hx i hi)
  · intro c hmem after hc hread e he hhead w hw p hp hfit i hi hmethod
    obtain ⟨s, hs, hsymbol⟩ := hparts c hmem hc hread (hv.spares he hw hp hfit) i hi hmethod
    exact ⟨e.1, hv.carried e he w hw p hp (hv.carries_of_fits hfit hsymbol hs), hhead⟩

/-- **A tree that gives a method is one, or it is a phrase that is nothing but members.** -/
theorem mem_of_items (hv : HouseSurvey definitions source)
    (ho : OriginSurvey definitions source memberRules)
    (hc : c.Formed (.ofDefinitions definitions source))
    (hread : c.Read (.ofDefinitions definitions source) after)
    (hpost : post.Spares definitions source c) {i : Item}
    (hi : i ∈ c.items (.ofDefinitions definitions source) post) (hmethod : i.IsMethod) :
    ∃ s ∈ .phrase "method_declaration" :: carriers, RuleBook.symbolAt? definitions source
      (c.symbol (.ofDefinitions definitions source)) = some s := by
  induction c using Concrete.treeInduction generalizing post after i with
  | comment gap text => exact absurd hmethod (Concrete.not_isMethod_of_isExtra rfl i hi)
  | island gap isle => exact absurd hmethod (Concrete.not_isMethod_of_isExtra rfl i hi)
  | token k gap text =>
    rw [Concrete.items_of_formed rfl hc] at hi
    rcases isMethod_of_mem_dress hi hmethod with hrule | ⟨-, j, hj, hmethod⟩
    · have hshows := Concrete.showsAs_of_guise rfl hc hread hpost.offered hrule
      exact ⟨_, List.mem_cons_self, ho.symbol_of_showsAs (by decide) hshows⟩
    · obtain rfl := List.mem_singleton.1 hj
      exact hmethod.elim
  | phrase q parts ih =>
    rw [Concrete.items_of_formed rfl hc] at hi
    rcases isMethod_of_mem_dress hi hmethod with hrule | ⟨hhidden, j, hj, hmethod⟩
    · have hshows := Concrete.showsAs_of_guise rfl hc hread hpost.offered hrule
      exact ⟨_, List.mem_cons_self, ho.symbol_of_showsAs (by decide) hshows⟩
    · obtain ⟨s, hs, hsymbol⟩ := hv.mem_of_parts hc hread
        (fun c hmem _ _ hc hread hpost i hi hmethod => ih c hmem hc hread hpost hi hmethod) hj hmethod
      refine ⟨s, ?_, hsymbol⟩
      rcases List.mem_append.1 hs with hcarrier | hhouse
      · exact List.mem_cons_of_mem _ hcarrier
      · -- the body of a class shows as a node
        have hnot : ∀ s ∈ houses, s.isTerminal = false := by decide
        obtain ⟨e, he, rfl, hguise, -⟩ :=
          RuleBook.exists_entry_of_symbolAt? hsymbol (hnot s hhouse)
        rw [hpost.guise_eq _ hs hsymbol, Option.getD_none, hguise] at hhidden
        exact absurd hhidden (hv.guise_house e he hhouse)

/-- **A phrase that has a method among its parts is one that methods may stand in.** -/
theorem mem_of_ownItems (hv : HouseSurvey definitions source)
    (ho : OriginSurvey definitions source memberRules) {q : Nat} {parts : List Concrete}
    (hc : (Concrete.phrase q parts).Formed (.ofDefinitions definitions source))
    (hread : (Concrete.phrase q parts).Read (.ofDefinitions definitions source) after)
    {i : Item} (hi : i ∈ (Concrete.phrase q parts).ownItems (.ofDefinitions definitions source))
    (hmethod : i.IsMethod) : ∃ s ∈ carriers ++ houses, RuleBook.symbolAt? definitions source
      ((Concrete.phrase q parts).symbol (.ofDefinitions definitions source)) = some s := by
  exact hv.mem_of_parts hc hread
    (fun _ _ _ _ hc hread hpost _ hi hmethod => hv.mem_of_items ho hc hread hpost hi hmethod) hi
    hmethod

end HouseSurvey

end Places

/-! ### What stands beside a method -/

/-- Whether a part can stand beside a method. -/
def Item.InHouse : Item → Prop
  | gap _ => True
  | node n => n.rule ∈ memberRules ∨ n.text ∈ braces
  | extra n => n.kind = .comment ∨ n.rule = "text_interpolation"

namespace Node

/-- Whether a node can stand beside a method. -/
def InHouse (n : Node) : Prop :=
  n.kind = .trivia ∨ n.kind = .comment ∨ n.rule = "text_interpolation" ∨ n.rule ∈ memberRules ∨
    n.text ∈ braces

/-- Whether a node, if a method stands in it, holds members behind a brace. -/
def Housed (n : Node) : Prop :=
  ∀ m ∈ n.children, m.kind = .method →
    (∃ d ds, n.children = d :: ds ∧ d.kind = .token ∧ d.text = "\x7b") ∧
      ∀ x ∈ n.children, x.InHouse

theorem Housed.withField {n : Node} (h : n.Housed) (f : Option String) :
    (n.withField f).Housed := by
  simpa [Housed] using h

theorem housed_leaf (l : Label) (t : String) : (leaf l t).Housed := by
  intro m hm
  simp at hm

end Node

theorem Item.InHouse.inRole {i : Item} (h : i.InHouse) (role? : Option String) :
    (i.inRole role?).InHouse := by
  cases i with
  | gap t => trivial
  | extra n => exact h
  | node n =>
    simp only [Item.inRole]
    split
    · exact h
    · simpa [InHouse, Node.rule_withField] using h

theorem Concrete.inHouse_of_isExtra {book : RuleBook} {c : Concrete} (h : c.isExtra = true)
    {post : Post} : ∀ i ∈ c.items book post, i.InHouse := by
  intro i hi
  cases c with
  | token t gap text => simp [isExtra] at h
  | phrase p parts => simp [isExtra] at h
  | comment gap text =>
    obtain rfl := List.mem_singleton.1 hi
    exact .inl (by simp)
  | island gap isle =>
    obtain rfl := List.mem_singleton.1 hi
    refine .inr ?_
    rw [Node.rule, isle.label_node]
    rfl

/-- Parts without a method make a node that is housed. -/
theorem Item.housed_build_of_not {l : Label} {is : List Item} (h : ∀ i ∈ is, ¬i.IsMethod) :
    (build l is).Housed := by
  intro m hm hkind
  simp only [build] at hm
  split at hm
  · obtain ⟨i, hi, hmethod⟩ := exists_isMethod_of_mem_close hm hkind
    exact absurd hmethod (h i hi)
  · simp at hm

/-- Members behind a brace make a node that is housed. -/
theorem Item.housed_build {l : Label} {is : List Item}
    (hfirst : ∃ js, is = .node (.leaf (ruleLabel "\x7b" false none) "\x7b") :: js)
    (h : ∀ i ∈ is, i.InHouse) : (build l is).Housed := by
  obtain ⟨js, rfl⟩ := hfirst
  intro m _ _
  have hchildren : (build l (.node (.leaf (ruleLabel "\x7b" false none) "\x7b") :: js)).children =
      .leaf (ruleLabel "\x7b" false none) "\x7b" :: close "" js := by
    simp [build, isNode, close]
  refine ⟨⟨_, _, hchildren, rfl, rfl⟩, fun x hx => ?_⟩
  have hclose : x ∈ close "" (.node (.leaf (ruleLabel "\x7b" false none) "\x7b") :: js) := by
    simpa [hchildren, close] using hx
  rcases mem_close hclose with ⟨t, rfl⟩ | hx | hx
  · exact .inl (by simp)
  · rcases h _ hx with hrule | htext
    · exact .inr (.inr (.inr (.inl hrule)))
    · exact .inr (.inr (.inr (.inr htext)))
  · rcases h _ hx with hkind | hrule
    · exact .inr (.inl hkind)
    · exact .inr (.inr (.inl hrule))

/-- Extras hold no methods. -/
theorem Concrete.housed_of_isExtra {book : RuleBook} {c : Concrete} (h : c.isExtra = true)
    {post : Post} : ∀ i ∈ c.items book post, i.All Node.Housed := by
  intro i hi
  cases c with
  | token t gap text => simp [isExtra] at h
  | phrase p parts => simp [isExtra] at h
  | comment gap text =>
    obtain rfl := List.mem_singleton.1 hi
    intro d hd
    obtain rfl := Node.mem_descendants_leaf.1 hd
    exact Node.housed_leaf _ _
  | island gap isle =>
    obtain rfl := List.mem_singleton.1 hi
    obtain ⟨parts, hnode, hparts⟩ := isle.exists_node_eq
    rw [hnode]
    refine Item.all_build (fun t => Node.housed_leaf _ t) ?_ fun j hj => ?_
    · refine Item.housed_build_of_not fun j hj hmethod => ?_
      rcases hparts j hj with ⟨t, rfl⟩ | ⟨rule, hrule, t, rfl⟩
      · exact hmethod
      · have hne : ∀ r ∈ ["php_end_tag", "text", "php_tag"], r ≠ "method_declaration" := by decide
        exact hne rule hrule (rule_of_kind_eq_method hmethod).2
    · rcases hparts j hj with ⟨t, rfl⟩ | ⟨rule, hrule, t, rfl⟩
      · trivial
      · intro d hd
        obtain rfl := Node.mem_descendants_leaf.1 hd
        exact Node.housed_leaf _ _

section Houses

variable {definitions : List Definition} {source : String} {after : List Char} {c : Concrete}
  {post : Post} {s : Symbol}

/-- The symbols of carriers and members have numbers. -/
theorem HouseSurvey.mem_symbols (hv : HouseSurvey definitions source)
    (hs : s ∈ carriers ++ memberRules.map .phrase) : s ∈ RuleBook.symbols definitions source :=
  List.mem_append_right _ (hv.known s hs)

/-- What stands in the place of members is members. -/
theorem HouseSurvey.exists_member_of_fits (hv : HouseSurvey definitions source)
    (hfits : Fits (.ofDefinitions definitions source) c (RuleBook.number definitions source s))
    (hs : s ∈ carriers ++ memberRules.map .phrase) :
    ∃ s' ∈ carriers ++ memberRules.map .phrase, RuleBook.symbolAt? definitions source
      (c.symbol (.ofDefinitions definitions source)) = some s' := by
  suffices hfound : c.isExtra = false ∧ ∃ s', RuleBook.symbolAt? definitions source
      (c.symbol (.ofDefinitions definitions source)) = some s' ∧
        s' ∈ carriers ++ memberRules.map .phrase by
    obtain ⟨-, s', hs', hmem⟩ := hfound
    exact ⟨s', hmem, hs'⟩
  refine RuleBook.exists_symbol_of_fits (P := (· ∈ carriers ++ memberRules.map .phrase))
    (fun e he hhidden h w hw p hp _ _ => ?_) hfits (RuleBook.symbolAt?_number (hv.mem_symbols hs)) hs
  -- a member shows as a node, so what is passed over is nothing but members
  obtain ⟨d, hd, hde, hguise⟩ := hhidden
  have hcarrier : e.1 ∈ carriers := by
    refine (List.mem_append.1 h).resolve_right fun hmember => ?_
    obtain ⟨rule, -, hrule⟩ := hv.guise_member d hd (hde ▸ hmember)
    simp [hguise] at hrule
  have hpart := (hv.carrier_parts e he hcarrier w hw p (by simp [hp])).2
  exact ⟨hpart, hv.mem_symbols hpart⟩

/-- **A phrase that is nothing but members gives nothing but members.** -/
theorem HouseSurvey.inHouse_items (hv : HouseSurvey definitions source)
    (hc : c.Formed (.ofDefinitions definitions source))
    (hread : c.Read (.ofDefinitions definitions source) after)
    (hs : RuleBook.symbolAt? definitions source
      (c.symbol (.ofDefinitions definitions source)) = some s)
    (hmem : s ∈ carriers ++ memberRules.map .phrase) (hpost : post.guise? = none) :
    ∀ i ∈ c.items (.ofDefinitions definitions source) post, i.InHouse := by
  have hnot : ∀ s ∈ carriers ++ memberRules.map .phrase, s.isTerminal = false := by decide
  induction c using Concrete.treeInduction generalizing post after s with
  | comment gap text => exact Concrete.inHouse_of_isExtra rfl
  | island gap isle => exact Concrete.inHouse_of_isExtra rfl
  | token k gap text =>
    obtain ⟨t, ht, -⟩ := exists_terminal_of_foundBefore hread
    obtain rfl := Option.some.inj (ht.symm.trans hs)
    have := hnot _ hmem
    simp [Symbol.isTerminal] at this
  | phrase q parts ih =>
    rw [Concrete.items_of_formed rfl hc, hpost, Option.getD_none]
    obtain ⟨e', he', rfl, hguise, -⟩ := RuleBook.exists_entry_of_symbolAt? hs (hnot s hmem)
    rw [hguise]
    rcases List.mem_append.1 hmem with hcarrier | hmember
    · -- what is nothing but members is made of such phrases and of members
      rw [hv.guise_carrier e' he' hcarrier]
      intro i hi
      obtain ⟨j, hj, rfl⟩ := List.mem_map.1 hi
      refine Item.InHouse.inRole ?_ post.role?
      refine Concrete.forall_ownItems (Q := Item.InHouse) hc hread (fun _ => trivial)
        (fun c hx post => Concrete.inHouse_of_isExtra hx) ?_ j hj
      intro c hmem after hc hread e he hhead w hw p hp hfit
      have hee : e.1 = e'.1 := Option.some.inj (hhead.symm.trans hs)
      obtain ⟨hplain, hpart⟩ := hv.carrier_parts e he (hee ▸ hcarrier) w hw p hp
      obtain ⟨s', hmem', hs'⟩ := hv.exists_member_of_fits hfit hpart
      exact ih c hmem hc hread hs' hmem' hplain
    · obtain ⟨rule, hrule, hnamed⟩ := hv.guise_member e' he' hmember
      rw [hnamed]
      intro i hi
      obtain rfl := List.mem_singleton.1 hi
      refine .inl ?_
      rw [Node.rule, Item.label_build]
      exact hrule

/-- A tree in the place of a brace gives the brace. -/
theorem items_of_fits_mark {t : String} (hc : c.Formed (.ofDefinitions definitions source))
    (hread : c.Read (.ofDefinitions definitions source) after)
    (hfits : Fits (.ofDefinitions definitions source) c
      (RuleBook.number definitions source (.terminal (.mark t))))
    (hmem : .terminal (.mark t) ∈ RuleBook.symbols definitions source) :
    c.items (.ofDefinitions definitions source) .plain =
      [.node (.leaf (ruleLabel t false none) t)] := by
  obtain ⟨k, gap, text, rfl, hk, hguise⟩ := exists_token_of_fits hc hfits hmem
  obtain ⟨t', ht', hspells⟩ := exists_terminal_of_foundBefore hread
  obtain rfl : .mark t = t' := by simpa [hk] using ht'
  have htext : text.toList = t.toList := by simpa [Terminal.Spells] using hspells
  obtain rfl := String.toList_inj.1 htext
  simp [Concrete.items, Post.plain, hguise, Terminal.guise, dress, Item.build, Item.isNode,
    Item.text]

/-- The body of a class begins with a brace. -/
theorem HouseSurvey.exists_ownItems_eq (hv : HouseSurvey definitions source) {q : Nat}
    {parts : List Concrete} (hc : (Concrete.phrase q parts).Formed (.ofDefinitions definitions source))
    (hread : (Concrete.phrase q parts).Read (.ofDefinitions definitions source) after)
    (hs : RuleBook.symbolAt? definitions source
      ((Concrete.phrase q parts).symbol (.ofDefinitions definitions source)) = some s)
    (hmem : s ∈ houses) :
    ∃ is, (Concrete.phrase q parts).ownItems (.ofDefinitions definitions source) =
      .node (.leaf (ruleLabel "\x7b" false none) "\x7b") :: is := by
  have hformed := hc
  simp only [Concrete.Formed, Concrete.formedAll_iff] at hformed
  obtain ⟨⟨r, hr, hfits⟩, hformed⟩ := hformed
  obtain ⟨e, he, w, hw, hne, hhead, hbody, hposts⟩ := RuleBook.exists_wording hr
  obtain rfl : e.1 = s := by
    rw [Concrete.symbol_phrase hr, hhead,
      RuleBook.symbolAt?_number (RuleBook.fst_mem_symbols he)] at hs
    exact Option.some.inj hs
  obtain ⟨hfirst, -⟩ := hv.house_parts e he hmem w hw
  -- the brace is the first tree of the phrase, since no extra stands in front of it
  rw [hbody, List.forall₂_map_right_iff] at hfits
  obtain ⟨c, hcx, hfit⟩ := Extremity.front.exists_of_forall₂ hfits hfirst
  obtain ⟨cs, rfl⟩ : ∃ cs, parts = c :: cs :=
    List.head?_eq_some_iff.1 (hread.1.of_filter .front hcx)
  have hbrace := items_of_fits_mark (hformed c List.mem_cons_self) hread.2.1 hfit
    (RuleBook.terminal_mem_symbols he hw (List.mem_of_mem_head? hfirst) rfl)
  have hpost : r.posts.headD .plain = .plain := by
    rw [List.headD_eq_head?_getD, hposts, List.head?_map, hfirst]
    rfl
  rw [Concrete.ownItems_phrase hr, Concrete.itemsFirst, hpost, hbrace]
  exact ⟨_, rfl⟩

/-- In the body of a class stand members between braces. -/
theorem HouseSurvey.inHouse_ownItems (hv : HouseSurvey definitions source) {q : Nat}
    {parts : List Concrete} (hc : (Concrete.phrase q parts).Formed (.ofDefinitions definitions source))
    (hread : (Concrete.phrase q parts).Read (.ofDefinitions definitions source) after)
    (hs : RuleBook.symbolAt? definitions source
      ((Concrete.phrase q parts).symbol (.ofDefinitions definitions source)) = some s)
    (hmem : s ∈ houses) :
    ∀ i ∈ (Concrete.phrase q parts).ownItems (.ofDefinitions definitions source), i.InHouse := by
  refine Concrete.forall_ownItems hc hread (fun _ => trivial)
    (fun c hx post => Concrete.inHouse_of_isExtra hx) ?_
  intro c _ after hc hread e he hhead w hw p hp hfit
  obtain rfl : e.1 = s := Option.some.inj (hhead.symm.trans hs)
  rcases (hv.house_parts e he hmem w hw).2 p hp with hbrace | ⟨hplain, hcarrier⟩
  · obtain ⟨t, ht, rfl⟩ := List.mem_map.1 hbrace
    have hsymbol := RuleBook.terminal_mem_symbols he hw hp rfl
    have hitems := items_of_fits_mark hc hread hfit hsymbol
    intro j hj
    obtain rfl : j = _ := List.mem_singleton.1 (hitems ▸ hj)
    exact .inr ht
  · obtain ⟨s', hmem', hs'⟩ :=
      hv.exists_member_of_fits hfit (List.mem_append_left _ hcarrier)
    exact hv.inHouse_items hc hread hs' hmem' hplain

/-- **A node that shows a tree is housed.** -/
theorem HouseSurvey.housed_build (hv : HouseSurvey definitions source)
    (ho : OriginSurvey definitions source memberRules)
    (hc : c.Formed (.ofDefinitions definitions source))
    (hread : c.Read (.ofDefinitions definitions source) after) (hextra : c.isExtra = false)
    (hpost : post.Spares definitions source c) (l : Label)
    (hguise : post.guise?.getD ((RuleBook.ofDefinitions definitions source).guiseOf
      (c.symbol (.ofDefinitions definitions source))) ≠ .hidden) :
    (Item.build l (c.ownItems (.ofDefinitions definitions source))).Housed := by
  by_cases hany : ∃ i ∈ c.ownItems (.ofDefinitions definitions source), i.IsMethod
  · obtain ⟨i, hi, hmethod⟩ := hany
    cases c with
    | comment gap text => simp [Concrete.isExtra] at hextra
    | island gap i => simp [Concrete.isExtra] at hextra
    | token k gap text =>
      obtain rfl := List.mem_singleton.1 hi
      exact hmethod.elim
    | phrase q parts =>
      -- phrases that are nothing but members do not show, so this one is the body of a class
      obtain ⟨s, hs, hsymbol⟩ := hv.mem_of_ownItems ho hc hread hi hmethod
      rw [hpost.guise_eq s hs hsymbol, Option.getD_none] at hguise
      have hhouse : s ∈ houses := by
        refine (List.mem_append.1 hs).resolve_left fun hcarrier => ?_
        have hnot : ∀ s ∈ carriers, s.isTerminal = false := by decide
        obtain ⟨e, he, rfl, hguiseOf, -⟩ :=
          RuleBook.exists_entry_of_symbolAt? hsymbol (hnot s hcarrier)
        exact hguise (hguiseOf.trans (hv.guise_carrier e he hcarrier))
      exact Item.housed_build (hv.exists_ownItems_eq hc hread hsymbol hhouse)
        (hv.inHouse_ownItems hc hread hsymbol hhouse)
  · exact Item.housed_build_of_not fun i hi hmethod => hany ⟨i, hi, hmethod⟩

/-- The nodes that a tree gives are housed, given this of the nodes below it. -/
theorem HouseSurvey.housed_items_of_ownItems (hv : HouseSurvey definitions source)
    (ho : OriginSurvey definitions source memberRules)
    (hc : c.Formed (.ofDefinitions definitions source))
    (hread : c.Read (.ofDefinitions definitions source) after) (hextra : c.isExtra = false)
    (hpost : post.Spares definitions source c)
    (h : ∀ i ∈ c.ownItems (.ofDefinitions definitions source), i.All Node.Housed) :
    ∀ i ∈ c.items (.ofDefinitions definitions source) post, i.All Node.Housed := by
  rw [Concrete.items_of_formed hextra hc]
  refine all_dress (fun n f h => h.withField f) (fun t => Node.housed_leaf _ t) ?_ h
  intro rule named hrule
  refine hv.housed_build ho hc hread hextra hpost _ fun hhidden => ?_
  simp [hhidden, Guise.rule?] at hrule

/-- **All nodes that a tree gives are housed.** -/
theorem HouseSurvey.housed_items (hv : HouseSurvey definitions source)
    (ho : OriginSurvey definitions source memberRules)
    (hc : c.Formed (.ofDefinitions definitions source))
    (hread : c.Read (.ofDefinitions definitions source) after)
    (hpost : post.Spares definitions source c) :
    ∀ i ∈ c.items (.ofDefinitions definitions source) post, i.All Node.Housed := by
  induction c using Concrete.treeInduction generalizing post after with
  | comment gap text => exact Concrete.housed_of_isExtra rfl
  | island gap isle => exact Concrete.housed_of_isExtra rfl
  | token k gap text =>
    apply hv.housed_items_of_ownItems ho hc hread rfl hpost
    simp [Concrete.ownItems, Item.All]
  | phrase q parts ih =>
    apply hv.housed_items_of_ownItems ho hc hread rfl hpost
    refine Concrete.forall_ownItems hc hread (fun _ => trivial)
      (fun c hx post => Concrete.housed_of_isExtra hx) ?_
    intro c hmem after hc hread e he _ w hw p hp hfit
    exact ih c hmem hc hread (hv.spares he hw hp hfit)

/-- A tree of a source stands in a place of a wording of the goal. -/
theorem exists_place_of_isGoal {cs : List Concrete}
    (h : cs = [] ∨ Pile.IsGoal (.ofDefinitions definitions source) cs) (hc : c ∈ cs)
    (hextra : c.isExtra = false) :
    ∃ e ∈ RuleBook.entries definitions source, e.1 = .phrase "" ∧
      ∃ w ∈ RuleBook.wordingsOf e, ∃ p ∈ w.symbols,
        Fits (.ofDefinitions definitions source) c (RuleBook.number definitions source p.symbol) := by
  rcases h with rfl | ⟨q, r, hr, hgoal, hfits⟩
  · simp at hc
  obtain ⟨e, he, w, hw, -, hhead, hbody, -⟩ := RuleBook.exists_wording hr
  refine ⟨e, he, ?_, w, hw, ?_⟩
  · by_contra hne
    exact RuleBook.number_ne_goal hne (hhead.symm.trans hgoal)
  · rw [hbody, List.forall₂_map_right_iff] at hfits
    exact exists_of_forall₂ hfits (List.mem_filter.2 ⟨hc, by simpa using hextra⟩)

namespace HouseSurvey

variable {p : Parsed}

/-- The root spares the trees of a source. -/
theorem spares_of_isGoal (hv : HouseSurvey definitions source)
    (hgoal : p.trees = [] ∨ Pile.IsGoal (.ofDefinitions definitions source) p.trees)
    (hc : c ∈ p.trees) (hextra : c.isExtra = false) :
    Post.Spares definitions source ⟨none, some .hidden⟩ c := by
  obtain ⟨e, he, hsource, w, hw, p, hp, hfit⟩ := exists_place_of_isGoal hgoal hc hextra
  refine ⟨.inl rfl, fun s hs hsymbol => ?_⟩
  exact absurd (hv.mem_of_fits hfit hsymbol hs) (hv.goal e he hsource w hw p hp)

/-- No tree of a source gives a method: the goal is no phrase that methods may stand in. -/
theorem not_isMethod_of_isGoal (hv : HouseSurvey definitions source)
    (ho : OriginSurvey definitions source memberRules)
    (hp : p.Formed (.ofDefinitions definitions source))
    (hread : Concrete.ReadAll (.ofDefinitions definitions source) p.tail.toList p.trees)
    (hgoal : p.trees = [] ∨ Pile.IsGoal (.ofDefinitions definitions source) p.trees)
    (hc : c ∈ p.trees) :
    ∀ i ∈ c.items (.ofDefinitions definitions source)
      ⟨none, if c.isExtra then none else some .hidden⟩, ¬i.IsMethod := by
  intro i hi hmethod
  cases hextra : c.isExtra with
  | true => exact Concrete.not_isMethod_of_isExtra hextra i hi hmethod
  | false =>
    rw [hextra] at hi
    have hspares := hv.spares_of_isGoal hgoal hc hextra
    obtain ⟨after', hread'⟩ := Concrete.exists_read_of_mem hread hc
    obtain ⟨s, hs, hsymbol⟩ := hv.mem_of_items ho (hp c hc) hread' hspares hi hmethod
    obtain ⟨e, he, hsource, w, hw, p, hp, hfit⟩ := exists_place_of_isGoal hgoal hc hextra
    have hmem := hv.carried e he w hw p hp (hv.carries_of_fits hfit hsymbol hs)
    rw [hsource] at hmem
    exact absurd hmem (by decide)

end HouseSurvey

/-- **All nodes of a source are housed**: no method stands right below the root. -/
theorem Parsed.housed_root (hv : HouseSurvey definitions source)
    (ho : OriginSurvey definitions source memberRules) {p : Parsed}
    (hp : p.Formed (.ofDefinitions definitions source))
    (hread : Concrete.ReadAll (.ofDefinitions definitions source) p.tail.toList p.trees)
    (hgoal : p.trees = [] ∨ Pile.IsGoal (.ofDefinitions definitions source) p.trees) :
    ∀ n ∈ (p.root (.ofDefinitions definitions source)).descendants, n.Housed := by
  obtain ⟨items, hroot, hitems⟩ := p.exists_root_eq (.ofDefinitions definitions source)
  rw [hroot]
  intro n hn
  rcases Node.mem_descendants_branch.1 hn with rfl | ⟨m, hm, hn⟩
  · intro m hm hkind
    obtain ⟨i, hi, hmethod⟩ := Item.exists_isMethod_of_mem_close hm hkind
    rcases hitems i hi with ⟨t, rfl⟩ | rfl | hi
    · exact hmethod.elim
    · exact absurd (rule_of_kind_eq_method hmethod).2 (by decide)
    · exact absurd hmethod (Concrete.forall_rootItems (P := fun i => ¬i.IsMethod)
        (fun _ h => h) (fun c hc => hv.not_isMethod_of_isGoal ho hp hread hgoal hc) i hi)
  · refine Item.all_close (fun t => Node.housed_leaf _ t) (fun i hi => ?_) m hm n hn
    rcases hitems i hi with ⟨t, rfl⟩ | rfl | hi
    · trivial
    · intro d hd
      obtain rfl := Node.mem_descendants_leaf.1 hd
      exact Node.housed_leaf _ _
    · refine Concrete.forall_rootItems (fun _ => trivial) (fun c hc => ?_) i hi
      cases hextra : c.isExtra with
      | true => exact Concrete.housed_of_isExtra hextra
      | false =>
        obtain ⟨after', hread'⟩ := Concrete.exists_read_of_mem hread hc
        exact hv.housed_items ho (hp c hc) hread' (hv.spares_of_isGoal hgoal hc hextra)

end Houses

/-- **Where a method stands in a source**, its siblings are members behind a brace. -/
theorem housed_of_sourceTree? {source : String} {root : Node}
    (h : sourceTree? source = some root) : ∀ n ∈ root.descendants, n.Housed := by
  obtain ⟨p, hp, rfl⟩ := Option.map_eq_some_iff.1 h
  have hapart : sourceRules.GoalApart :=
    RuleBook.goalApart_ofDefinitions houseSurvey_sourceDefinitions.goal_apart
  exact Parsed.housed_root houseSurvey_sourceDefinitions memberEndSurvey_sourceDefinitions.origin
    (parse?_sound RuleBook.begunRight_sourceRules hp).2
    (parse?_read RuleBook.begunRight_sourceRules hp)
    (parse?_goal RuleBook.begunRight_sourceRules hapart RuleBook.goal_ne_zero hp)

end DocBlocks
