import DocBlocks.Proofs.Syntax.Origin

/-!
# What the rules of a source file make sure of

`Node.orderly_of_parseSource`: in the tree of a source, calls have text, no import stands below
another one and no clause of an import below another one, and classes have names. Each point is a
check of the rules, which what is known of nodes and the phrases they show carries over to trees.
-/

namespace DocBlocks

/-! ### The rules of a source file -/

/-- The rules of calls with a receiver. -/
def callRules : List String :=
  ["scoped_call_expression", "member_call_expression", "nullsafe_member_call_expression"]

/-- The rules whose nodes are known to show their own phrases. -/
def shownRules : List String :=
  callRules ++ ["namespace_use_declaration", "namespace_use_clause", "class_declaration"]

theorem originSurvey_sourceDefinitions :
    OriginSurvey sourceDefinitions "program" shownRules where
  extra_ne := by decide
  terminal_ne := by decide +kernel
  offered_ne := by decide +kernel
  symbol_eq := by decide +kernel

theorem edgeSurvey_callRules : EdgeSurvey sourceDefinitions "program" .back
    (.phrase "arguments" :: callRules.map .phrase) [.mark ")"] where
  known := by decide +kernel
  covered := by decide +kernel
  ends := by decide

/-- The phrases that the clause of an import is made of. -/
def clausePhrases : List Symbol :=
  [ .phrase "qualified_name", .phrase "namespace_name", .phrase "import_sort", .phrase "class_word",
    .series (.seq [.mark "\\", .token .name]) ]

/-- The phrases that an import is made of. -/
def importPhrases : List Symbol :=
  [ .phrase "namespace_use_group", .phrase "statement_end", .phrase "namespace_use_clause",
    .series (.followed (.mark ",") (.rule "namespace_use_clause")) ] ++ clausePhrases

theorem nestSurvey_clause :
    NestSurvey sourceDefinitions "program" (.phrase "namespace_use_clause") clausePhrases where
  not_mem := by decide
  known := by decide +kernel
  parts := by decide +kernel

theorem nestSurvey_import :
    NestSurvey sourceDefinitions "program" (.phrase "namespace_use_declaration") importPhrases where
  not_mem := by decide
  known := by decide +kernel
  parts := by decide +kernel

theorem longSurvey_callRules : ∀ e ∈ RuleBook.entries sourceDefinitions "program",
    ∀ rule ∈ callRules, e.1 = .phrase rule → ∀ w ∈ RuleBook.wordingsOf e, 2 ≤ w.symbols.length := by
  decide +kernel

theorem nameSurvey_class : ∀ e ∈ RuleBook.entries sourceDefinitions "program",
    e.1 = .phrase "class_declaration" → ∀ w ∈ RuleBook.wordingsOf e,
      (⟨.terminal .given, some "name", none⟩ : Placed) ∈ w.symbols := by
  decide +kernel

/-! ### The trees of sources -/

namespace Node

/-- Whether a node is a call with a receiver. -/
def IsCall (n : Node) : Prop := n.kind = .expr .staticCall ∨ n.kind = .expr .memberCall

/-- What the rules of a source file make sure of: calls have text, no import stands below another
one and no clause of an import below another one, and classes have names. -/
structure Orderly (n : Node) : Prop where
  text_ne : ∀ d ∈ n.descendants, d.IsCall → d.text ≠ ""
  rule_eq : ∀ d ∈ n.descendants, d.kind = .namespaceUse → d.rule = "namespace_use_declaration"
  kind_ne : ∀ d ∈ n.descendants, d.kind = .namespaceUse →
    ∀ e ∈ descendantsAll d.children, e.kind ≠ .namespaceUse
  rule_ne : ∀ d ∈ n.descendants, d.rule = "namespace_use_clause" →
    ∀ e ∈ descendantsAll d.children, e.rule ≠ "namespace_use_clause"
  named : ∀ d ∈ n.descendants, d.kind = .classDeclaration →
    ∃ m, d.childByField? "name" = some m

end Node

theorem Parsed.orderly_root {p : Parsed} (hp : p.Formed sourceRules)
    (hread : Concrete.ReadAll sourceRules p.tail.toList p.trees) : (p.root sourceRules).Orderly := by
  have hall := p.accounted_root originSurvey_sourceDefinitions hp hread
  have hcall : ∀ x ∈ Kind.ofRule, x.2 = .expr .staticCall ∨ x.2 = .expr .memberCall →
      x.1 ∈ callRules := by decide
  have himport : ∀ x ∈ Kind.ofRule, x.2 = .namespaceUse → x.1 = "namespace_use_declaration" := by
    decide
  have hclass : ∀ x ∈ Kind.ofRule, x.2 = .classDeclaration → x.1 = "class_declaration" := by
    decide
  have hrule : ∀ d ∈ (p.root sourceRules).descendants, d.kind = .namespaceUse →
      d.rule = "namespace_use_declaration" :=
    fun d hd hk => himport _ ((hall d hd).mem_ofRule hk (by decide)) rfl
  -- a node of a surveyed rule shows a phrase that is formed and was found where it stands
  have hshown : ∀ d ∈ (p.root sourceRules).descendants, d.rule ∈ shownRules →
      ∃ c q parts r after, d.Shows sourceDefinitions "program" c q parts r ∧
        c.Formed sourceRules ∧ c.Read sourceRules after := by
    intro d hd hmem
    obtain ⟨c, hc, q, parts, r, hshows⟩ := (hall d hd).shows hmem
    obtain ⟨after, hread⟩ := Concrete.exists_read_of_mem hread hc
    exact ⟨c, q, parts, r, after, hshows, hp c hc, hread⟩
  refine ⟨fun d hd hk => ?_, hrule, fun d hd hk e he hke => ?_, fun d hd hd' e he => ?_,
    fun d hd hk => ?_⟩
  · have hmem : d.rule ∈ callRules := by
      rcases hk with hk | hk
      · exact hcall _ ((hall d hd).mem_ofRule hk (by decide)) (.inl rfl)
      · exact hcall _ ((hall d hd).mem_ofRule hk (by decide)) (.inr rfl)
    obtain ⟨c, q, parts, r, after, hshows, hc, hread⟩ := hshown d hd (List.mem_append_left _ hmem)
    exact hshows.text_ne (by decide) edgeSurvey_callRules
      (List.mem_cons_of_mem _ (List.mem_map_of_mem hmem))
      (fun e he heq => longSurvey_callRules e he _ hmem heq) hc hread
  · have hd' := hrule d hd hk
    have hmem : d.rule ∈ shownRules := by
      rw [hd']
      decide
    obtain ⟨c, q, parts, r, after, hshows, hc, hread⟩ := hshown d hd hmem
    have he' : e ∈ (p.root sourceRules).descendants := by
      refine Node.mem_descendants_trans ?_ hd
      rw [Node.descendants_eq]
      exact List.mem_cons_of_mem _ he
    refine hshows.rule_ne_below originSurvey_sourceDefinitions (hd' ▸ nestSurvey_import) hmem hc
      hread e he ?_
    rw [hd', hrule e he' hke]
  · have hmem : d.rule ∈ shownRules := by
      rw [hd']
      decide
    obtain ⟨c, q, parts, r, after, hshows, hc, hread⟩ := hshown d hd hmem
    rw [← hd']
    exact hshows.rule_ne_below originSurvey_sourceDefinitions (hd' ▸ nestSurvey_clause) hmem hc
      hread e he
  · have hd' : d.rule = "class_declaration" :=
      hclass _ ((hall d hd).mem_ofRule hk (by decide)) rfl
    have hmem : d.rule ∈ shownRules := by
      rw [hd']
      decide
    obtain ⟨c, q, parts, r, after, hshows, hc, -⟩ := hshown d hd hmem
    exact hshows.exists_childByField? hc (t := .given) (by decide)
      fun e he heq => nameSurvey_class e he (hd' ▸ heq)

namespace Node

theorem rule_place (index : LineIndex) (offset : Nat) (n : Node) :
    (n.place index offset).rule = n.rule := by
  cases n <;> rfl

theorem map_field_placeAll (index : LineIndex) (offset : Nat) (ns : List Node) :
    (placeAll index offset ns).map field = ns.map field := by
  induction ns generalizing offset with
  | nil => rfl
  | cons n ns ih => simp [placeAll, ih]

theorem exists_childByField?_iff {n : Node} {role : String} :
    (∃ m, n.childByField? role = some m) ↔ some role ∈ n.children.map field := by
  simp [← Option.isSome_iff_exists, childByField?, List.find?_isSome]

theorem exists_childByField?_place {n : Node} {role : String} (index : LineIndex) (offset : Nat)
    (h : ∃ m, n.childByField? role = some m) :
    ∃ m, (n.place index offset).childByField? role = some m := by
  rw [exists_childByField?_iff] at h ⊢
  rwa [children_place, map_field_placeAll]

/-- A node below a placed one is a placed node from below it. -/
theorem exists_place_of_mem_descendantsAll {index : LineIndex} {offset : Nat} {n e : Node}
    (h : e ∈ descendantsAll (n.place index offset).children) :
    ∃ m ∈ descendantsAll n.children, ∃ offset', e = m.place index offset' := by
  obtain ⟨c, hc, he⟩ := mem_descendantsAll.1 h
  rw [children_place] at hc
  obtain ⟨xs, c', ys, hcs, rfl⟩ := exists_place_of_mem_placeAll hc
  obtain ⟨m, hm, front, back, -, rfl⟩ := exists_place_of_mem_descendants he
  exact ⟨m, mem_descendantsAll.2 ⟨c', by simp [hcs], hm⟩, _, rfl⟩

theorem Orderly.placeIn {n : Node} (h : n.Orderly) (source : String) :
    (n.placeIn source).Orderly where
  text_ne d hd hk := by
    obtain ⟨m, hm, front, back, -, rfl⟩ := exists_place_of_mem_descendants hd
    rw [text_place]
    exact h.text_ne m hm (by simpa [IsCall] using hk)
  rule_eq d hd hk := by
    obtain ⟨m, hm, front, back, -, rfl⟩ := exists_place_of_mem_descendants hd
    rw [rule_place]
    exact h.rule_eq m hm (by simpa using hk)
  kind_ne d hd hk e he := by
    obtain ⟨m, hm, front, back, -, rfl⟩ := exists_place_of_mem_descendants hd
    obtain ⟨m', hm', offset', rfl⟩ := exists_place_of_mem_descendantsAll he
    rw [kind_place]
    exact h.kind_ne m hm (by simpa using hk) m' hm'
  rule_ne d hd hd' e he := by
    obtain ⟨m, hm, front, back, -, rfl⟩ := exists_place_of_mem_descendants hd
    obtain ⟨m', hm', offset', rfl⟩ := exists_place_of_mem_descendantsAll he
    rw [rule_place] at hd' ⊢
    exact h.rule_ne m hm hd' m' hm'
  named d hd hk := by
    obtain ⟨m, hm, front, back, -, rfl⟩ := exists_place_of_mem_descendants hd
    exact exists_childByField?_place _ _ (h.named m hm (by simpa using hk))

end Node

/-- **The trees of sources are orderly.** -/
theorem orderly_of_sourceTree? {source : String} {root : Node} (h : sourceTree? source = some root) :
    root.Orderly := by
  obtain ⟨p, hp, rfl⟩ := Option.map_eq_some_iff.1 h
  exact p.orderly_root (parse?_sound RuleBook.begunRight_sourceRules hp).2
    (parse?_read RuleBook.begunRight_sourceRules hp)

theorem Node.orderly_of_parseSource {source : String} {root : Node}
    (h : parseSource source = .ok root) : root.Orderly := by
  obtain ⟨-, tree, htree, rfl⟩ := parseSource_eq_ok.1 h
  exact (orderly_of_sourceTree? htree).placeIn source

end DocBlocks
