import DocBlocks.Proofs.Syntax.Along
import DocBlocks.Proofs.Syntax.Frame

/-!
# How members begin and end

`memberEnds_of_sourceTree?`: a member of a class ends with a brace or a semicolon, or else a closing
tag is in sight behind it, and a method begins with an attribute or a word besides. What the rules
let members begin and end with is checked once (`MemberEndSurvey`).

What stands behind a node matters here, so the tree is gone through together with the text behind
each of its nodes (`Node.Along`).
-/

namespace DocBlocks

/-! ### The rules of members -/

/-- The rules of members. -/
def memberRules : List String :=
  ["method_declaration", "const_declaration", "property_declaration", "use_declaration", "enum_case"]

/-- The phrases that a method can begin with. -/
def methodFronts : List Symbol :=
  [ .phrase "method_declaration", .phrase "attribute_list", .series (.rule "attribute_group"),
    .phrase "attribute_group", .series (.rule "modifier"), .phrase "modifier",
    .phrase "var_modifier", .phrase "visibility_modifier", .phrase "static_modifier",
    .phrase "final_modifier", .phrase "abstract_modifier", .phrase "readonly_modifier",
    .phrase "function_head" ]

/-- The terminals that a method can begin with. -/
def methodOpeners : List Terminal :=
  .mark "#[" :: ["var", "public", "protected", "private", "static", "final", "abstract", "readonly",
    "function"].map .keyword

/-- The phrases that a member can end with. -/
def memberBacks : List Symbol :=
  memberRules.map .phrase ++ [.phrase "compound_statement", .phrase "statement_end",
    .phrase "property_hook_list", .phrase "use_list"]

/-- The terminals that a member can end with. -/
def memberClosers : List Terminal := [.mark "\x7d", .mark ";", .pause]

/-- A survey of rules that finds what members end with and what methods begin with. -/
structure MemberEndSurvey (definitions : List Definition) (source : String) : Prop where
  origin : OriginSurvey definitions source memberRules
  front : EdgeSurvey definitions source .front methodFronts methodOpeners
  back : EdgeSurvey definitions source .back memberBacks memberClosers

theorem memberEndSurvey_sourceDefinitions : MemberEndSurvey sourceDefinitions "program" where
  origin :=
    { extra_ne := by decide +kernel
      terminal_ne := by decide +kernel
      offered_ne := by decide +kernel
      symbol_eq := by decide +kernel }
  front :=
    { known := by decide +kernel
      covered := by decide +kernel
      ends := by decide +kernel }
  back :=
    { known := by decide +kernel
      covered := by decide +kernel
      ends := by decide +kernel }

/-- Whether a node, if it is a method, is framed. -/
def Node.MethodFramed (n : Node) (after : List Char) : Prop :=
  n.kind = .method → Framed n.text.toList after

/-- Whether a node, if it is a member, ends as members do, and if it is a method, is framed. -/
def Node.MemberEnds (n : Node) (after : List Char) : Prop :=
  (n.rule ∈ memberRules → Ended n.text.toList after) ∧ n.MethodFramed after

/-! ### The text of a member -/

section Ends

variable {definitions : List Definition} {source : String} {after : List Char}

/-- What stands at the back of a tree stands at the back of its parts. -/
theorem Edge.exists_back_ownItems {ts : List Terminal} {c : Concrete} (hends : .finish ∉ ts)
    (h : Edge definitions source .back ts c)
    (hread : c.Read (.ofDefinitions definitions source) after) :
    ∃ t ∈ ts, ∃ front gap text,
      (Item.textAll (c.ownItems (.ofDefinitions definitions source))).toList = front ++ text ∧
        t.Spells gap text after := by
  induction h generalizing after with
  | @token k t gap text ht hk =>
    obtain ⟨t', ht', hspells⟩ := exists_terminal_of_foundBefore hread
    obtain rfl : t = t' := by simpa [hk] using ht'
    rcases hspells with rfl | hspells
    · exact absurd ht hends
    · exact ⟨t, ht, [], gap.toList, text.toList, by simp [Concrete.ownItems, Item.text], hspells⟩
  | @phrase q parts c hc _ ih =>
    obtain ⟨cs, rfl⟩ : ∃ cs, parts = cs ++ [c] := List.getLast?_eq_some_iff.1 hc
    have hlast := (Concrete.readAll_append.1 hread.2).2.1
    obtain ⟨t, ht, front, gap, text, htext, hspells⟩ := ih hlast
    -- the parts of the phrase end with those of its last tree
    suffices hown : ∃ front', (Item.textAll ((Concrete.phrase q (cs ++ [c])).ownItems
        (.ofDefinitions definitions source))).toList = front' ++
          (Item.textAll (c.ownItems (.ofDefinitions definitions source))).toList by
      obtain ⟨front', hown⟩ := hown
      exact ⟨t, ht, front' ++ front, gap, text, by rw [hown, htext, List.append_assoc], hspells⟩
    have howns := fun d : Concrete =>
      d.toList_lead_append_ownItems (.ofDefinitions definitions source)
    have hphrase := howns (.phrase q (cs ++ [c]))
    have hlead := howns c
    cases cs with
    | nil =>
      refine ⟨[], ?_⟩
      rw [← List.append_cancel_left_eq c.lead.toList]
      simpa [Concrete.lead, Concrete.text, Concrete.textAll, hlead] using hphrase
    | cons d ds =>
      refine ⟨(Item.textAll (d.ownItems (.ofDefinitions definitions source))).toList ++
        (Concrete.textAll ds).toList ++ c.lead.toList, ?_⟩
      rw [← List.append_cancel_left_eq d.lead.toList]
      simpa [Concrete.lead, Concrete.text, Concrete.textAll, Concrete.textAll_append, ← howns d,
        ← hlead] using hphrase

/-- A member ends as members do. -/
theorem MemberEndSurvey.ended (hv : MemberEndSurvey definitions source) {c : Concrete}
    (hc : c.Formed (.ofDefinitions definitions source))
    (hread : c.Read (.ofDefinitions definitions source) after) (hextra : c.isExtra = false)
    {rule : String} (hrule : rule ∈ memberRules)
    (hsymbol : RuleBook.symbolAt? definitions source
      (c.symbol (.ofDefinitions definitions source)) = some (.phrase rule)) :
    Ended (Item.textAll (c.ownItems (.ofDefinitions definitions source))).toList after := by
  have hmem : Symbol.phrase rule ∈ memberBacks :=
    List.mem_append_left _ (List.mem_map_of_mem hrule)
  have hedge := hv.back.edge hc hread hextra hsymbol (.inl hmem)
  obtain ⟨t, ht, front, gap, text, htext, hspells⟩ := hedge.exists_back_ownItems hv.back.ends hread
  simp only [memberClosers, List.mem_cons, List.not_mem_nil, or_false] at ht
  rcases ht with rfl | rfl | rfl
  · obtain rfl : text = ['\x7d'] := hspells
    exact .inl ⟨front, _, htext, by decide, by decide⟩
  · obtain rfl : text = [';'] := hspells
    exact .inl ⟨front, _, htext, by decide, by decide⟩
  · exact .inr hspells.2.2

/-- A method begins as methods do. -/
theorem MemberEndSurvey.exists_front (hv : MemberEndSurvey definitions source) {c : Concrete}
    (hc : c.Formed (.ofDefinitions definitions source))
    (hread : c.Read (.ofDefinitions definitions source) after) (hextra : c.isExtra = false)
    (hsymbol : RuleBook.symbolAt? definitions source
      (c.symbol (.ofDefinitions definitions source)) = some (.phrase "method_declaration")) :
    ∃ d ds, (Item.textAll (c.ownItems (.ofDefinitions definitions source))).toList = d :: ds ∧
      (d = '#' ∨ isNameStart d = true) := by
  have hmem : Symbol.phrase "method_declaration" ∈ methodFronts := by decide
  have hedge := hv.front.edge hc hread hextra hsymbol (.inl hmem)
  obtain ⟨t, ht, text, rest, after', htext, hspells⟩ := hedge.exists_front hv.front.ends hread
  rw [← c.toList_lead_append_ownItems (.ofDefinitions definitions source),
    List.append_cancel_left_eq] at htext
  rcases List.mem_cons.1 ht with rfl | ht
  · obtain rfl : text = "#[".toList := hspells
    exact ⟨'#', '[' :: rest, htext, .inl rfl⟩
  · obtain ⟨w, -, rfl⟩ := List.mem_map.1 ht
    obtain ⟨d, ds, rfl, hd⟩ := hspells
    exact ⟨d, ds ++ rest, htext, .inr hd⟩

/-! ### Members in a tree -/

namespace Node

theorem memberEnds_of_label {n : Node} {rule : String} {named : Bool} {role? : Option String}
    (hlabel : n.label = ruleLabel rule named role?)
    (h : rule ∈ memberRules → Ended n.text.toList after)
    (hmethod : rule = "method_declaration" → Framed n.text.toList after) : n.MemberEnds after := by
  constructor
  · rw [Node.rule, hlabel]
    exact h
  · intro hkind
    rw [kind, hlabel] at hkind
    exact hmethod (rule_of_kind_eq_method hkind).2

theorem memberEnds_of_not_mem {n : Node} {rule : String} {named : Bool} {role? : Option String}
    (hlabel : n.label = ruleLabel rule named role?) (hrule : rule ∉ memberRules)
    (after : List Char) : n.MemberEnds after := by
  refine memberEnds_of_label hlabel (fun h => absurd h hrule) ?_
  rintro rfl
  simp [memberRules] at hrule

theorem MemberEnds.withField {n : Node} (h : n.MemberEnds after) (f : Option String) :
    (n.withField f).MemberEnds after := by
  simpa [MemberEnds, MethodFramed, rule_withField] using h

theorem memberEnds_trivia (t : String) (after : List Char) :
    (Node.trivia t .nowhere).MemberEnds after := by
  constructor
  · intro hrule
    simp [Node.rule, Node.label, Node.trivia, memberRules] at hrule
  · intro hkind
    simp at hkind

end Node

/-- No extra is a member, and none stands in one. -/
theorem alongAll_memberEnds_of_isExtra {book : RuleBook} {c : Concrete} (h : c.isExtra = true) :
    Item.AlongAll Node.MemberEnds after (c.ownItems book) := by
  cases c with
  | token t gap text => simp [Concrete.isExtra] at h
  | phrase p parts => simp [Concrete.isExtra] at h
  | comment gap text =>
    have hcomment : (Node.comment text .nowhere).label = ruleLabel "comment" true none := rfl
    exact ⟨Node.memberEnds_of_not_mem hcomment (by decide) _, trivial⟩
  | island gap i =>
    have hrules : ∀ r ∈ ["php_end_tag", "text", "php_tag"], r ∉ memberRules := by decide
    refine ⟨Island.along_node Node.memberEnds_trivia (fun rule hrule t after => ?_) ?_, trivial⟩
    · exact Node.memberEnds_of_not_mem rfl (hrules rule hrule) after
    · exact Node.memberEnds_of_not_mem i.label_node (by decide) _

theorem MemberEndSurvey.carried (hv : MemberEndSurvey definitions source) :
    Carried definitions source Node.MemberEnds where
  withField _ f _ h := h.withField f
  trivia := Node.memberEnds_trivia
  program := Node.memberEnds_of_not_mem rfl (by decide)
  extra c after h _ := alongAll_memberEnds_of_isExtra h
  own c after role? rule named hextra hc hread hshows := by
    have hended : rule ∈ memberRules →
        Ended (Item.textAll (c.ownItems (.ofDefinitions definitions source))).toList after :=
      fun hrule => hv.ended hc hread hextra hrule (hv.origin.symbol_of_showsAs hrule hshows)
    apply Node.memberEnds_of_label (Item.label_build _ _)
    · rw [Item.text_build]
      exact hended
    · rintro rfl
      have hsymbol := hv.origin.symbol_of_showsAs (by decide) hshows
      rw [Item.text_build]
      exact ⟨hv.exists_front hc hread hextra hsymbol, hended (by decide)⟩

end Ends

/-- **The members of a source end as members do**, and its methods are framed. -/
theorem memberEnds_of_sourceTree? {source : String} {root : Node}
    (h : sourceTree? source = some root) : root.Along Node.MemberEnds [] := by
  obtain ⟨p, hp, rfl⟩ := Option.map_eq_some_iff.1 h
  have hsound := parse?_sound RuleBook.begunRight_sourceRules hp
  refine Parsed.along_root memberEndSurvey_sourceDefinitions.carried hsound.2
    (parse?_read RuleBook.begunRight_sourceRules hp) ?_
  obtain ⟨items, hroot, -⟩ := p.exists_root_eq sourceRules
  have hlabel : (p.root sourceRules).label = ruleLabel "program" true none := by
    rw [hroot]
    rfl
  exact Node.memberEnds_of_not_mem hlabel (by decide) []

end DocBlocks
