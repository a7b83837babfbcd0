import DocBlocks.Proofs.Syntax.Along
import DocBlocks.Proofs.Token.Extra

/-!
# Comments and islands in a tree

`extrasShaped_of_sourceTree?`: the comments in the tree of a source have the texts of comments, and
behind its islands code goes on right behind a tag, or it does not go on at all. No rule lets
anything else show as a comment or an island (`ExtraSurvey`), so such a node is an extra as it was
found.
-/

namespace DocBlocks

/-- The rules of extras. -/
def shapedRules : List String := ["comment", "text_interpolation"]

/-- Whether a node has the shape of a comment or an island if it is one, given the text behind it.
-/
def Node.ExtraShaped (n : Node) (after : List Char) : Prop :=
  (n.kind = .comment → CommentText n.text.toList) ∧
    (n.rule = "text_interpolation" → EndsMarkup n.text.toList after)

section Survey

variable (definitions : List Definition) (source : String)

/-- A survey of rules that finds neither a token nor a phrase to show as an extra. -/
structure ExtraSurvey : Prop where
  offered_ne : ∀ e ∈ RuleBook.entries definitions source, ∀ w ∈ RuleBook.wordingsOf e,
    ∀ p ∈ w.symbols, ∀ r ∈ (p.guise?.bind Guise.rule?).toList, r ∉ shapedRules
  terminal_ne : ∀ t ∈ [.finish, .name, .given, .pause] ++ definitions.flatMap (·.body.terminals),
    ∀ r ∈ t.guise.rule?.toList, r ∉ shapedRules
  phrase_ne : ∀ e ∈ RuleBook.entries definitions source, ∀ r ∈ e.2.1.guise.rule?.toList,
    r ∉ shapedRules

end Survey

namespace Node

/-- A node of another rule need not have any shape. -/
theorem extraShaped_of_not_mem {n : Node} {rule : String} {named : Bool} {role? : Option String}
    (hlabel : n.label = ruleLabel rule named role?) (hrule : rule ∉ shapedRules)
    (after : List Char) : n.ExtraShaped after := by
  constructor
  · intro hkind
    rw [kind, hlabel] at hkind
    obtain ⟨-, rfl⟩ := rule_of_kind_eq_comment hkind
    simp [shapedRules] at hrule
  · intro heq
    rw [Node.rule, hlabel] at heq
    obtain rfl : rule = "text_interpolation" := heq
    simp [shapedRules] at hrule

theorem ExtraShaped.withField {n : Node} {after : List Char} (h : n.ExtraShaped after)
    (f : Option String) : (n.withField f).ExtraShaped after := by
  simpa [ExtraShaped, rule_withField] using h

theorem extraShaped_trivia (t : String) (after : List Char) :
    (Node.trivia t .nowhere).ExtraShaped after := by
  constructor
  · intro hkind
    simp at hkind
  · intro hrule
    simp [Node.rule, Node.label, Node.trivia] at hrule

end Node

namespace Concrete

/-- An extra that was found where it stands has its shape. -/
theorem extra_of_foundBefore {book : RuleBook} {c : Concrete} {after : List Char}
    (h : c.FoundBefore book after) (hextra : c.isExtra = true) :
    ∃ l : Lexeme, l.tree book = c ∧ l.rest = after ∧ l.Extra := by
  obtain ⟨accepts, labels, l, hl, rfl, hrest⟩ := h
  refine ⟨l, rfl, hrest, ?_⟩
  refine (nextLexeme?_isToken_or_extra hl).resolve_left ?_
  rintro ⟨t, ts, text, hfind⟩
  simp [Lexeme.tree, hfind, isExtra] at hextra

theorem commentText_of_foundBefore {book : RuleBook} {gap text : String} {after : List Char}
    (h : (comment gap text).FoundBefore book after) : CommentText text.toList := by
  obtain ⟨l, htree, -, hl⟩ := extra_of_foundBefore h rfl
  cases hl with
  | comment hfind hshape =>
    simp only [Lexeme.tree, hfind, comment.injEq] at htree
    simpa [← htree.2] using hshape
  | island hfind => simp [Lexeme.tree, hfind] at htree

theorem endsMarkup_of_foundBefore {book : RuleBook} {gap : String} {i : Island}
    {after : List Char} (h : (island gap i).FoundBefore book after) :
    EndsMarkup i.source.toList after := by
  obtain ⟨l, htree, rfl, hl⟩ := extra_of_foundBefore h rfl
  cases hl with
  | comment hfind => simp [Lexeme.tree, hfind] at htree
  | island hfind hends =>
    simp only [Lexeme.tree, hfind, island.injEq] at htree
    rwa [← htree.2]

/-- An island ends its markup, and what it is made of is no extra. -/
theorem extraShaped_island {i : Island} {after : List Char} (h : EndsMarkup i.source.toList after) :
    i.node.Along Node.ExtraShaped after := by
  have hshaped : ∀ r ∈ ["php_end_tag", "text", "php_tag"], r ∉ shapedRules := by decide
  apply Island.along_node Node.extraShaped_trivia
  · intro rule hrule t after
    exact Node.extraShaped_of_not_mem rfl (hshaped rule hrule) after
  · constructor
    · intro hkind
      rw [Node.kind, i.label_node] at hkind
      exact absurd (rule_of_kind_eq_comment hkind).2 (by decide)
    · intro _
      rwa [i.text_node]

end Concrete

section Trees

variable {definitions : List Definition} {source : String}

theorem ExtraSurvey.not_mem_of_showsAs (hv : ExtraSurvey definitions source) {c : Concrete}
    {rule : String} (h : c.ShowsAs definitions source rule) : rule ∉ shapedRules := by
  cases h with
  | offered he hw hp hrule => exact hv.offered_ne _ he _ hw _ hp rule (by simp [hrule])
  | token ht hrule => exact hv.terminal_ne _ ht rule (by simp [hrule])
  | phrase he _ hrule => exact hv.phrase_ne _ he rule (by simp [hrule])

theorem ExtraSurvey.carried (hv : ExtraSurvey definitions source) :
    Carried definitions source Node.ExtraShaped where
  withField _ f _ h := h.withField f
  trivia := Node.extraShaped_trivia
  program := Node.extraShaped_of_not_mem rfl (by decide)
  extra c after hextra hread := by
    cases c with
    | token t gap text => simp [Concrete.isExtra] at hextra
    | phrase p parts => simp [Concrete.isExtra] at hextra
    | comment gap text =>
      have hshape := Concrete.commentText_of_foundBefore hread
      refine ⟨⟨fun _ => hshape, fun hrule => ?_⟩, trivial⟩
      simp [Node.rule, Node.label] at hrule
    | island gap i =>
      exact ⟨Concrete.extraShaped_island (Concrete.endsMarkup_of_foundBefore hread), trivial⟩
  own c after role? rule named _ _ _ hshows :=
    Node.extraShaped_of_not_mem (Item.label_build _ _) (hv.not_mem_of_showsAs hshows) after

end Trees

theorem extraSurvey_sourceDefinitions : ExtraSurvey sourceDefinitions "program" where
  offered_ne := by decide +kernel
  terminal_ne := by decide +kernel
  phrase_ne := by decide +kernel

/-- **The comments and islands of a source have their shapes.** -/
theorem extrasShaped_of_sourceTree? {source : String} {root : Node}
    (h : sourceTree? source = some root) : root.Along Node.ExtraShaped [] := by
  obtain ⟨p, hp, rfl⟩ := Option.map_eq_some_iff.1 h
  have hsound := parse?_sound RuleBook.begunRight_sourceRules hp
  refine Parsed.along_root extraSurvey_sourceDefinitions.carried hsound.2
    (parse?_read RuleBook.begunRight_sourceRules hp) ?_
  obtain ⟨items, hroot, -⟩ := p.exists_root_eq sourceRules
  have hlabel : (p.root sourceRules).label = ruleLabel "program" true none := by
    rw [hroot]
    rfl
  exact Node.extraShaped_of_not_mem hlabel (by decide) []

/-- **The comments in the tree of a source are comments.** -/
theorem commentText_of_parseSource {source : String} {root n : Node}
    (h : parseSource source = .ok root) (hn : n ∈ root.descendants) (hkind : n.kind = .comment) :
    CommentText n.text.toList := by
  obtain ⟨-, tree, htree, rfl⟩ := parseSource_eq_ok.1 h
  obtain ⟨m, front, back, -, rfl, hm⟩ :=
    (extrasShaped_of_sourceTree? htree).exists_of_mem_descendants hn
  rw [Node.kind_place] at hkind
  rw [Node.text_place]
  exact (Node.along_iff.1 hm).1.1 hkind

end DocBlocks
