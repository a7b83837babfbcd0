import DocBlocks.Proofs.Controller.Describe
import DocBlocks.Proofs.Syntax.Ancestry

/-!
# Imported names

`extractText_imports`: a description lists the clauses of all imports of a source, each once and in
source order, and tells each as it is written. What is written is the imported name, with the name
it is given, unless the clause stands in a group: then the prefix of the group belongs to the name,
but it is not written in the clause.

The search looks for imports and then for clauses in each of them. No import stands below another
one, so this finds every clause once, together with the import that it stands in
(`filterMap_useClauseAt?`).
-/

namespace DocBlocks

open Node (Occurrence occurrences occurrencesAll descendantsAll)

/-! ### Clauses of imports -/

/-- A clause of an import, with the import that it stands in. -/
structure UseClause where
  declaration : Node
  clause : Node

/-- Whether a node is an import. -/
def isUse (n : Node) : Bool := n.kind == .namespaceUse

/-- Whether a node is a clause of an import. -/
def isClause (n : Node) : Bool := n.rule == "namespace_use_clause"

/-- The clause that a node is, if it is one and stands in an import. -/
def useClauseAt? (x : Occurrence) : Option UseClause :=
  if isClause x.node then (x.above.find? isUse).map (⟨·, x.node⟩) else none

/-- The clauses of all imports of a tree, in source order. -/
def useClauses (root : Node) : List UseClause := (root.occurrences []).filterMap useClauseAt?

namespace UseClause

/-- Whether a clause stands in a group. -/
def isGrouped (u : UseClause) : Bool := (u.declaration.childByField? "body").isSome

/-- What a group puts in front of the names in it. -/
def groupPrefix (u : UseClause) : String :=
  if u.isGrouped then (u.declaration.childOfKind? .name).elim "" Node.text ++ "\\" else ""

/-- The imported name of a clause, with the name it is given if there is one. -/
def fullName (u : UseClause) : String :=
  u.groupPrefix ++ Node.textAll (u.clause.children.dropWhile (·.kind != .name))

/-- Whether a clause is nothing but a name, with the name it is given if there is one, and neither
begins nor ends with a blank. -/
structure IsPlain (u : UseClause) : Prop where
  front : ∃ n ns, u.clause.children = n :: ns ∧ n.kind = .name
  trimmed : trimText u.clause.text = u.clause.text

/-- Whether a text is what a description tells of a clause: what is written there, so all of the
imported name but what a group puts in front of it. -/
structure Told (u : UseClause) (text : String) : Prop where
  eq_trimText : text = trimText u.clause.text
  fullName_eq : u.IsPlain → u.fullName = u.groupPrefix ++ text
  eq_fullName_iff : u.IsPlain → (text = u.fullName ↔ u.isGrouped = false)

theorem fullName_eq_of_isPlain {u : UseClause} (h : u.IsPlain) :
    u.fullName = u.groupPrefix ++ u.clause.text := by
  obtain ⟨n, ns, hchildren, hkind⟩ := h.front
  have hdrop : u.clause.children.dropWhile (·.kind != .name) = u.clause.children := by
    rw [List.dropWhile_eq_self_iff]
    simp [hchildren, hkind]
  rw [fullName, hdrop]
  cases hclause : u.clause with
  | leaf l t => simp [hclause] at hchildren
  | branch l cs => rw [Node.children_branch, Node.text_branch]

theorem groupPrefix_eq_empty {u : UseClause} : u.groupPrefix = "" ↔ u.isGrouped = false := by
  rw [groupPrefix]
  cases u.isGrouped <;> simp

theorem told_trimText (u : UseClause) : u.Told (trimText u.clause.text) where
  eq_trimText := rfl
  fullName_eq h := by rw [h.trimmed, fullName_eq_of_isPlain h]
  eq_fullName_iff h := by
    rw [h.trimmed, fullName_eq_of_isPlain h, ← groupPrefix_eq_empty]
    constructor
    · intro heq
      -- a text is as long as itself behind a prefix only if the prefix is empty
      have hlength := congrArg String.length heq
      rw [String.length_append] at hlength
      exact String.length_eq_zero_iff.1 (by omega)
    · intro hempty
      rw [hempty, String.empty_append]

end UseClause

/-! ### The search -/

/-- Below an import, all clauses stand in it if no import stands there. -/
theorem filterMap_useClauseAt?_of_find? {d : Node} {above cs : List Node}
    (habove : above.find? isUse = some d) (hcs : ∀ e ∈ descendantsAll cs, isUse e = false) :
    (occurrencesAll above cs).filterMap useClauseAt? =
      ((descendantsAll cs).filter isClause).map (⟨d, ·⟩) := by
  have hfound : ∀ x ∈ occurrencesAll above cs,
      useClauseAt? x = if isClause x.node then some ⟨d, x.node⟩ else none := by
    intro x hx
    obtain ⟨c, hc, hx⟩ := Node.mem_occurrencesAll.1 hx
    obtain ⟨within, hwithin, hmem⟩ := Node.exists_above_eq hx
    have hnone : within.find? isUse = none := by
      rw [List.find?_eq_none]
      intro a ha
      simp [hcs a (Node.mem_descendantsAll.2 ⟨c, hc, (hmem a ha).1⟩)]
    rw [useClauseAt?, hwithin, List.find?_append, hnone, Option.none_or, habove, Option.map_some]
  rw [List.filterMap_congr hfound, ← List.filterMap_eq_map, List.filterMap_filter,
    ← Node.map_node_occurrencesAll above cs, List.filterMap_map]
  rfl

/-- Whether no import of a tree is a clause or stands above another one. -/
def UsesApart (n : Node) : Prop :=
  ∀ d ∈ n.descendants, isUse d = true →
    isClause d = false ∧ ∀ e ∈ descendantsAll d.children, isUse e = false

theorem UsesApart.of_mem_children {l : Label} {cs : List Node} (h : UsesApart (.branch l cs))
    {c : Node} (hc : c ∈ cs) : UsesApart c :=
  fun d hd => h d (Node.mem_descendants_branch.2 (.inr ⟨c, hc, hd⟩))

theorem filterMap_useClauseAt?_all {above cs : List Node}
    (h : ∀ c ∈ cs, (c.occurrences above).filterMap useClauseAt? =
      (c.descendants.filter isUse).flatMap fun d =>
        (d.descendants.filter isClause).map (⟨d, ·⟩)) :
    (occurrencesAll above cs).filterMap useClauseAt? =
      ((descendantsAll cs).filter isUse).flatMap fun d =>
        (d.descendants.filter isClause).map (⟨d, ·⟩) := by
  induction cs with
  | nil => rfl
  | cons c cs ih =>
    rw [occurrencesAll, descendantsAll, List.filterMap_append, List.filter_append,
      List.flatMap_append, h c List.mem_cons_self, ih fun d hd => h d (List.mem_cons_of_mem _ hd)]

/-- **The clauses of a tree are those found import by import.** -/
theorem filterMap_useClauseAt? {above : List Node} {n : Node} (habove : above.find? isUse = none)
    (h : UsesApart n) : (n.occurrences above).filterMap useClauseAt? =
      (n.descendants.filter isUse).flatMap fun d =>
        (d.descendants.filter isClause).map (⟨d, ·⟩) := by
  have hroot : useClauseAt? ⟨above, n⟩ = none := by simp [useClauseAt?, habove]
  induction n using Node.treeInduction generalizing above with
  | leaf l t =>
    rw [occurrences, List.filterMap_cons_none hroot, List.filterMap_nil, Node.descendants_leaf]
    cases huse : isUse (.leaf l t) with
    | false => rw [List.filter_cons_of_neg (by simp [huse]), List.filter_nil, List.flatMap_nil]
    | true =>
      have hclause := (h _ (Node.self_mem_descendants _) huse).1
      simp [huse, hclause]
  | branch l cs ih =>
    rw [occurrences, List.filterMap_cons_none hroot, Node.descendants_branch]
    cases huse : isUse (.branch l cs) with
    | false =>
      have habove' : (Node.branch l cs :: above).find? isUse = none := by
        rw [List.find?_cons_of_neg (by simp [huse]), habove]
      rw [List.filter_cons_of_neg (by simp [huse])]
      exact filterMap_useClauseAt?_all fun c hc =>
        ih c hc habove' (h.of_mem_children hc) (by simp [useClauseAt?, habove'])
    | true =>
      -- this is the only import here, and it is no clause itself
      obtain ⟨hclause, hbelow⟩ := h _ (Node.self_mem_descendants _) huse
      rw [Node.children_branch] at hbelow
      have habove' : (Node.branch l cs :: above).find? isUse = some (.branch l cs) :=
        List.find?_cons_of_pos huse
      have hnone : (descendantsAll cs).filter isUse = [] := by
        rw [List.filter_eq_nil_iff]
        intro e he
        simp [hbelow e he]
      rw [filterMap_useClauseAt?_of_find? habove' hbelow, List.filter_cons_of_pos huse, hnone,
        List.flatMap_singleton, Node.descendants_branch, List.filter_cons_of_neg (by simp [hclause])]

/-! ### The trees of sources -/

theorem Node.Orderly.usesApart {root : Node} (h : root.Orderly) : UsesApart root := by
  intro d hd huse
  have hkind : d.kind = .namespaceUse := by simpa [isUse] using huse
  refine ⟨?_, fun e he => ?_⟩
  · rw [isClause, h.rule_eq d hd hkind]
    decide
  · simpa [isUse] using h.kind_ne d hd hkind e he

theorem UsesApart.useClauses_eq {root : Node} (h : UsesApart root) :
    useClauses root = (root.descendants.filter isUse).flatMap fun d =>
      (d.descendants.filter isClause).map (⟨d, ·⟩) :=
  filterMap_useClauseAt? rfl h

theorem UsesApart.mem_useClauses {root : Node} (h : UsesApart root) {u : UseClause} :
    u ∈ useClauses root ↔ u.declaration ∈ root.descendants ∧ isUse u.declaration = true ∧
      u.clause ∈ u.declaration.descendants ∧ isClause u.clause = true := by
  rw [h.useClauses_eq]
  simp only [List.mem_flatMap, List.mem_map, List.mem_filter]
  constructor
  · rintro ⟨d, ⟨hd, huse⟩, c, ⟨hc, hclause⟩, rfl⟩
    exact ⟨hd, huse, hc, hclause⟩
  · rintro ⟨hd, huse, hc, hclause⟩
    exact ⟨u.declaration, ⟨hd, huse⟩, u.clause, ⟨hc, hclause⟩, rfl⟩

theorem UsesApart.importsOf_eq {root : Node} (h : UsesApart root) :
    importsOf root = (useClauses root).map fun u => trimText u.clause.text := by
  rw [h.useClauses_eq, List.map_flatMap]
  simp only [List.map_map]
  rfl

/-- The clauses of a placed tree stand one behind the other. -/
theorem Node.Orderly.pairwise_useClauses {root : Node} (h : root.Orderly)
    (hplaced : root.WellPlaced) :
    (useClauses root).Pairwise fun u v => u.clause.span.stop ≤ v.clause.span.start := by
  rw [useClauses, List.pairwise_filterMap]
  refine hplaced.pairwise_occurrences.imp_of_mem ?_
  intro x y hx hy hxy u hu v hv
  -- no clause stands above another one
  have hclause : ∀ z w, useClauseAt? z = some w → z.node.rule = "namespace_use_clause" ∧
      w.clause = z.node := by
    intro z w hw
    rw [useClauseAt?, Option.ite_none_right_eq_some, Option.map_eq_some_iff] at hw
    obtain ⟨hz, d, -, rfl⟩ := hw
    exact ⟨by simpa [isClause] using hz, rfl⟩
  obtain ⟨hxrule, hxnode⟩ := hclause x u hu
  obtain ⟨hyrule, hynode⟩ := hclause y v hv
  rw [hxnode, hynode]
  refine hxy.resolve_left fun habove => ?_
  exact h.rule_ne x.node (Node.node_mem_descendants hx) hxrule y.node
    (Node.mem_descendants_of_mem_above hy habove).2 hyrule

/-- Whether a description tells the imports of a tree as they are written: the clauses of all
imports, each once and in source order. -/
structure TellsImports (root : Node) (c : ClassDescriptor) : Prop where
  mem_iff : ∀ u, u ∈ useClauses root ↔
    u.declaration ∈ root.descendants ∧ isUse u.declaration = true ∧
      u.clause ∈ u.declaration.descendants ∧ isClause u.clause = true
  inOrder : (useClauses root).Pairwise fun u v => u.clause.span.stop ≤ v.clause.span.start
  told : List.Forall₂ UseClause.Told (useClauses root) c.imports

theorem GrammarReader.tellsImports {g : GrammarReader} {source : String} {root : Node}
    {c : ClassDescriptor} (hroot : parseWith g.read source = .ok root)
    (h : describeClass root source = .ok c) : TellsImports root c := by
  have horderly := (grammatical_of_parseWith hroot).orderly
  have hplaced := (SourceReader.lossless_of_parseWith hroot).wellPlaced
  have hapart := horderly.usesApart
  refine ⟨fun u => hapart.mem_useClauses, horderly.pairwise_useClauses hplaced, ?_⟩
  obtain ⟨decl, name, -, -, rfl⟩ := describeClass_eq_ok.1 h
  rw [hapart.importsOf_eq, List.forall₂_map_right_iff, List.forall₂_same]
  exact fun u _ => u.told_trimText

/-- **Imports are told as they are written.** The list has the clauses of all imports, each once and
in source order. What it tells of a clause without a keyword in front is the full imported name if
the clause stands in no group, and all of that name but the prefix of the group if it stands in one.
-/
theorem extractText_imports (source : String) :
    (∀ (g : GrammarReader) (root : Node), parseWith g.read source = .ok root →
      root.findFirst? .classDeclaration = none ∨
        ∃ c, extractTextWith g.read source = .ok c ∧ TellsImports root c) ∧
      ((∃ e, parseSource source = .error e) ∨
        ∃ root, parseSource source = .ok root ∧
          (root.findFirst? .classDeclaration = none ∨
            ∃ c, extractText source = .ok c ∧ TellsImports root c)) := by
  have hall : ∀ (g : GrammarReader) (root : Node), parseWith g.read source = .ok root →
      root.findFirst? .classDeclaration = none ∨
        ∃ c, extractTextWith g.read source = .ok c ∧ TellsImports root c := by
    intro g root hroot
    refine (GrammarReader.extractTextWith_cases hroot).imp_right fun ⟨c, hc, hclass⟩ => ?_
    exact ⟨c, hc, g.tellsImports hroot hclass⟩
  exact ⟨hall, error_or_exists (hall grammarReader)⟩

/-- The import of a program is told. -/
theorem extractText_imports_sample :
    ∃ c, extractTextWith sampleGrammarReader.read (sampleProgram "") = .ok c ∧
      TellsImports sampleProgramTree c ∧ c.imports = ["U\\V"] := by
  obtain ⟨c', hc', -, himports, -⟩ := exists_extractTextWith_sampleProgram
  have hclass : sampleProgramTree.findFirst? .classDeclaration ≠ none := by
    rw [← Option.isSome_iff_ne_none]
    decide +kernel
  obtain ⟨c, hc, htells⟩ :=
    ((extractText_imports _).1 sampleGrammarReader _ parseWith_sampleProgram).resolve_left hclass
  obtain rfl : c = c' := Except.ok.inj (hc.symm.trans hc')
  exact ⟨c, hc, htells, himports⟩

end DocBlocks
