import DocBlocks.Proofs.Controller.Imports
import DocBlocks.Proofs.Syntax.Preorder

/-!
# The order of a source

`walks_in_sourceOrder`: a walk over any tree is in pre-order, and over the tree of a source this is
the order of the source: no node starts before one that is visited earlier. So the first node of a
category that a search meets is one that no other node of the category starts before, and imported
names are told in the order that they are written in.
-/

namespace DocBlocks

/-- Whether what is searched for in a tree comes in the order of its source. -/
structure SearchedInOrder (root : Node) : Prop where
  starts : root.descendants.Pairwise fun a b => a.span.start ≤ b.span.start
  found_iff : ∀ kind, (root.findFirst? kind).isSome = true ↔ ∃ d ∈ root.descendants, d.kind = kind
  found_first : ∀ kind, ∀ d ∈ root.findFirst? kind, d ∈ root.descendants ∧ d.kind = kind ∧
    ∀ e ∈ root.descendants, e.kind = kind → d.span.start ≤ e.span.start
  imports : ∃ clauses : List Node, importsOf root = clauses.map (trimText ·.text) ∧
    (∀ c ∈ clauses, c ∈ root.descendants) ∧
      clauses.Pairwise fun a b => a.span.start ≤ b.span.start

namespace Node

variable {root : Node}

theorem isSome_findFirst?_iff {kind : Kind} :
    (root.findFirst? kind).isSome = true ↔ ∃ d ∈ root.descendants, d.kind = kind := by
  rw [findFirst?, List.find?_isSome]
  simp only [beq_iff_eq]

/-- The clauses of the imports of a tree start one behind the other. -/
theorem Orderly.exists_clauses (h : root.Orderly) (hplaced : root.WellPlaced) :
    ∃ clauses : List Node, importsOf root = clauses.map (trimText ·.text) ∧
      (∀ c ∈ clauses, c ∈ root.descendants) ∧
        clauses.Pairwise fun a b => a.span.start ≤ b.span.start := by
  have hmem : ∀ u ∈ useClauses root, u.clause ∈ root.descendants := by
    intro u hu
    obtain ⟨hdeclaration, -, hclause, -⟩ := h.usesApart.mem_useClauses.1 hu
    exact mem_descendants_trans hclause hdeclaration
  refine ⟨(useClauses root).map (·.clause), ?_, ?_, ?_⟩
  · rw [h.usesApart.importsOf_eq, List.map_map]
    rfl
  · simpa using hmem
  · rw [List.pairwise_map]
    refine (h.pairwise_useClauses hplaced).imp_of_mem fun {u v} hu _ huv => ?_
    have hle := (hplaced.of_mem_descendants (hmem u hu)).start_le_stop
    exact hle.trans huv

end Node

theorem GrammarReader.searchedInOrder {g : GrammarReader} {source : String} {root : Node}
    (h : parseWith g.read source = .ok root) : SearchedInOrder root := by
  have hplaced := (SourceReader.lossless_of_parseWith h).wellPlaced
  exact
    { starts := hplaced.pairwise_start_descendants
      found_iff := fun kind => Node.isSome_findFirst?_iff
      found_first := fun kind d hd =>
        ⟨List.mem_of_find?_eq_some hd, by simpa using List.find?_some hd,
          fun e he hkind => hplaced.start_le_of_findFirst? hd he hkind⟩
      imports := (grammatical_of_parseWith h).orderly.exists_clauses hplaced }

/-- **A walk is in pre-order, and this is the order of a source.** A walk from any node visits the
nodes at all paths, each once and in the order of the paths, and the leaves among them make up the
text. In the tree of a source the nodes start in the order that they are visited in, so a search
finds a node of a category that there is in the tree, and the first one in the source. -/
theorem walks_in_sourceOrder :
    (∀ n : Node, n.InPreorder n.descendants ∧
      n.descendants = n :: n.children.flatMap Node.descendants ∧
        String.join (n.descendants.filterMap Node.leafText?) = n.text) ∧
      (∀ (g : GrammarReader) (source : String) (root : Node), parseWith g.read source = .ok root →
        SearchedInOrder root) ∧
      ∀ source : String, (∃ e, parseSource source = .error e) ∨
        ∃ root, parseSource source = .ok root ∧ SearchedInOrder root := by
  refine ⟨fun n => ⟨n.inPreorder_descendants, ?_, n.join_leafTexts⟩,
    fun g source root h => GrammarReader.searchedInOrder h,
    fun source => error_or_exists fun root h => ?_⟩
  · rw [Node.descendants_eq, Node.descendantsAll_eq_flatMap]
  · exact GrammarReader.searchedInOrder (g := grammarReader) h

/-- A program is searched in its order. -/
theorem walks_in_sourceOrder_sample :
    parseWith sampleGrammarReader.read (sampleProgram "") = .ok sampleProgramTree ∧
      SearchedInOrder sampleProgramTree :=
  ⟨parseWith_sampleProgram,
    walks_in_sourceOrder.2.1 sampleGrammarReader _ _ parseWith_sampleProgram⟩

end DocBlocks
