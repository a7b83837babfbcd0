import DocBlocks.Proofs.Controller.Describe
import DocBlocks.Proofs.Syntax.Ancestry

/-!
# The namespace of a class

A class belongs to the namespace in whose braces it stands, or else to the last one that was opened
without braces before it (`governing?`). A description names the first namespace of the source.
`extractText_space` says when this comes to the same: exactly if the first one is called like the
one that governs the class, and so whenever it is the one, or the source has none.
-/

namespace DocBlocks

open Node (Occurrence)

/-! ### The namespace that governs a class -/

/-- The class that a tree is described by, with the nodes above it. -/
def describedClass? (root : Node) : Option Occurrence :=
  (root.occurrences []).find? (·.node.kind == .classDeclaration)

/-- Whether a node defines a namespace whose body stands in braces. -/
def isBraced (n : Node) : Bool :=
  n.kind == .namespaceDefinition && (n.childByField? "body").isSome

/-- Whether a node opens a namespace for all that follows. -/
def isUnbraced (n : Node) : Bool :=
  n.kind == .namespaceDefinition && (n.childByField? "body").isNone

/-- The children of a root in front of the one that the described class stands in. -/
def beforeClass (root : Node) : List Node :=
  root.children.takeWhile fun c => (c.findFirst? .classDeclaration).isNone

/-- The definition of the namespace that the described class belongs to: the innermost one in whose
braces it stands, or else the last one without braces before it. -/
def governing? (root : Node) : Option Node :=
  (describedClass? root).bind fun x =>
    (x.above.find? isBraced).or ((beforeClass root).filter isUnbraced).getLast?

/-- The name of a namespace, given its definition. The global one has none. -/
def spaceOf? (definition? : Option Node) : Option String :=
  (definition?.bind (·.childByField? "name")).map Node.text

/-- The name of a class in a namespace. -/
def qualify (space? : Option String) (name : String) : String :=
  match space? with
  | some space => space ++ "\\" ++ name
  | none => name

/-- The class is the one that stands first. -/
theorem map_node_describedClass? (root : Node) :
    (describedClass? root).map (·.node) = root.findFirst? .classDeclaration := by
  rw [describedClass?, Node.findFirst?, ← Node.map_node_occurrences [] root, List.find?_map]
  rfl

/-- **What governs the class is a namespace definition of the tree.** -/
theorem mem_descendants_of_governing? {root n : Node} (h : governing? root = some n) :
    n ∈ root.descendants ∧ n.kind = .namespaceDefinition := by
  obtain ⟨x, hx, h⟩ := Option.bind_eq_some_iff.1 h
  have hmem : x ∈ root.occurrences [] := List.mem_of_find?_eq_some hx
  rcases Option.or_eq_some_iff.1 h with h | ⟨-, h⟩
  · -- around the class
    have hbraced := List.find?_some h
    rw [isBraced, Bool.and_eq_true, beq_iff_eq] at hbraced
    exact ⟨(Node.mem_descendants_of_mem_above hmem (List.mem_of_find?_eq_some h)).1, hbraced.1⟩
  · -- before it
    obtain ⟨hbefore, hunbraced⟩ := List.mem_filter.1 (List.mem_of_getLast? h)
    rw [isUnbraced, Bool.and_eq_true, beq_iff_eq] at hunbraced
    have hchild : n ∈ root.children := (List.takeWhile_sublist _).subset hbefore
    exact ⟨Node.mem_descendants_of_mem_children hchild, hunbraced.1⟩

/-- Whether a namespace definition is the only one of a tree, and the described class stands in its
braces or behind its opening. -/
structure IsSoleSpace (root : Node) (x : Occurrence) (n : Node) : Prop where
  sole : ∀ m ∈ root.descendants, m.kind = .namespaceDefinition → m = n
  covers : (isBraced n = true ∧ n ∈ x.above) ∨ (isUnbraced n = true ∧ n ∈ beforeClass root)

/-- **A sole namespace that the class stands in governs it.** -/
theorem IsSoleSpace.governing?_eq_some {root n : Node} {x : Occurrence} (h : IsSoleSpace root x n)
    (hx : describedClass? root = some x) : governing? root = some n := by
  rw [governing?, hx, Option.bind_some, Option.or_eq_some_iff]
  -- whatever is found around the class is the sole definition
  have haround : ∀ m, x.above.find? isBraced = some m → m = n := by
    intro m hm
    have hbraced := List.find?_some hm
    rw [isBraced, Bool.and_eq_true, beq_iff_eq] at hbraced
    have hmem : x ∈ root.occurrences [] := List.mem_of_find?_eq_some hx
    obtain ⟨hbelow, -⟩ := Node.mem_descendants_of_mem_above hmem (List.mem_of_find?_eq_some hm)
    exact h.sole m hbelow hbraced.1
  rcases h.covers with ⟨hbraced, habove⟩ | ⟨hunbraced, hbefore⟩
  · left
    obtain ⟨m, hm⟩ : ∃ m, x.above.find? isBraced = some m := by
      rw [← Option.isSome_iff_exists, List.find?_isSome]
      exact ⟨n, habove, hbraced⟩
    rw [hm, haround m hm]
  · right
    constructor
    · rw [Option.eq_none_iff_forall_ne_some]
      intro m hm
      have hbraced := List.find?_some hm
      rw [haround m hm] at hbraced
      simp only [isBraced, isUnbraced, Bool.and_eq_true, Option.isNone_iff_eq_none]
        at hbraced hunbraced
      simp [hunbraced.2] at hbraced
    · have hmem : n ∈ (beforeClass root).filter isUnbraced := List.mem_filter.2 ⟨hbefore, hunbraced⟩
      obtain ⟨m, hm⟩ := Option.ne_none_iff_exists'.1
        (mt List.getLast?_eq_none_iff.1 (List.ne_nil_of_mem hmem))
      obtain ⟨hbefore', hunbraced'⟩ := List.mem_filter.1 (List.mem_of_getLast? hm)
      rw [isUnbraced, Bool.and_eq_true, beq_iff_eq] at hunbraced'
      have hchild : m ∈ root.children := (List.takeWhile_sublist _).subset hbefore'
      rw [hm, h.sole m (Node.mem_descendants_of_mem_children hchild) hunbraced'.1]

/-- If the first namespace definition governs the class, it is the only candidate. -/
theorem findFirst?_eq_governing? {root : Node}
    (h : ∀ n, root.findFirst? .namespaceDefinition = some n → governing? root = some n) :
    root.findFirst? .namespaceDefinition = governing? root := by
  cases hfirst : root.findFirst? .namespaceDefinition with
  | some n => exact (h n hfirst).symm
  | none =>
    -- without any definition none can govern
    symm
    rw [Option.eq_none_iff_forall_ne_some]
    intro n hn
    obtain ⟨hmem, hkind⟩ := mem_descendants_of_governing? hn
    have hnone := List.find?_eq_none.1 hfirst n hmem
    simp [hkind] at hnone

/-! ### The namespace that is reported -/

theorem qualifiedName_eq (c : ClassDescriptor) : c.qualifiedName = qualify c.space c.className := by
  cases c with
  | mk className space parent imports methods path => cases space <;> rfl

theorem spaceOf?_eq_none {definition? : Option Node} :
    spaceOf? definition? = none ↔
      definition? = none ∨ ∃ n, definition? = some n ∧ n.childByField? "name" = none := by
  cases definition? <;> simp [spaceOf?]

/-- Whether a namespace definition starts before all others of a source, or there is none. -/
def IsFirstSpace (root : Node) : Option Node → Prop
  | none => ∀ d ∈ root.descendants, d.kind ≠ .namespaceDefinition
  | some d => d ∈ root.descendants ∧ d.kind = .namespaceDefinition ∧
      ∀ e ∈ root.descendants, e.kind = .namespaceDefinition → d.span.start ≤ e.span.start

/-- What a description tells of the namespace of a class. -/
structure TellsSpace (root : Node) (c : ClassDescriptor) (x : Occurrence) (name : Node) : Prop where
  class_eq : describedClass? root = some x
  name_eq : x.node.childByField? "name" = some name
  className_eq : c.className = name.text
  /-- What is told is the name of the definition that starts first, so it is the class's own exactly
  if the one that governs the class is called like that one. -/
  first : IsFirstSpace root (root.findFirst? .namespaceDefinition) ∧
    c.space = spaceOf? (root.findFirst? .namespaceDefinition)
  /-- If no definition starts before the one that governs the class, the class's own is told. -/
  own : (∀ n, root.findFirst? .namespaceDefinition = some n → governing? root = some n) →
    c.space = spaceOf? (governing? root) ∧
    c.qualifiedName = qualify (spaceOf? (governing? root)) name.text ∧
    (c.space = none ↔ governing? root = none ∨
      ∃ n, governing? root = some n ∧ n.childByField? "name" = none)
  /-- So it is if there is only one definition and the class stands in it. -/
  sole : ∀ n, IsSoleSpace root x n → c.space = (n.childByField? "name").map Node.text

/-- The first definition that a search meets starts before all others. -/
theorem isFirstSpace_findFirst? {root : Node} (h : root.WellPlaced) :
    IsFirstSpace root (root.findFirst? .namespaceDefinition) := by
  cases hfirst : root.findFirst? .namespaceDefinition with
  | none =>
    intro d hd hkind
    have hnone := List.find?_eq_none.1 hfirst d hd
    simp [hkind] at hnone
  | some d =>
    refine ⟨List.mem_of_find?_eq_some hfirst, by simpa using List.find?_some hfirst, ?_⟩
    exact fun e he hkind => h.start_le_of_findFirst? hfirst he hkind

theorem exists_tellsSpace {root : Node} {source : String} {c : ClassDescriptor}
    (hplaced : root.WellPlaced) (h : describeClass root source = .ok c) :
    ∃ x name, TellsSpace root c x name := by
  obtain ⟨decl, name, hdecl, hname, rfl⟩ := describeClass_eq_ok.1 h
  obtain ⟨x, hx, rfl⟩ : ∃ x, describedClass? root = some x ∧ x.node = decl := by
    rwa [← map_node_describedClass?, Option.map_eq_some_iff] at hdecl
  have hspace : (∀ n, root.findFirst? .namespaceDefinition = some n → governing? root = some n) →
      spaceOf? (root.findFirst? .namespaceDefinition) = spaceOf? (governing? root) :=
    fun hfirst => congrArg spaceOf? (findFirst?_eq_governing? hfirst)
  refine ⟨x, name, hx, hname, rfl, ⟨isFirstSpace_findFirst? hplaced, rfl⟩,
    fun hfirst => ⟨hspace hfirst, ?_, ?_⟩, fun n hn => ?_⟩
  · rw [qualifiedName_eq]
    exact congrArg (qualify · name.text) (hspace hfirst)
  · rw [← spaceOf?_eq_none, ← hspace hfirst]
    rfl
  · -- the sole definition is the first one, and it governs the class
    have hgoverning := hn.governing?_eq_some hx
    have hfirst : ∀ m, root.findFirst? .namespaceDefinition = some m →
        governing? root = some m := by
      intro m hm
      have hkind : m.kind = .namespaceDefinition := by simpa using List.find?_some hm
      rw [hn.sole m (List.mem_of_find?_eq_some hm) hkind, hgoverning]
    exact (hspace hfirst).trans (by rw [hgoverning]; rfl)

/-- **The reported namespace is the class's own exactly if the first namespace of the source is
called like it.** In particular it is if the first namespace is the one that the class belongs to,
or there is none, and so if there is only one that the class stands in. -/
theorem extractText_space (source : String) :
    (∀ (g : GrammarReader) (root : Node), parseWith g.read source = .ok root →
      root.findFirst? .classDeclaration = none ∨
        ∃ x name c, extractTextWith g.read source = .ok c ∧ TellsSpace root c x name) ∧
      ((∃ e, parseSource source = .error e) ∨
        ∃ root, parseSource source = .ok root ∧
          (root.findFirst? .classDeclaration = none ∨
            ∃ x name c, extractText source = .ok c ∧ TellsSpace root c x name)) := by
  have hall : ∀ (g : GrammarReader) (root : Node), parseWith g.read source = .ok root →
      root.findFirst? .classDeclaration = none ∨
        ∃ x name c, extractTextWith g.read source = .ok c ∧ TellsSpace root c x name := by
    intro g root hroot
    refine (GrammarReader.extractTextWith_cases hroot).imp_right fun ⟨c, hc, hclass⟩ => ?_
    obtain ⟨x, name, htells⟩ :=
      exists_tellsSpace (SourceReader.lossless_of_parseWith hroot).wellPlaced hclass
    exact ⟨x, name, c, hc, htells⟩
  exact ⟨hall, error_or_exists (hall grammarReader)⟩

/-- The namespace of a program with one namespace is told. -/
theorem extractText_space_sample :
    ∃ x name c, extractTextWith sampleGrammarReader.read (sampleProgram "") = .ok c ∧
      TellsSpace sampleProgramTree c x name ∧ c.space = some "N" ∧
        spaceOf? (governing? sampleProgramTree) = some "N" := by
  obtain ⟨c', hc', hspace, -⟩ := exists_extractTextWith_sampleProgram
  have hclass : sampleProgramTree.findFirst? .classDeclaration ≠ none := by
    rw [← Option.isSome_iff_ne_none]
    decide +kernel
  obtain ⟨x, name, c, hc, htells⟩ :=
    ((extractText_space _).1 sampleGrammarReader _ parseWith_sampleProgram).resolve_left hclass
  obtain rfl : c = c' := Except.ok.inj (hc.symm.trans hc')
  exact ⟨x, name, c, hc, htells, hspace, by decide +kernel⟩

end DocBlocks
