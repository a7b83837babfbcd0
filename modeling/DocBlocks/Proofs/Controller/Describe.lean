import DocBlocks.Project.Source
import DocBlocks.Proofs.Syntax.GrammarReader

/-!
# Which sources have a description

`GrammarReader.extractTextWith_cases`: a source has a description if it can be read and there is a
class in it. A class of a source always has a name, so nothing else can go wrong.
-/

namespace DocBlocks

/-- What a description says. -/
theorem describeClass_eq_ok {root : Node} {source : String} {c : ClassDescriptor} :
    describeClass root source = .ok c ↔
      ∃ decl name, root.findFirst? .classDeclaration = some decl ∧
        decl.childByField? "name" = some name ∧ c =
          { className := name.text
            space := ((root.findFirst? .namespaceDefinition).bind (·.childByField? "name")).map
              Node.text
            parent := ((decl.childOfKind? .baseClause).bind (·.childOfKind? .name)).map Node.text
            imports := importsOf root
            methods := (decl.childByField? "body").elim [] fun b =>
              describeMethods source [] b.children
            path := none } := by
  constructor
  · intro h
    unfold describeClass at h
    split at h
    · simp at h
    rename_i decl hdecl
    split at h
    · simp at h
    rename_i name hname
    exact ⟨decl, name, hdecl, hname, (Except.ok.inj h).symm⟩
  · rintro ⟨decl, name, hdecl, hname, rfl⟩
    simp only [describeClass, hdecl, hname]

theorem extractTextWith_eq_ok {read : String → Option RangedTree} {source : String}
    {c : ClassDescriptor} :
    extractTextWith read source = .ok c ↔
      ∃ root, parseWith read source = .ok root ∧ describeClass root source = .ok c := by
  cases hparse : parseWith read source with
  | error e => simp [extractTextWith, parseTextWith, hparse]
  | ok root => cases hclass : describeClass root source <;>
      simp [extractTextWith, parseTextWith, hparse, extractTree, hclass]

/-- **A source that can be read has a description if there is a class in it.** -/
theorem GrammarReader.extractTextWith_cases {g : GrammarReader} {source : String} {root : Node}
    (h : parseWith g.read source = .ok root) :
    root.findFirst? .classDeclaration = none ∨
      ∃ c, extractTextWith g.read source = .ok c ∧ describeClass root source = .ok c := by
  cases hdecl : root.findFirst? .classDeclaration with
  | none => exact .inl rfl
  | some decl =>
    have hmem : decl ∈ root.descendants := List.mem_of_find?_eq_some hdecl
    have hkind : decl.kind = .classDeclaration := by simpa using List.find?_some hdecl
    obtain ⟨name, hname⟩ := (grammatical_of_parseWith h).orderly.named decl hmem hkind
    have hc : describeClass root source = .ok _ :=
      describeClass_eq_ok.2 ⟨decl, name, hdecl, hname, rfl⟩
    exact .inr ⟨_, extractTextWith_eq_ok.2 ⟨root, h, hc⟩, hc⟩

/-- The program with a query has a description. -/
theorem exists_extractTextWith_sampleProgram :
    ∃ c, extractTextWith sampleGrammarReader.read (sampleProgram "") = .ok c ∧
      c.space = some "N" ∧ c.imports = ["U\\V"] ∧ c.methods.map (·.name) = ["f"] := by
  have hfields : (extractTextWith sampleGrammarReader.read (sampleProgram "")).toOption.map
      (fun c => (c.space, c.imports, c.methods.map (·.name))) =
        some (some "N", ["U\\V"], ["f"]) := by
    decide +kernel
  cases hextract : extractTextWith sampleGrammarReader.read (sampleProgram "") with
  | error e => simp [hextract, Except.toOption] at hfields
  | ok c =>
    refine ⟨c, rfl, ?_⟩
    simpa [hextract, Except.toOption] using hfields

end DocBlocks
