import DocBlocks.Proofs.Syntax.Ancestry
import DocBlocks.Proofs.Syntax.Extras
import DocBlocks.Proofs.Syntax.Housing
import DocBlocks.Proofs.Syntax.Members
import DocBlocks.Proofs.Syntax.Orderly
import DocBlocks.Proofs.Syntax.SourceReader

/-!
# Readings by a grammar

A `GrammarReader` is a way of reading sources whose trees are as the rules of the language make
them: members end as members do, comments are comments, methods are housed with members behind a
brace (`Node.Surveyed`), and classes, calls and imports are in order (`Node.Orderly`).
`grammarReader` is the one of this library, and `sampleGrammarReader` knows two small programs.

Its trees are placed: `Node.Lossless.placeIn_eq` says that placing a lossless tree once more changes
nothing.
-/

namespace DocBlocks

namespace Node

variable {P : Node → List Char → Prop} {after : List Char} {source : String}

/-! ### Lossless trees are placed -/

theorem placeAll_eq_of_tile {index : LineIndex} {start stop : Nat} {cs : List Node}
    (h : Tile start stop cs) (hcs : ∀ c ∈ cs, c.WellPlaced)
    (hplace : ∀ c ∈ cs, c.place index c.span.start = c) : placeAll index start cs = cs := by
  induction cs generalizing start with
  | nil => rfl
  | cons c cs ih =>
    obtain ⟨rfl, htail⟩ := h
    rw [(hcs c List.mem_cons_self).stop_eq, ← utf8ByteSize_eq_byteLength] at htail
    rw [placeAll, hplace c List.mem_cons_self,
      ih htail (fun d hd => hcs d (List.mem_cons_of_mem _ hd))
        fun d hd => hplace d (List.mem_cons_of_mem _ hd)]

theorem StandsIn.span_eq {n : Node} (h : n.StandsIn source) :
    (LineIndex.ofText source).span n.span.start (n.span.start + n.text.utf8ByteSize) = n.span := by
  obtain ⟨before, after, hsource, hspan⟩ := h
  have hlength : byteLength before + n.text.utf8ByteSize =
      byteLength (before ++ n.text.toList) := by
    rw [byteLength_append, utf8ByteSize_eq_byteLength]
  rw [hspan, hlength, LineIndex.span_ofText hsource]

/-- A node that stands where its span says is placed there. -/
theorem place_eq_of_standsIn {n : Node} (h : ∀ d ∈ n.descendants, d.StandsIn source)
    (hplaced : n.WellPlaced) : n.place (.ofText source) n.span.start = n := by
  induction n using treeInduction with
  | leaf l t =>
    have hspan := (h _ (self_mem_descendants _)).span_eq
    rw [text_leaf] at hspan
    rw [place, hspan]
    rfl
  | branch l cs ih =>
    have hspan := (h _ (self_mem_descendants _)).span_eq
    rw [text_branch] at hspan
    have hcs : placeAll (.ofText source) l.span.start cs = cs :=
      placeAll_eq_of_tile hplaced.tile (fun c hc => hplaced.of_mem_children hc) fun c hc =>
        ih c hc (fun d hd => h d (mem_descendants_branch.2 (.inr ⟨c, hc, hd⟩)))
          (hplaced.of_mem_children hc)
    rw [place, hspan, span_branch, hcs]

/-- **A lossless tree is placed.** -/
theorem Lossless.placeIn_eq {root : Node} (h : root.Lossless source) :
    root.placeIn source = root := by
  have hplace := place_eq_of_standsIn h.standsIn h.wellPlaced
  rwa [h.start_eq] at hplace

/-! ### What is known of nodes and the text behind them -/

/-- What is known of a node in the tree of a source and of the text behind it. -/
structure Surveyed (n : Node) (after : List Char) : Prop where
  memberEnds : n.MemberEnds after
  extraShaped : n.ExtraShaped after
  housed : n.Housed
  gapsClosed : GapsClosed n.children

/-- What holds of nodes wherever they are placed holds along a placed tree. -/
theorem Along.place {n : Node} (h : n.Along P after)
    (hplace : ∀ n after index offset, P n after → P (n.place index offset) after)
    (index : LineIndex) (offset : Nat) : (n.place index offset).Along P after := by
  induction n using treeInduction generalizing offset after with
  | leaf l t => exact hplace _ _ index offset h
  | branch l cs ih =>
    refine ⟨hplace _ _ index offset h.1, ?_⟩
    replace h := h.2
    generalize offset = offset'
    induction cs generalizing offset' with
    | nil => trivial
    | cons c cs ihcs =>
      rw [placeAll, AlongAll, textAll_placeAll]
      refine ⟨ih c List.mem_cons_self h.1 _, ?_⟩
      exact ihcs (fun d hd => ih d (List.mem_cons_of_mem _ hd)) h.2 _

theorem Housed.place {n : Node} (h : n.Housed) (index : LineIndex) (offset : Nat) :
    (n.place index offset).Housed := by
  intro m hm hkind
  rw [children_place] at hm
  obtain ⟨xs, m, ys, hcs, rfl⟩ := exists_place_of_mem_placeAll hm
  obtain ⟨⟨d, ds, hds, hd, hbrace⟩, hhouse⟩ := h m (by simp [hcs]) (by simpa using hkind)
  rw [children_place]
  refine ⟨⟨d.place index offset, _, by rw [hds, placeAll], by simpa using hd, ?_⟩, fun x hx => ?_⟩
  · rw [text_place, hbrace]
  · obtain ⟨us, y, vs, hcs', rfl⟩ := exists_place_of_mem_placeAll hx
    have hy := hhouse y (by simp [hcs'])
    rwa [InHouse, kind_place, rule_place, text_place]

theorem Surveyed.place {n : Node} (h : n.Surveyed after) (index : LineIndex) (offset : Nat) :
    (n.place index offset).Surveyed after where
  memberEnds := by
    rw [MemberEnds, MethodFramed, rule_place, kind_place, text_place]
    exact h.memberEnds
  extraShaped := by
    rw [ExtraShaped, rule_place, kind_place, text_place]
    exact h.extraShaped
  housed := h.housed.place index offset
  gapsClosed := by
    rw [children_place]
    exact h.gapsClosed.placeAll index offset

end Node

theorem surveyed_of_sourceTree? {source : String} {root : Node}
    (h : sourceTree? source = some root) : root.Along Node.Surveyed [] := by
  have hnodes : ∀ n ∈ root.descendants, n.Housed ∧ Node.GapsClosed n.children := fun n hn =>
    ⟨housed_of_sourceTree? h n hn, gapsClosed_of_sourceTree? h n hn⟩
  have htexts := (memberEnds_of_sourceTree? h).and (extrasShaped_of_sourceTree? h)
  exact (htexts.and (Node.along_of_descendants hnodes [])).mono
    fun n after hn => ⟨hn.1.1, hn.1.2, hn.2.1, hn.2.2⟩

/-! ### Readers -/

/-- Whether the tree of a source is as the rules of the language make it. -/
structure Node.Grammatical (root : Node) : Prop where
  surveyed : root.Along Node.Surveyed []
  orderly : root.Orderly

/-- A way of reading sources by the rules of the language. -/
structure GrammarReader extends SourceReader where
  grammatical_of_read : ∀ {source t}, read source = some t → (t.syntaxTree source).Grammatical

/-- The reading of sources by the rules of this library. -/
def grammarReader : GrammarReader where
  toSourceReader := sourceReader
  grammatical_of_read {source t} h := by
    obtain ⟨tree, htree, hplaced⟩ := exists_sourceTree?_of_sourceRanges? h
    have hsurveyed := (surveyed_of_sourceTree? htree).place
      (fun n after index offset hn => hn.place index offset) (.ofText source) 0
    rw [← hplaced]
    exact ⟨hsurveyed, (orderly_of_sourceTree? htree).placeIn source⟩

/-- What holds of every result holds of the result, unless there is none. -/
theorem error_or_exists {ε α : Type} {x : Except ε α} {P : α → Prop} (h : ∀ a, x = .ok a → P a) :
    (∃ e, x = .error e) ∨ ∃ a, x = .ok a ∧ P a := by
  cases hx : x with
  | error e => exact .inl ⟨e, rfl⟩
  | ok a => exact .inr ⟨a, rfl, h a hx⟩

namespace GrammarReader

variable {g : GrammarReader} {source : String} {root : Node}

theorem grammatical_of_parseWith (h : parseWith g.read source = .ok root) : root.Grammatical := by
  obtain ⟨-, t, ht, rfl⟩ := parseWith_eq_ok.1 h
  exact g.grammatical_of_read ht

/-- **Where a node of a source stands**, with what is known along it. -/
theorem exists_of_mem_descendants (h : parseWith g.read source = .ok root) {d : Node}
    (hd : d ∈ root.descendants) :
    ∃ (m : Node) (front back : List Char), source.toList = front ++ m.text.toList ++ back ∧
      d = m.place (.ofText source) (byteLength front) ∧ m.Along Node.Surveyed back := by
  have hlossless := SourceReader.lossless_of_parseWith h
  rw [← hlossless.placeIn_eq] at hd
  obtain ⟨m, front, back, htext, rfl, hm⟩ :=
    (grammatical_of_parseWith h).surveyed.exists_of_mem_descendants hd
  rw [hlossless.text_eq] at htext
  exact ⟨m, front, back, htext, by rw [Nat.zero_add], by rwa [List.append_nil] at hm⟩

/-- The comments of a source are comments. -/
theorem commentText (h : parseWith g.read source = .ok root) {d : Node} (hd : d ∈ root.descendants)
    (hkind : d.kind = .comment) : CommentText d.text.toList := by
  obtain ⟨m, front, back, -, rfl, hm⟩ := exists_of_mem_descendants h hd
  rw [Node.text_place]
  rw [Node.kind_place] at hkind
  exact (Node.along_iff.1 hm).1.extraShaped.1 hkind

end GrammarReader

/-! ### A program with a query -/

namespace Node

/-- Whether a node is simple: members end with ink and methods begin with a word, comments are
blocks, there are no islands, and methods are housed. -/
structure Simple (n : Node) : Prop where
  memberEnds : n.rule ∈ memberRules ∨ n.kind = .method →
    n.text.toList.getLast?.any (fun c => !isIndent c && c != '\n') = true
  methodStarts : n.kind = .method → n.text.toList.head?.any isNameStart = true
  comment : n.kind = .comment → ['/', '*'] <+: n.text.toList ∧ ['*', '/'] <:+ n.text.toList.drop 2
  rule_ne : n.rule ≠ "text_interpolation"
  housed : n.Housed

theorem simple_iff {n : Node} : n.Simple ↔
    (n.rule ∈ memberRules ∨ n.kind = .method →
      n.text.toList.getLast?.any (fun c => !isIndent c && c != '\n') = true) ∧
      (n.kind = .method → n.text.toList.head?.any isNameStart = true) ∧
      (n.kind = .comment →
        ['/', '*'] <+: n.text.toList ∧ ['*', '/'] <:+ n.text.toList.drop 2) ∧
      n.rule ≠ "text_interpolation" ∧ n.Housed :=
  ⟨fun h => ⟨h.memberEnds, h.methodStarts, h.comment, h.rule_ne, h.housed⟩,
    fun h => ⟨h.1, h.2.1, h.2.2.1, h.2.2.2.1, h.2.2.2.2⟩⟩

theorem housed_iff {n : Node} : n.Housed ↔ ∀ m ∈ n.children, m.kind = .method →
    (∃ d ∈ n.children.head?, d.kind = .token ∧ d.text = "\x7b") ∧ ∀ x ∈ n.children, x.InHouse := by
  cases hchildren : n.children <;> simp [Housed, hchildren]

instance (n : Node) : Decidable n.InHouse :=
  inferInstanceAs (Decidable (n.kind = .trivia ∨ n.kind = .comment ∨ n.rule = "text_interpolation" ∨
    n.rule ∈ memberRules ∨ n.text ∈ braces))

instance (n : Node) : Decidable n.Housed := decidable_of_iff _ housed_iff.symm

instance (n : Node) : Decidable n.Simple := decidable_of_iff _ simple_iff.symm

theorem Simple.ended {n : Node} (h : n.Simple) (hn : n.rule ∈ memberRules ∨ n.kind = .method) :
    Ended n.text.toList after := by
  obtain ⟨c, hc, hink⟩ := (Option.any_eq_true ..).1 (h.memberEnds hn)
  obtain ⟨cs, htext⟩ := List.getLast?_eq_some_iff.1 hc
  exact .inl ⟨cs, c, htext, by simpa using hink⟩

/-- What is known of simple nodes, whatever stands behind them. -/
theorem Simple.surveyed {n : Node} (h : n.Simple) (hgaps : GapsClosed n.children) :
    n.Surveyed after where
  memberEnds := by
    refine ⟨fun hrule => h.ended (.inl hrule), fun hkind => ⟨?_, h.ended (.inr hkind)⟩⟩
    obtain ⟨c, hc, hname⟩ := (Option.any_eq_true ..).1 (h.methodStarts hkind)
    obtain ⟨cs, htext⟩ := List.head?_eq_some_iff.1 hc
    exact ⟨c, cs, htext, .inr hname⟩
  extraShaped := by
    refine ⟨fun hkind => ?_, fun hrule => absurd hrule h.rule_ne⟩
    obtain ⟨⟨cs, hfront⟩, body, hback⟩ := h.comment hkind
    rw [← hfront] at hback ⊢
    obtain rfl : body ++ ['*', '/'] = cs := hback
    exact .block body
  housed := h.housed
  gapsClosed := hgaps

theorem orderly_iff {n : Node} : n.Orderly ↔
    (∀ d ∈ n.descendants, d.IsCall → d.text ≠ "") ∧
      (∀ d ∈ n.descendants, d.kind = .namespaceUse → d.rule = "namespace_use_declaration") ∧
      (∀ d ∈ n.descendants, d.kind = .namespaceUse →
        ∀ e ∈ descendantsAll d.children, e.kind ≠ .namespaceUse) ∧
      (∀ d ∈ n.descendants, d.rule = "namespace_use_clause" →
        ∀ e ∈ descendantsAll d.children, e.rule ≠ "namespace_use_clause") ∧
      ∀ d ∈ n.descendants, d.kind = .classDeclaration → (d.childByField? "name").isSome := by
  simp only [Option.isSome_iff_exists]
  exact ⟨fun h => ⟨h.text_ne, h.rule_eq, h.kind_ne, h.rule_ne, h.named⟩,
    fun h => ⟨h.1, h.2.1, h.2.2.1, h.2.2.2.1, h.2.2.2.2⟩⟩

instance (n : Node) : Decidable n.IsCall :=
  inferInstanceAs (Decidable (n.kind = .expr .staticCall ∨ n.kind = .expr .memberCall))

instance (n : Node) : Decidable n.Orderly := decidable_of_iff _ orderly_iff.symm

end Node

/-- A program with a namespace, an import and a class whose method makes a query. In front of the
method there may be something else. -/
def sampleProgram (front : String) : String :=
  "<?php\nnamespace N;\nuse U\\V;\nclass A\n\x7b\n    " ++ front ++
    "public function f()\n    \x7b\n        Q::all(1.5);\n    \x7d\n\x7d\n"

/-- A documentation comment in the program, with the indentation behind it. -/
def sampleBlock : String := "/**\n     * x\n     */\n    "

/-- The ranges of the query. -/
def sampleQueryRanges (start : Nat) : RangedTree :=
  ⟨"scoped_call_expression", true, none, start, start + 11,
    [⟨"name", true, some "scope", start, start + 1, [], false⟩,
     ⟨"::", false, none, start + 1, start + 3, [], false⟩,
     ⟨"name", true, some "name", start + 3, start + 6, [], false⟩,
     ⟨"arguments", true, some "arguments", start + 6, start + 11,
       [⟨"(", false, none, start + 6, start + 7, [], false⟩,
        ⟨"argument", true, none, start + 7, start + 10,
          [⟨"float", true, none, start + 7, start + 10, [], false⟩], false⟩,
        ⟨")", false, none, start + 10, start + 11, [], false⟩], false⟩], false⟩

/-- The ranges of the method that makes the query. -/
def sampleQueryMethodRanges (start : Nat) : RangedTree :=
  ⟨"method_declaration", true, none, start, start + 52,
    [⟨"visibility_modifier", true, none, start, start + 6,
       [⟨"public", false, none, start, start + 6, [], false⟩], false⟩,
     ⟨"function", false, none, start + 7, start + 15, [], false⟩,
     ⟨"name", true, some "name", start + 16, start + 17, [], false⟩,
     ⟨"formal_parameters", true, some "parameters", start + 17, start + 19,
       [⟨"(", false, none, start + 17, start + 18, [], false⟩,
        ⟨")", false, none, start + 18, start + 19, [], false⟩], false⟩,
     ⟨"compound_statement", true, some "body", start + 24, start + 52,
       [⟨"\x7b", false, none, start + 24, start + 25, [], false⟩,
        ⟨"expression_statement", true, none, start + 34, start + 46,
          [sampleQueryRanges (start + 34),
           ⟨";", false, none, start + 45, start + 46, [], false⟩], false⟩,
        ⟨"\x7d", false, none, start + 51, start + 52, [], false⟩], false⟩], false⟩

/-- The ranges of the namespace and the import. -/
def sampleHeadRanges : List RangedTree :=
  [⟨"php_tag", true, none, 0, 5, [], false⟩,
   ⟨"namespace_definition", true, none, 6, 18,
     [⟨"namespace", false, none, 6, 15, [], false⟩,
      ⟨"namespace_name", true, some "name", 16, 17,
        [⟨"name", true, none, 16, 17, [], false⟩], false⟩,
      ⟨";", false, none, 17, 18, [], false⟩], false⟩,
   ⟨"namespace_use_declaration", true, none, 19, 27,
     [⟨"use", false, none, 19, 22, [], false⟩,
      ⟨"namespace_use_clause", true, none, 23, 26,
        [⟨"qualified_name", true, none, 23, 26,
          [⟨"namespace_name", true, some "prefix", 23, 24,
             [⟨"name", true, none, 23, 24, [], false⟩], false⟩,
           ⟨"\\", false, some "prefix", 24, 25, [], false⟩,
           ⟨"name", true, none, 25, 26, [], false⟩], false⟩], false⟩,
      ⟨";", false, none, 26, 27, [], false⟩], false⟩]

/-- The ranges of the program, whose method starts at an offset behind something else. -/
def sampleProgramRanges (front : List RangedTree) (start : Nat) : RangedTree :=
  ⟨"program", true, none, 0, start + 55,
    sampleHeadRanges ++
      [⟨"class_declaration", true, none, 28, start + 54,
        [⟨"class", false, none, 28, 33, [], false⟩,
         ⟨"name", true, some "name", 34, 35, [], false⟩,
         ⟨"declaration_list", true, some "body", 36, start + 54,
           ⟨"\x7b", false, none, 36, 37, [], false⟩ :: front ++
             [sampleQueryMethodRanges start,
              ⟨"\x7d", false, none, start + 53, start + 54, [], false⟩], false⟩], false⟩], false⟩

/-- The two programs, without the comment and with it. -/
def samplePrograms : List (String × RangedTree) :=
  [(sampleProgram "", sampleProgramRanges [] 42),
   (sampleProgram sampleBlock, sampleProgramRanges [⟨"comment", true, none, 42, 62, [], true⟩] 67)]

theorem legible_of_mem_samplePrograms : ∀ x ∈ samplePrograms, x.2.Legible x.1 := by
  decide +kernel

theorem simple_of_mem_samplePrograms : ∀ x ∈ samplePrograms,
    ∀ d ∈ (x.2.syntaxTree x.1).descendants, d.Simple := by
  decide +kernel

theorem orderly_of_mem_samplePrograms : ∀ x ∈ samplePrograms, (x.2.syntaxTree x.1).Orderly := by
  decide +kernel

/-- The reader that knows the two programs. -/
def sampleGrammarReader : GrammarReader where
  toSourceReader := .ofTrees samplePrograms legible_of_mem_samplePrograms
  grammatical_of_read {source t} h := by
    have hmem := SourceReader.mem_of_lookup h
    have hnested := (legible_of_mem_samplePrograms _ hmem).wellNested
    have hgaps := (RangedTree.lossless_syntaxTree hnested).gapsClosed
    refine ⟨?_, orderly_of_mem_samplePrograms _ hmem⟩
    have hsimple : ∀ d ∈ (t.syntaxTree source).descendants, d.Simple ∧ Node.GapsClosed d.children :=
      fun d hd => ⟨simple_of_mem_samplePrograms _ hmem d hd, hgaps d hd⟩
    exact (Node.along_of_descendants hsimple []).mono fun n after hn => hn.1.surveyed hn.2

/-- The tree of the program. -/
def sampleProgramTree : Node := (sampleProgramRanges [] 42).syntaxTree (sampleProgram "")

theorem parseWith_sampleProgram :
    parseWith sampleGrammarReader.read (sampleProgram "") = .ok sampleProgramTree := by
  have hread : samplePrograms.lookup (sampleProgram "") = some (sampleProgramRanges [] 42) := by
    rw [samplePrograms, List.lookup_cons_self]
  exact parseWith_eq_ok.2 ⟨by decide +kernel, _, hread, rfl⟩

end DocBlocks
