import DocBlocks.Proofs.Syntax.Ranges
import DocBlocks.Proofs.Syntax.Roles

/-!
# Readings of sources

A `SourceReader` is a way of reading sources into trees over their bytes that are well nested, and
whose lossless trees are regular: gaps are closed, names of methods are leaves, comments have no
role. `sourceReader` is the one of this library. What is proved of all of them depends on the
grammar only as far as that.

Two views of a tree leave spans out: `Node.bare` is the tree without them, and `Node.code` is what
is left of it without comments and trivia.
-/

namespace DocBlocks

namespace Node

/-! ### Equality of trees -/

mutual

/-- Whether two trees are equal can be decided. -/
def decideEq : (m n : Node) → Decidable (m = n)
  | leaf l t, leaf l' t' => decidable_of_iff (l = l' ∧ t = t') (by simp)
  | branch l cs, branch l' ds =>
    have := decideEqAll cs ds
    decidable_of_iff (l = l' ∧ cs = ds) (by simp)
  | leaf _ _, branch _ _ => isFalse (by simp)
  | branch _ _, leaf _ _ => isFalse (by simp)

/-- Whether neighbouring trees are equal can be decided. -/
def decideEqAll : (ms ns : List Node) → Decidable (ms = ns)
  | [], [] => isTrue rfl
  | m :: ms, n :: ns =>
    have := decideEq m n
    have := decideEqAll ms ns
    decidable_of_iff (m = n ∧ ms = ns) (by simp)
  | [], _ :: _ => isFalse (by simp)
  | _ :: _, [] => isFalse (by simp)

end

instance : DecidableEq Node := decideEq

/-! ### Regular trees -/

/-- What the trees of sources are like, apart from their text. -/
structure Regular (n : Node) : Prop where
  gapsClosed : ∀ d ∈ n.descendants, GapsClosed d.children
  namesLeaf : n.NamesLeaf
  commentsPlain : n.CommentsPlain

theorem regular_iff {n : Node} :
    n.Regular ↔
      (∀ d ∈ n.descendants, GapsClosed d.children) ∧ n.NamesLeaf ∧ n.CommentsPlain :=
  ⟨fun h => ⟨h.gapsClosed, h.namesLeaf, h.commentsPlain⟩, fun h => ⟨h.1, h.2.1, h.2.2⟩⟩

instance (n : Node) : Decidable n.NamesLeaf :=
  inferInstanceAs (Decidable (∀ m ∈ n.descendants, m.kind = .method →
    ∀ c ∈ m.children, c.field = some "name" → c.isLeaf = true))

instance (n : Node) : Decidable n.CommentsPlain :=
  inferInstanceAs (Decidable (∀ d ∈ n.descendants, d.kind = .comment → d.field = none))

instance (n : Node) : Decidable n.Regular := decidable_of_iff _ regular_iff.symm

theorem Regular.of_mem_children {n c : Node} (h : n.Regular) (hc : c ∈ n.children) :
    c.Regular where
  gapsClosed d hd :=
    h.gapsClosed d (mem_descendants_trans hd (mem_descendants_of_mem_children hc))
  namesLeaf m hm :=
    h.namesLeaf m (mem_descendants_trans hm (mem_descendants_of_mem_children hc))
  commentsPlain d hd :=
    h.commentsPlain d (mem_descendants_trans hd (mem_descendants_of_mem_children hc))

theorem Regular.placeIn {n : Node} (h : n.Regular) (source : String) :
    (n.placeIn source).Regular where
  gapsClosed d hd := by
    obtain ⟨m, hm, front, back, -, rfl⟩ := exists_place_of_mem_descendants hd
    rw [children_place]
    exact (h.gapsClosed m hm).placeAll _ _
  namesLeaf d hd hk c hc hf := by
    obtain ⟨m, hm, front, back, -, rfl⟩ := exists_place_of_mem_descendants hd
    rw [children_place] at hc
    obtain ⟨xs, c', ys, hcs, rfl⟩ := exists_place_of_mem_placeAll hc
    rw [isLeaf_place]
    exact h.namesLeaf m hm (by simpa using hk) c' (by simp [hcs]) (by simpa using hf)
  commentsPlain d hd hk := by
    obtain ⟨m, hm, front, back, -, rfl⟩ := exists_place_of_mem_descendants hd
    rw [field_place]
    exact h.commentsPlain m hm (by simpa using hk)

/-! ### Trees without spans -/

mutual

/-- A tree without its spans. -/
def bare : Node → Node
  | leaf l t => leaf { l with span := .nowhere } t
  | branch l cs => branch { l with span := .nowhere } (bareAll cs)

/-- Neighbouring nodes without their spans. -/
def bareAll : List Node → List Node
  | [] => []
  | n :: ns => n.bare :: bareAll ns

end

mutual

/-- A tree without its spans, comments and trivia. -/
def code : Node → Node
  | leaf l t => leaf { l with span := .nowhere } t
  | branch l cs => branch { l with span := .nowhere } (codeAll cs)

/-- Neighbouring nodes without their spans, comments and trivia. -/
def codeAll : List Node → List Node
  | [] => []
  | n :: ns => if n.kind.isTrivia then codeAll ns else n.code :: codeAll ns

end

@[simp]
theorem kind_bare (n : Node) : n.bare.kind = n.kind := by
  cases n <;> simp [bare]

@[simp]
theorem field_bare (n : Node) : n.bare.field = n.field := by
  cases n <;> simp [bare]

theorem bareAll_eq_map (ns : List Node) : bareAll ns = ns.map bare := by
  induction ns with
  | nil => rfl
  | cons n ns ih => simp [bareAll, ih]

@[simp]
theorem children_bare (n : Node) : n.bare.children = n.children.map bare := by
  cases n <;> simp [bare, bareAll_eq_map]

@[simp]
theorem leafText?_bare (n : Node) : n.bare.leafText? = n.leafText? := by
  cases n <;> simp [bare, leafText?]

theorem textAll_map_bare {ns : List Node} (h : ∀ n ∈ ns, n.bare.text = n.text) :
    textAll (ns.map bare) = textAll ns := by
  induction ns with
  | nil => rfl
  | cons n ns ih =>
    simp [h n List.mem_cons_self, ih fun m hm => h m (List.mem_cons_of_mem _ hm)]

@[simp]
theorem text_bare (n : Node) : n.bare.text = n.text := by
  induction n using treeInduction with
  | leaf l t => simp [bare]
  | branch l cs ih => simpa [bare, bareAll_eq_map] using textAll_map_bare ih

/-- Placing a tree changes nothing but its spans. -/
theorem bare_place (index : LineIndex) (offset : Nat) (n : Node) :
    (n.place index offset).bare = n.bare := by
  induction n using treeInduction generalizing offset with
  | leaf l t => rfl
  | branch l cs ih =>
    -- each child has an offset of its own, so its place does not matter to the others
    have hcs : ∀ offset, (placeAll index offset cs).map bare = cs.map bare := by
      clear l
      intro offset
      induction cs generalizing offset with
      | nil => rfl
      | cons c cs ih' =>
        simp only [placeAll, List.map_cons, ih c List.mem_cons_self]
        rw [ih' fun d hd => ih d (List.mem_cons_of_mem _ hd)]
    simp [place, bare, bareAll_eq_map, hcs]

theorem map_bare_placeAll (index : LineIndex) (offset : Nat) (ns : List Node) :
    (placeAll index offset ns).map bare = ns.map bare := by
  induction ns generalizing offset with
  | nil => rfl
  | cons n ns ih => simp [placeAll, bare_place, ih]

theorem codeAll_map_bare {ns : List Node} (h : ∀ n ∈ ns, n.bare.code = n.code) :
    codeAll (ns.map bare) = codeAll ns := by
  induction ns with
  | nil => rfl
  | cons n ns ih =>
    simp [codeAll, h n List.mem_cons_self, ih fun m hm => h m (List.mem_cons_of_mem _ hm)]

@[simp]
theorem code_bare (n : Node) : n.bare.code = n.code := by
  induction n using treeInduction with
  | leaf l t => rfl
  | branch l cs ih => simpa [bare, code, bareAll_eq_map] using codeAll_map_bare ih

end Node

/-! ### Readers -/

/-- Whether what was read of a source can be documented: its ranges are well nested, the root is a
program, and in the tree that is made of it names of methods are leaves and comments have no role.
-/
structure RangedTree.Legible (source : String) (t : RangedTree) : Prop where
  wellNested : t.WellNested source
  kind_eq : t.kind = .program
  namesLeaf : (t.syntaxTree source).NamesLeaf
  commentsPlain : (t.syntaxTree source).CommentsPlain

namespace RangedTree

variable {source : String} {t : RangedTree}

theorem legible_iff : t.Legible source ↔
    t.WellNested source ∧ t.kind = .program ∧ (t.syntaxTree source).NamesLeaf ∧
      (t.syntaxTree source).CommentsPlain :=
  ⟨fun h => ⟨h.wellNested, h.kind_eq, h.namesLeaf, h.commentsPlain⟩,
    fun h => ⟨h.1, h.2.1, h.2.2.1, h.2.2.2⟩⟩

instance : Decidable (t.Legible source) := decidable_of_iff _ legible_iff.symm

theorem kind_syntaxTree (source : String) (t : RangedTree) :
    (t.syntaxTree source).kind = t.kind := by
  obtain ⟨rule, isNamed, field, start, stop, _ | ⟨c, cs⟩, isExtra⟩ := t <;> rfl

theorem Legible.regular (h : t.Legible source) : (t.syntaxTree source).Regular where
  gapsClosed := (lossless_syntaxTree h.wellNested).gapsClosed
  namesLeaf := h.namesLeaf
  commentsPlain := h.commentsPlain

end RangedTree

/-- A way of reading sources. -/
structure SourceReader where
  read : String → Option RangedTree
  legible_of_read : ∀ {source t}, read source = some t → t.Legible source

/-- The reading of sources by the rules of this library. -/
def sourceReader : SourceReader where
  read := sourceRanges?
  legible_of_read {source t} h := by
    obtain ⟨tree, htree, hplaced⟩ := exists_sourceTree?_of_sourceRanges? h
    have hregular : (tree.placeIn source).Regular :=
      Node.Regular.placeIn ⟨gapsClosed_of_sourceTree? htree, namesLeaf_of_sourceTree? htree,
        commentsPlain_of_sourceTree? htree⟩ source
    rw [hplaced] at hregular
    exact ⟨wellNested_of_sourceRanges? h, kind_of_sourceRanges? h, hregular.namesLeaf,
      hregular.commentsPlain⟩

namespace SourceReader

theorem mem_of_lookup {trees : List (String × RangedTree)} {source : String} {t : RangedTree}
    (h : trees.lookup source = some t) : (source, t) ∈ trees := by
  obtain ⟨front, back, rfl, -⟩ := List.lookup_eq_some_iff.1 h
  simp

/-- The reader that knows the trees of some sources and reads nothing else. -/
def ofTrees (trees : List (String × RangedTree)) (h : ∀ x ∈ trees, x.2.Legible x.1) :
    SourceReader where
  read source := trees.lookup source
  legible_of_read hread := h _ (mem_of_lookup hread)

/-- The tree of a source. -/
def tree? (g : SourceReader) (source : String) : Option Node :=
  (g.read source).map (·.syntaxTree source)

variable {g : SourceReader} {source : String} {root : Node}

theorem exists_legible_of_parseWith (h : parseWith g.read source = .ok root) :
    ∃ t : RangedTree, t.Legible source ∧ t.syntaxTree source = root := by
  obtain ⟨-, t, ht, rfl⟩ := parseWith_eq_ok.1 h
  exact ⟨t, g.legible_of_read ht, rfl⟩

theorem tree?_of_parseWith (h : parseWith g.read source = .ok root) : g.tree? source = some root :=
  Option.map_eq_some_iff.2 (parseWith_eq_ok.1 h).2

theorem lossless_of_parseWith (h : parseWith g.read source = .ok root) : root.Lossless source := by
  obtain ⟨t, ht, rfl⟩ := exists_legible_of_parseWith h
  exact RangedTree.lossless_syntaxTree ht.wellNested

theorem regular_of_parseWith (h : parseWith g.read source = .ok root) : root.Regular := by
  obtain ⟨t, ht, rfl⟩ := exists_legible_of_parseWith h
  exact ht.regular

theorem kind_of_parseWith (h : parseWith g.read source = .ok root) : root.kind = .program := by
  obtain ⟨t, ht, rfl⟩ := exists_legible_of_parseWith h
  rw [RangedTree.kind_syntaxTree, ht.kind_eq]

end SourceReader

/-! ### A class with one method -/

/-- A method without parameters and statements. -/
def sampleMethod : Node :=
  .branch ⟨.method, "method_declaration", none, .nowhere⟩
    [.leaf ⟨.token, "function", none, .nowhere⟩ "function",
     .trivia " " .nowhere,
     .leaf ⟨.name, "name", some "name", .nowhere⟩ "f",
     .branch ⟨.parameterList, "formal_parameters", some "parameters", .nowhere⟩
       [.leaf ⟨.token, "(", none, .nowhere⟩ "(", .leaf ⟨.token, ")", none, .nowhere⟩ ")"],
     .branch ⟨.block, "compound_statement", some "body", .nowhere⟩
       [.leaf ⟨.token, "\x7b", none, .nowhere⟩ "\x7b",
        .leaf ⟨.token, "\x7d", none, .nowhere⟩ "\x7d"]]

/-- A class with some members. -/
def sampleClass (members : List Node) : Node :=
  .branch ⟨.program, "program", none, .nowhere⟩
    [.leaf ⟨.other, "php_tag", none, .nowhere⟩ "<?php",
     .trivia " " .nowhere,
     .branch ⟨.classDeclaration, "class_declaration", none, .nowhere⟩
       [.leaf ⟨.token, "class", none, .nowhere⟩ "class",
        .trivia " " .nowhere,
        .leaf ⟨.name, "name", some "name", .nowhere⟩ "A",
        .branch ⟨.classBody, "declaration_list", some "body", .nowhere⟩
          (.leaf ⟨.token, "\x7b", none, .nowhere⟩ "\x7b" :: members ++
            [.leaf ⟨.token, "\x7d", none, .nowhere⟩ "\x7d"])]]

/-- A documentation comment on lines of its own. -/
def sampleComment : List Node :=
  [.comment "/**\n * x\n */" .nowhere, .trivia "\n" .nowhere]

/-- The ranges of the method, which takes fourteen bytes. -/
def sampleMethodRanges (start : Nat) : RangedTree :=
  ⟨"method_declaration", true, none, start, start + 14,
    [⟨"function", false, none, start, start + 8, [], false⟩,
     ⟨"name", true, some "name", start + 9, start + 10, [], false⟩,
     ⟨"formal_parameters", true, some "parameters", start + 10, start + 12,
       [⟨"(", false, none, start + 10, start + 11, [], false⟩,
        ⟨")", false, none, start + 11, start + 12, [], false⟩], false⟩,
     ⟨"compound_statement", true, some "body", start + 12, start + 14,
       [⟨"\x7b", false, none, start + 12, start + 13, [], false⟩,
        ⟨"\x7d", false, none, start + 13, start + 14, [], false⟩], false⟩], false⟩

/-- The ranges of the class, whose members end at an offset. -/
def sampleClassRanges (members : List RangedTree) (stop : Nat) : RangedTree :=
  ⟨"program", true, none, 0, stop + 1,
    [⟨"php_tag", true, none, 0, 5, [], false⟩,
     ⟨"class_declaration", true, none, 6, stop + 1,
       [⟨"class", false, none, 6, 11, [], false⟩,
        ⟨"name", true, some "name", 12, 13, [], false⟩,
        ⟨"declaration_list", true, some "body", 13, stop + 1,
          ⟨"\x7b", false, none, 13, 14, [], false⟩ :: members ++
            [⟨"\x7d", false, none, stop, stop + 1, [], false⟩], false⟩], false⟩], false⟩

/-- The sources of the class with the method, without the comment and with it. -/
def sampleTrees : List (String × RangedTree) :=
  [((sampleClass [sampleMethod]).text, sampleClassRanges [sampleMethodRanges 14] 28),
   ((sampleClass (sampleComment ++ [sampleMethod])).text,
     sampleClassRanges [⟨"comment", true, none, 14, 26, [], true⟩, sampleMethodRanges 27] 41)]

/-- The reader that knows the two sources. -/
def sampleReader : SourceReader := .ofTrees sampleTrees (by decide +kernel)

end DocBlocks
