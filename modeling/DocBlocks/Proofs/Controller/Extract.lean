import DocBlocks.Proofs.Controller.Describe
import DocBlocks.Proofs.Query.Chain
import DocBlocks.Proofs.Syntax.Members

/-!
# What is extracted stands in the source

`extractText_verbatim`: the methods of a description are the public methods of the class, one by
one, and each of them is told as it stands in the source (`MethodDescriptor.Verbatim`): its text is
a piece of the source, from the front of its line if only spaces and tabs stand there, its lines are
those of its first and last byte, and its query chains are pieces of its text on the lines they are
said to be on. The pieces of different methods do not overlap.

The tree is placed in the source by one walk, so all of this is said of nodes that are not placed
yet and of the texts around them (`verbatim_describeMethod`); only the last point is about two
nodes, and it is where `Framed` is used.
-/

namespace DocBlocks

/-- Whether a node is a public method. -/
def isPublicMethod (n : Node) : Bool := n.kind == .method && isPublic n

/-- The public methods of the class that a tree is described by. -/
def publicMethods (root : Node) : List Node :=
  ((root.findFirst? .classDeclaration).bind (·.childByField? "body")).elim [] fun body =>
    body.children.filter isPublicMethod

/-- The first byte of the source text of a declaration: the front of its line if nothing but spaces
and tabs stands between it and the declaration, or else the first byte of the declaration itself. -/
def declarationStart (source : String) (span : Span) : Nat :=
  let line := lastLine (splitBytes span.start source.toList).1
  if line.all isIndent then span.start - byteLength line else span.start

/-- Whether a description tells a method as it stands in the source. -/
structure MethodDescriptor.Verbatim (source : String) (n : Node) (m : MethodDescriptor) : Prop where
  /-- The text is the piece of the source between two bytes. -/
  piece : ∃ before after, source.toList = before ++ m.source.toList ++ after ∧
    byteLength before = declarationStart source n.span ∧
    byteLength (before ++ m.source.toList) = n.span.stop
  /-- It is the text of the method behind an indentation. -/
  indented : ∃ indent : List Char, indent.all isIndent = true ∧
    m.source.toList = indent ++ n.text.toList
  /-- The lines are those of the first byte and of the last byte: one more than the line feeds in
  front of the character that the byte lies in. -/
  lines : ∃ before after, source.toList = before ++ n.text.toList ++ after ∧
    byteLength before = n.span.start ∧ n.text ≠ "" ∧
    m.span = ⟨1 + before.count '\n', 1 + (before ++ n.text.toList.dropLast).count '\n'⟩
  /-- A query chain stands in the text, as many lines below its first line as line feeds come
  before it. -/
  queries : ∀ q ∈ m.queries, ∃ front back, m.source.toList = front ++ q.text.toList ++ back ∧
    q.line = m.span.startLine + front.count '\n'

/-! ### The text of a declaration -/

/-- The indentation that goes with a declaration behind a text. -/
def indentBehind (before : List Char) : List Char :=
  if (lastLine before).all isIndent then lastLine before else []

theorem all_indentBehind (before : List Char) : (indentBehind before).all isIndent = true := by
  unfold indentBehind
  split
  · assumption
  · rfl

theorem indentBehind_suffix (before : List Char) : indentBehind before <:+ before := by
  unfold indentBehind
  split
  · exact lastLine_suffix before
  · exact List.nil_suffix

theorem count_newline_indentBehind (before : List Char) : (indentBehind before).count '\n' = 0 := by
  refine List.count_eq_zero.2 fun h => ?_
  have := List.all_eq_true.1 (all_indentBehind before) '\n' h
  simp [isIndent] at this

section Piece

variable {source : String} {before text after : List Char} {span : Span}

theorem declarationStart_eq (h : source.toList = before ++ text ++ after)
    (hstart : span.start = byteLength before) :
    declarationStart source span + byteLength (indentBehind before) = byteLength before := by
  obtain ⟨front, hfront⟩ := lastLine_suffix before
  have hlen : byteLength before = byteLength front + byteLength (lastLine before) := by
    rw [← byteLength_append, hfront]
  have hsplit : (splitBytes span.start source.toList).1 = before := by
    rw [h, hstart, List.append_assoc, splitBytes_byteLength]
  simp only [declarationStart, hsplit, indentBehind]
  split
  · omega
  · rw [hstart, byteLength, Nat.add_zero]

theorem toList_declarationSource (h : source.toList = before ++ text ++ after)
    (hstart : span.start = byteLength before) (hstop : span.stop = byteLength (before ++ text)) :
    (declarationSource source span).toList = indentBehind before ++ text := by
  have hlen : span.stop - span.start = byteLength text := by
    rw [hstart, hstop, byteLength_append]
    omega
  simp only [declarationSource, hlen]
  rw [h, hstart, List.append_assoc, splitBytes_byteLength, splitBytes_byteLength]
  simp only [indentBehind]
  split <;> simp

end Piece

/-! ### Chains and their nodes -/

theorem mem_chainsInAll {q : QueryChain} {ns : List Node} :
    q ∈ chainsInAll ns ↔ ∃ n ∈ ns, q ∈ chainsIn n := by
  induction ns with
  | nil => simp [chainsInAll]
  | cons n ns ih => simp [chainsInAll, ih]

/-- A chain that is found in a node is that of a node in it. -/
theorem exists_chainAt?_of_mem_chainsIn {q : QueryChain} {n : Node} (h : q ∈ chainsIn n) :
    ∃ d ∈ n.descendants, chainAt? d = some q := by
  induction n using Node.treeInduction with
  | leaf l t =>
    simp only [chainsIn, Option.mem_toList] at h
    exact ⟨_, Node.self_mem_descendants _, h⟩
  | branch l cs ih =>
    simp only [chainsIn] at h
    split at h
    · simp at h
    split at h
    · rename_i q' hq'
      obtain rfl := List.mem_singleton.1 h
      exact ⟨_, Node.self_mem_descendants _, hq'⟩
    · obtain ⟨c, hc, hq⟩ := mem_chainsInAll.1 h
      obtain ⟨d, hd, hchain⟩ := ih c hc hq
      exact ⟨d, Node.mem_descendants_branch.2 (.inr ⟨c, hc, hd⟩), hchain⟩

theorem exists_chainAt?_of_mem_queriesOf {q : QueryChain} {n : Node} (h : q ∈ queriesOf n) :
    ∃ d ∈ n.descendants, chainAt? d = some q := by
  unfold queriesOf at h
  split at h
  · cases hbody : n.childByField? "body" with
    | none => simp [hbody] at h
    | some body =>
      rw [hbody, Option.elim_some] at h
      obtain ⟨d, hd, hchain⟩ := exists_chainAt?_of_mem_chainsIn h
      have hmem := Node.mem_descendants_of_mem_children (List.mem_of_find?_eq_some hbody)
      exact ⟨d, Node.mem_descendants_trans hd hmem, hchain⟩
  · exact exists_chainAt?_of_mem_chainsIn h

/-- What a chain says of its place is what its node says. -/
theorem text_line_of_chainAt? {q : QueryChain} {d : Node} (h : chainAt? d = some q) :
    q.text = d.text ∧ q.line = d.span.startLine := by
  rw [chainAt?_eq, chainOf?_eq] at h
  obtain ⟨⟨model, calls⟩, -, rfl⟩ := Option.map_eq_some_iff.1 h
  exact ⟨rfl, rfl⟩

/-! ### One method -/

section Method

variable {source : String} {before after : List Char} {n : Node}

/-- **A method is told as it stands in the source.** -/
theorem verbatim_describeMethod (h : source.toList = before ++ n.text.toList ++ after)
    (hne : n.text ≠ "") (doc : Option String) :
    (describeMethod source (n.place (.ofText source) (byteLength before)) doc).Verbatim source
      (n.place (.ofText source) (byteLength before)) := by
  have hspan := Node.span_place (.ofText source) (byteLength before) n
  rw [← byteLength_append, LineIndex.span_ofText h] at hspan
  have htext := Node.text_place (.ofText source) (byteLength before) n
  have hsource : (declarationSource source
      (n.place (.ofText source) (byteLength before)).span).toList =
        indentBehind before ++ n.text.toList :=
    toList_declarationSource h (by rw [hspan]) (by rw [hspan])
  refine ⟨?_, ?_, ?_, ?_⟩
  · obtain ⟨front, hfront⟩ := indentBehind_suffix before
    have hstart : declarationStart source (n.place (.ofText source) (byteLength before)).span +
        byteLength (indentBehind before) = byteLength before :=
      declarationStart_eq h (by rw [hspan])
    refine ⟨front, after, ?_, ?_, ?_⟩
    · simp only [describeMethod]
      rw [hsource, h, ← List.append_assoc, hfront]
    · have hlen := congrArg byteLength hfront
      rw [byteLength_append] at hlen
      omega
    · simp only [describeMethod]
      rw [hsource, ← List.append_assoc, hfront, hspan]
  · refine ⟨indentBehind before, all_indentBehind before, ?_⟩
    simp only [describeMethod]
    rw [hsource, htext]
  · refine ⟨before, after, by rw [htext, h], by rw [hspan], by rwa [htext], ?_⟩
    simp only [describeMethod, hspan, htext]
  · intro q hq
    obtain ⟨d, hd, hchain⟩ := exists_chainAt?_of_mem_queriesOf hq
    obtain ⟨hqtext, hqline⟩ := text_line_of_chainAt? hchain
    obtain ⟨m, -, front, back, hpiece, rfl⟩ := Node.exists_place_of_mem_descendants hd
    have hplace : source.toList = (before ++ front) ++ m.text.toList ++ (back ++ after) := by
      rw [h, hpiece]
      simp
    have hline : (m.place (.ofText source) (byteLength before + byteLength front)).span.startLine =
        1 + (before ++ front).count '\n' := by
      rw [Node.span_place, ← byteLength_append, ← byteLength_append, LineIndex.span_ofText hplace]
    refine ⟨indentBehind before ++ front, back, ?_, ?_⟩
    · simp only [describeMethod]
      rw [hsource, hpiece, hqtext, Node.text_place]
      simp
    · rw [hqline, hline]
      simp only [describeMethod, hspan, List.count_append, count_newline_indentBehind]
      omega

end Method

/-! ### The methods of a class -/

theorem isLeaf_of_isPublicMethod {n : Node} (h : isPublicMethod n = true) :
    n.kind = .method ∧ n.isLeaf = false := by
  obtain ⟨hk, hpublic⟩ := Bool.and_eq_true_iff.1 h
  refine ⟨beq_iff_eq.1 hk, ?_⟩
  cases n with
  | leaf l t => simp [isPublic] at hpublic
  | branch l cs => rfl

/-- **The public methods are described one by one.** -/
theorem forall₂_describeMethods {source : String} {P : Node → MethodDescriptor → Prop}
    {nearest ns : List Node}
    (h : ∀ n ∈ ns, isPublicMethod n = true → ∀ doc, P n (describeMethod source n doc)) :
    List.Forall₂ P (ns.filter isPublicMethod) (describeMethods source nearest ns) := by
  induction ns generalizing nearest with
  | nil => exact .nil
  | cons n ns ih =>
    have hrest : List.Forall₂ P (ns.filter isPublicMethod)
        (describeMethods source (n :: nearest) ns) :=
      ih fun m hm => h m (List.mem_cons_of_mem _ hm)
    by_cases hn : isPublicMethod n = true
    · rw [List.filter_cons_of_pos hn, describeMethods]
      rw [if_pos (by exact hn)]
      exact .cons (h n List.mem_cons_self hn _) hrest
    · rw [List.filter_cons_of_neg hn, describeMethods]
      rw [if_neg (by exact hn)]
      exact hrest

/-- What goes with a declaration begins behind the declaration in front of it. -/
theorem le_declarationStart {source : String} {before text between text' after : List Char}
    {span : Span} (h : source.toList = before ++ text ++ between ++ text' ++ after)
    (hended : Ended text (between ++ text' ++ after)) (hframed : Framed text' after)
    (hstart : span.start = byteLength (before ++ text ++ between)) :
    byteLength (before ++ text) ≤ declarationStart source span := by
  have hsuffix : indentBehind (before ++ text ++ between) <:+ between := by
    unfold indentBehind
    split
    · exact hended.lastLine_suffix hframed ‹_›
    · exact List.nil_suffix
  obtain ⟨front, hfront⟩ := hsuffix
  have hlen := congrArg byteLength hfront
  have hsum := declarationStart_eq h hstart
  rw [byteLength_append] at hlen
  rw [byteLength_append (before ++ text)] at hsum
  omega

section Siblings

variable {source : String} {before after : List Char} {ns : List Node}

/-- The public methods among neighbouring nodes have text, and are told as they stand. -/
theorem forall₂_verbatim {nearest : List Node}
    (h : source.toList = before ++ (Node.textAll ns).toList ++ after)
    (hframed : Node.AlongAll Node.MethodFramed after ns) :
    List.Forall₂ (fun n m => m.Verbatim source n)
      ((Node.placeAll (.ofText source) (byteLength before) ns).filter isPublicMethod)
      (describeMethods source nearest (Node.placeAll (.ofText source) (byteLength before) ns)) := by
  refine forall₂_describeMethods fun d hd hpublic doc => ?_
  obtain ⟨xs, n, ys, rfl, rfl⟩ := Node.exists_place_of_mem_placeAll hd
  have hk := (isLeaf_of_isPublicMethod hpublic).1
  have hn := (Node.along_iff.1 (Node.alongAll_append.1 hframed).2.1).1
  obtain ⟨c, cs, htext, -⟩ := (hn (by simpa using hk)).front
  have hpiece : source.toList = before ++ (Node.textAll xs).toList ++ n.text.toList ++
      ((Node.textAll ys).toList ++ after) := by
    simp [h, Node.textAll_append]
  rw [← byteLength_append]
  refine verbatim_describeMethod hpiece ?_ doc
  rintro hempty
  simp [hempty] at htext

/-- **Public methods do not overlap**, the indentation in front of them included. -/
theorem pairwise_placeAll (h : source.toList = before ++ (Node.textAll ns).toList ++ after)
    (hframed : Node.AlongAll Node.MethodFramed after ns) :
    ((Node.placeAll (.ofText source) (byteLength before) ns).filter isPublicMethod).Pairwise
      fun n n' => n.span.stop ≤ declarationStart source n'.span := by
  induction ns generalizing before with
  | nil => exact .nil
  | cons n ns ih =>
    have hlen : byteLength before + n.text.utf8ByteSize = byteLength (before ++ n.text.toList) := by
      rw [byteLength_append, utf8ByteSize_eq_byteLength]
    have hsource :
        source.toList = before ++ n.text.toList ++ (Node.textAll ns).toList ++ after := by
      simp [h]
    have hrest := ih hsource hframed.2
    rw [Node.placeAll, hlen]
    by_cases hn : isPublicMethod (n.place (.ofText source) (byteLength before)) = true
    · rw [List.filter_cons_of_pos hn]
      refine .cons (fun d hd => ?_) hrest
      obtain ⟨hd, hd'⟩ := List.mem_filter.1 hd
      obtain ⟨xs, m, ys, rfl, rfl⟩ := Node.exists_place_of_mem_placeAll hd
      have hk := (isLeaf_of_isPublicMethod hn).1
      have hk' := (isLeaf_of_isPublicMethod hd').1
      have hpiece : source.toList = before ++ n.text.toList ++ (Node.textAll xs).toList ++
          m.text.toList ++ ((Node.textAll ys).toList ++ after) := by
        simp [h, Node.textAll_append]
      have hfront : Framed n.text.toList ((Node.textAll xs).toList ++ m.text.toList ++
          ((Node.textAll ys).toList ++ after)) := by
        simpa [Node.textAll_append] using (Node.along_iff.1 hframed.1).1 (by simpa using hk)
      have hback : Framed m.text.toList ((Node.textAll ys).toList ++ after) :=
        (Node.along_iff.1 (Node.alongAll_append.1 hframed.2).2.1).1 (by simpa using hk')
      rw [Node.span_place, ← byteLength_append]
      refine le_declarationStart hpiece hfront.back hback ?_
      rw [Node.span_place, byteLength_append (before ++ n.text.toList)]
      rfl
    · rw [List.filter_cons_of_neg hn]
      exact hrest

end Siblings

/-! ### The description of a source -/

/-- The methods of a description, and the nodes they describe. -/
theorem GrammarReader.verbatim_of_describeClass {g : GrammarReader} {source : String} {root : Node}
    {c : ClassDescriptor} (hroot : parseWith g.read source = .ok root)
    (h : describeClass root source = .ok c) :
    List.Forall₂ (fun n m => m.Verbatim source n) (publicMethods root) c.methods ∧
      (publicMethods root).Pairwise fun n n' => n.span.stop ≤ declarationStart source n'.span := by
  obtain ⟨decl, name, hdecl, -, rfl⟩ := describeClass_eq_ok.1 h
  simp only [publicMethods, hdecl, Option.bind_some]
  cases hbody : decl.childByField? "body" with
  | none => exact ⟨.nil, .nil⟩
  | some body =>
    -- the body is a node of the tree, so it stands somewhere in the source
    have hmem : body ∈ root.descendants :=
      Node.mem_descendants_trans
        (Node.mem_descendants_of_mem_children (List.mem_of_find?_eq_some hbody))
        (List.mem_of_find?_eq_some hdecl)
    obtain ⟨m, front, back, hpiece, rfl, hm⟩ := exists_of_mem_descendants hroot hmem
    rw [Option.elim_some, Option.elim_some, Node.children_place]
    have hchildren : source.toList = front ++ (Node.textAll m.children).toList ++ back ∨
        m.children = [] := by
      cases m with
      | leaf l t => exact .inr rfl
      | branch l cs => exact .inl (by simpa using hpiece)
    rcases hchildren with hsource | hnil
    · have hframed : m.Along Node.MethodFramed back :=
        hm.mono fun _ _ hn => hn.memberEnds.2
      have hmethods := (Node.along_iff.1 hframed).2
      exact ⟨forall₂_verbatim hsource hmethods, pairwise_placeAll hsource hmethods⟩
    · rw [hnil]
      exact ⟨.nil, .nil⟩

theorem GrammarReader.verbatim_of_extractTextWith {g : GrammarReader} {source : String}
    {c : ClassDescriptor} (h : extractTextWith g.read source = .ok c) :
    ∃ root, parseWith g.read source = .ok root ∧
      List.Forall₂ (fun n m => m.Verbatim source n) (publicMethods root) c.methods ∧
      (publicMethods root).Pairwise fun n n' => n.span.stop ≤ declarationStart source n'.span := by
  obtain ⟨root, hroot, hclass⟩ := extractTextWith_eq_ok.1 h
  exact ⟨root, hroot, verbatim_of_describeClass hroot hclass⟩

/-- **Extraction is verbatim.** Whatever is extracted from a source describes the public methods of
its class in order, each as it stands in the source, and the texts of different methods do not
overlap. So it is for every way of reading sources by the rules of the language, and for that of
this library. -/
theorem extractText_verbatim (source : String) :
    (∀ (g : GrammarReader) (c : ClassDescriptor), extractTextWith g.read source = .ok c →
      ∃ root, parseWith g.read source = .ok root ∧
        List.Forall₂ (fun n m => m.Verbatim source n) (publicMethods root) c.methods ∧
        (publicMethods root).Pairwise fun n n' =>
          n.span.stop ≤ declarationStart source n'.span) ∧
      ((∃ e, extractText source = .error e) ∨
        ∃ c root, extractText source = .ok c ∧ parseSource source = .ok root ∧
          List.Forall₂ (fun n m => m.Verbatim source n) (publicMethods root) c.methods ∧
          (publicMethods root).Pairwise fun n n' =>
            n.span.stop ≤ declarationStart source n'.span) := by
  refine ⟨fun g c h => g.verbatim_of_extractTextWith h, ?_⟩
  have hall := error_or_exists fun c (h : extractText source = .ok c) =>
    grammarReader.verbatim_of_extractTextWith h
  rcases hall with herror | ⟨c, hc, root, hroot, hverbatim⟩
  · exact .inl herror
  · exact .inr ⟨c, root, hc, hroot, hverbatim⟩

/-- The one method of a program is told verbatim. -/
theorem extractText_verbatim_sample :
    ∃ c root, extractTextWith sampleGrammarReader.read (sampleProgram "") = .ok c ∧
      parseWith sampleGrammarReader.read (sampleProgram "") = .ok root ∧
      c.methods.map (·.name) = ["f"] ∧
      List.Forall₂ (fun n m => m.Verbatim (sampleProgram "") n) (publicMethods root) c.methods ∧
      (publicMethods root).Pairwise fun n n' =>
        n.span.stop ≤ declarationStart (sampleProgram "") n'.span := by
  obtain ⟨c, hc, -, -, hmethods⟩ := exists_extractTextWith_sampleProgram
  obtain ⟨root, hroot, hverbatim⟩ := (extractText_verbatim _).1 sampleGrammarReader c hc
  exact ⟨c, root, hc, hroot, hmethods, hverbatim⟩

end DocBlocks
