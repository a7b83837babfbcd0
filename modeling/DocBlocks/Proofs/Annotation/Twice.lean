import DocBlocks.Proofs.Annotation.Code

/-!
# Writing documentation twice

`SourceReader.writeDocsWith_twice`: documentation that was written is found again and replaced by
itself, so writing it once more changes nothing, if comments are extras and no text that is used
closes early.

* `annotate_annotate`: an annotated tree stays as it is when it is annotated again, also with
  another line break, if the first one does not show anywhere.
* `newlineOf_eq_of_edited`: written documentation brings in no carriage returns that were not there,
  so the second time the line break is the same or does not matter.
-/

namespace DocBlocks

variable {docs : DocMap} {newline newline' : String}

/-! ### Trees without spans -/

theorem docFor?_bare (n : Node) : docFor? docs n.bare = docFor? docs n := by
  simp only [docFor?, Node.kind_bare, Node.childByField?, Node.children_bare, List.find?_map]
  split
  · have hfield : (fun c : Node => c.field == some "name") ∘ Node.bare =
        fun c => c.field == some "name" := by
      funext c
      simp
    rw [hfield]
    cases n.children.find? fun c => c.field == some "name" <;> simp
  · rfl

theorem docCommentBefore?_map_bare (ns : List Node) :
    Node.docCommentBefore? (ns.map Node.bare) =
      (Node.docCommentBefore? ns).map fun x => (x.1, x.2.bare) := by
  induction ns with
  | nil => rfl
  | cons n ns ih =>
    by_cases hk : n.kind = .trivia
    · rw [List.map_cons, Node.docCommentBefore?_cons_of_trivia (by simpa using hk), ih,
        Node.docCommentBefore?_cons_of_trivia hk, Option.map_map, Option.map_map]
      rfl
    · rw [List.map_cons, Node.docCommentBefore?_cons_of_ne (by simpa using hk),
        Node.docCommentBefore?_cons_of_ne hk, isDocComment_bare]
      split <;> rfl

theorem indentationAfter_map_bare (ns : List Node) :
    indentationAfter (ns.map Node.bare) = indentationAfter ns := by
  cases ns with
  | nil => rfl
  | cons n ns => simp [indentationAfter]

theorem span_bare (n : Node) : n.bare.span = .nowhere := by
  cases n <;> rfl

theorem map_bare_attachBefore (ns : List Node) (m : Node) (doc newline : String) :
    (attachBefore ns m doc newline).map Node.bare =
      attachBefore (ns.map Node.bare) m.bare doc newline := by
  simp only [attachBefore, docCommentBefore?_map_bare, indentationAfter_map_bare, span_bare]
  cases Node.docCommentBefore? ns with
  | none => rfl
  | some x => simp [bare_withText]

theorem map_bare_attachAll (nearestFirst ns : List Node) :
    (attachAll docs newline nearestFirst ns).map Node.bare =
      attachAll docs newline (nearestFirst.map Node.bare) (ns.map Node.bare) := by
  induction ns generalizing nearestFirst with
  | nil => rfl
  | cons n ns ih =>
    simp only [attachAll, List.map_cons, docFor?_bare]
    split
    · rw [ih, List.map_cons, map_bare_attachBefore]
    · rw [ih, List.map_cons]

theorem annotateAll_eq_map (ns : List Node) :
    annotateAll docs newline ns = ns.map (annotate docs newline) := by
  induction ns with
  | nil => rfl
  | cons n ns ih => simp [annotateAll, ih]

/-- **Spans do not matter for annotating.** -/
theorem bare_annotate (n : Node) :
    (annotate docs newline n).bare = annotate docs newline n.bare := by
  induction n using Node.treeInduction with
  | leaf l t => rfl
  | branch l cs ih =>
    have hcs : (cs.map (annotate docs newline)).map Node.bare =
        (cs.map Node.bare).map (annotate docs newline) := by
      rw [List.map_map, List.map_map]
      exact List.map_congr_left ih
    simp only [annotate_branch, Node.bare, Node.bareAll_eq_map, annotateAll_eq_map,
      List.map_reverse, map_bare_attachAll, hcs, List.map_nil]

/-! ### Annotating twice -/

theorem attachAll_append (nearestFirst xs ys : List Node) :
    attachAll docs newline nearestFirst (xs ++ ys) =
      attachAll docs newline (attachAll docs newline nearestFirst xs) ys := by
  induction xs generalizing nearestFirst with
  | nil => rfl
  | cons x xs ih =>
    simp only [List.cons_append, attachAll]
    split <;> exact ih _

/-- Leaves are passed over. -/
theorem attachAll_leaves {ts : List Node} (h : ∀ t ∈ ts, t.isLeaf = true)
    (nearestFirst : List Node) :
    attachAll docs newline nearestFirst (ts.map (annotate docs newline)) =
      ts.reverse ++ nearestFirst := by
  induction ts generalizing nearestFirst with
  | nil => rfl
  | cons t ts ih =>
    have ht := h t List.mem_cons_self
    simp [attachAll, annotate_of_isLeaf ht, docFor?_of_isLeaf ht,
      ih fun u hu => h u (List.mem_cons_of_mem _ hu)]

/-- The indentation of a line that was put in. -/
theorem indentationAfter_trivia {indent : String} (hn : IsNewline newline)
    (hi : IsIndentation indent.toList) (s : Span) (ns : List Node) :
    indentationAfter (.trivia (newline ++ indent) s :: ns) = indent := by
  have hmem : '\n' ∈ newline.toList := by rcases hn with rfl | rfl <;> decide
  obtain ⟨front, hfront⟩ : ∃ front, newline.toList = front ++ ['\n'] := by
    rcases hn with rfl | rfl
    · exact ⟨[], rfl⟩
    · exact ⟨['\r'], rfl⟩
  have hblank : ∀ c ∈ indent.toList, (c != '\n') = true ∧ (c == ' ' || c == '\t') = true := by
    intro c hc
    rcases hi c hc with rfl | rfl <;> decide
  -- the last line of the layout is the indentation, and blanks and tabs is all it is
  have hline : ((newline ++ indent).toList.reverse.takeWhile (· != '\n')).reverse =
      indent.toList := by
    rw [String.toList_append, hfront, List.reverse_append, List.reverse_append,
      List.takeWhile_append_of_pos (by simpa using fun c hc => (hblank c hc).1)]
    simp
  have hall : indent.toList.takeWhile (fun c => c == ' ' || c == '\t') = indent.toList := by
    rw [List.takeWhile_eq_self_iff]
    exact fun c hc => (hblank c hc).2
  simp only [indentationAfter, Node.kind_trivia, Node.text_trivia, if_true]
  rw [if_pos (by simp [hmem]), hline, hall, String.ofList_toList]

theorem isDocComment_leaf_renderBlock {l : Label} (hl : l.kind = .comment) {indent : String}
    (hi : IsIndentation indent.toList) (doc newline : String) :
    (Node.leaf l (renderBlock doc indent newline)).isDocComment = true := by
  obtain ⟨rest, hrest⟩ := exists_toList_renderBlock hi doc newline
  simp [Node.isDocComment, Node.leafText?, hl, hrest, blockOpening]

/-- Trivia in front of a comment are looked at in the same way whatever the comment is. -/
theorem indentationAfter_append_cons {ts ns ns' : List Node} {c c' : Node}
    (hc : c.kind = .comment) (hc' : c'.kind = .comment) :
    indentationAfter (ts ++ c :: ns) = indentationAfter (ts ++ c' :: ns') := by
  cases ts with
  | nil => rw [List.nil_append, List.nil_append, indentationAfter_of_ne (by simp [hc]),
      indentationAfter_of_ne (by simp [hc'])]
  | cons t ts => rfl

theorem attachAll_singleton {n : Node} (nearestFirst : List Node) (h : docFor? docs n = none) :
    attachAll docs newline nearestFirst [n] = n :: nearestFirst := by
  simp [attachAll, h]

/-- **A block that was attached is replaced by itself**, with the trivia between it and its method
left alone. -/
theorem attachAll_block {ts nearestFirst : List Node} {l : Label} {m : Node}
    {name doc indent : String} (hts : ∀ t ∈ ts, t.kind = .trivia ∧ t.isLeaf = true)
    (hl : l.kind = .comment) (hi : IsIndentation indent.toList)
    (hindent : indentationAfter
      (ts.reverse ++ .leaf l (renderBlock doc indent newline) :: nearestFirst) = indent)
    (hblock : renderBlock doc indent newline' = renderBlock doc indent newline)
    (hm : docFor? docs m = some (name, doc)) (hself : annotate docs newline' m = m) :
    attachAll docs newline' nearestFirst
        ((.leaf l (renderBlock doc indent newline) :: ts ++ [m]).map (annotate docs newline')) =
      m :: (ts.reverse ++ .leaf l (renderBlock doc indent newline) :: nearestFirst) := by
  have hleaf : ∀ t ∈ .leaf l (renderBlock doc indent newline) :: ts, t.isLeaf = true := by
    intro t ht
    rcases List.mem_cons.1 ht with rfl | ht
    · rfl
    · exact (hts t ht).2
  have hbefore : attachBefore
      (ts.reverse ++ .leaf l (renderBlock doc indent newline) :: nearestFirst) m doc newline' =
        ts.reverse ++ .leaf l (renderBlock doc indent newline) :: nearestFirst := by
    rw [attachBefore_of_docComment (fun t ht => (hts t (List.mem_reverse.1 ht)).1)
      (isDocComment_leaf_renderBlock hl hi doc newline), hindent, hblock]
    rfl
  rw [List.map_append, attachAll_append, attachAll_leaves hleaf, List.map_singleton, hself,
    List.reverse_cons, List.append_assoc, List.singleton_append]
  simp [attachAll, hm, hbefore]

/-- **Attached children are attached to themselves.** -/
theorem Attached.attachAll_eq {xs ys : List Node} (h : Attached docs newline xs ys)
    (hn : IsNewline newline) (hregular : ∀ c ∈ xs, c.Regular)
    (hchild : ∀ c ∈ xs, annotate docs newline' (annotate docs newline c) = annotate docs newline c)
    (hnewline : newline' = newline ∨ ¬ newline.toList <:+: (Node.textAll ys).toList) :
    attachAll docs newline' [] (ys.map (annotate docs newline')) = ys.reverse := by
  have hpiece : ∀ {zs front back : List Node}, zs = front ++ back →
      (newline' = newline ∨ ¬ newline.toList <:+: (Node.textAll zs).toList) →
      newline' = newline ∨ ¬ newline.toList <:+: (Node.textAll front).toList := by
    rintro zs front back rfl hzs
    refine hzs.imp_right fun hnot hfront => hnot (hfront.trans ?_)
    rw [Node.textAll_append, String.toList_append]
    exact (List.prefix_append _ _).isInfix
  induction h with
  | nil => rfl
  | @keep xs ys n hxs hdoc ih =>
    have hfront := ih (fun c hc => hregular c (by simp [hc])) (fun c hc => hchild c (by simp [hc]))
      (hpiece rfl hnewline)
    rw [List.map_append, attachAll_append, hfront, List.map_singleton, hchild n (by simp),
      attachAll_singleton _ (by rw [docFor?_annotate (hregular n (by simp)), hdoc])]
    simp
  | @insert xs ys m name doc hxs hdoc hlook ih =>
    have hi := isIndentation_indentationAfter xs.reverse
    have hfront := ih (fun c hc => hregular c (by simp [hc])) (fun c hc => hchild c (by simp [hc]))
      (hpiece rfl hnewline)
    -- the line break in front of the method shows, so it is the same
    obtain rfl : newline' = newline := by
      refine hnewline.resolve_right fun hnot => hnot ?_
      refine ⟨(Node.textAll ys).toList ++
        (renderBlock doc (indentationAfter xs.reverse) newline).toList,
        (indentationAfter xs.reverse).toList ++ (annotate docs newline m).text.toList, ?_⟩
      simp [Node.textAll_append]
    have hm : docFor? docs (annotate docs newline' m) = some (name, doc) := by
      rw [docFor?_annotate (hregular m (by simp)), hdoc]
    have htrivia : ∀ t ∈ [Node.trivia (newline' ++ indentationAfter xs.reverse) m.span.before],
        t.kind = .trivia ∧ t.isLeaf = true := by
      simp [Node.trivia, Node.isLeaf]
    have hlabel : Label.kind ⟨.comment, "comment", none, m.span.before⟩ = .comment := rfl
    have hagain := attachAll_block htrivia hlabel hi
      (indentationAfter_trivia hn hi _ (_ :: ys.reverse)) rfl hm (hchild m (by simp))
    rw [List.map_append, attachAll_append, hfront]
    simpa [Node.comment] using hagain
  | @replace xs ys ts c m name doc hxs hdoc hc hts ih =>
    have hi := isIndentation_indentationAfter (xs ++ c :: ts).reverse
    have hk := Node.kind_of_isDocComment hc
    -- a block on several lines shows the line break, and one on a single line has none
    have hblock : renderBlock doc (indentationAfter (xs ++ c :: ts).reverse) newline' =
        renderBlock doc (indentationAfter (xs ++ c :: ts).reverse) newline := by
      rcases hnewline with rfl | hnot
      · rfl
      · refine renderBlock_congr newline' fun hblock => hnot (hblock.trans ?_)
        refine ⟨(Node.textAll ys).toList,
          (Node.textAll ts).toList ++ (annotate docs newline m).text.toList, ?_⟩
        simp [Node.textAll_append, Node.text_withText]
    have hnewline' := hpiece (List.append_assoc _ _ _) hnewline
    have hfront := ih (fun d hd => hregular d (by simp [hd])) (fun d hd => hchild d (by simp [hd]))
      hnewline'
    have hm : docFor? docs (annotate docs newline m) = some (name, doc) := by
      rw [docFor?_annotate (hregular m (by simp)), hdoc]
    have hindent : indentationAfter (ts.reverse ++ .leaf c.label (renderBlock doc
        (indentationAfter (xs ++ c :: ts).reverse) newline) :: ys.reverse) =
          indentationAfter (xs ++ c :: ts).reverse := by
      have hreverse : (xs ++ c :: ts).reverse = ts.reverse ++ c :: xs.reverse := by simp
      rw [hreverse]
      exact indentationAfter_append_cons hk hk
    have hagain := attachAll_block hts hk hi hindent hblock hm (hchild m (by simp))
    rw [List.append_assoc, List.map_append, attachAll_append, hfront]
    simpa [Node.withText] using hagain

theorem Attached.annotate_mem {xs ys : List Node} (h : Attached docs newline xs ys) {c : Node}
    (hc : c ∈ xs) (hbranch : c.isLeaf = false) : annotate docs newline c ∈ ys := by
  induction h with
  | nil => simp at hc
  | @keep xs ys n hxs hdoc ih =>
    rcases List.mem_append.1 hc with hc | hc
    · exact List.mem_append_left _ (ih hc)
    · simp [List.mem_singleton.1 hc]
  | @insert xs ys m name doc hxs hdoc hlook ih =>
    rcases List.mem_append.1 hc with hc | hc
    · exact List.mem_append_left _ (ih hc)
    · simp [List.mem_singleton.1 hc]
  | @replace xs ys ts d m name doc hxs hdoc hd hts ih =>
    simp only [List.mem_append, List.mem_cons, List.not_mem_nil, or_false] at hc
    rcases hc with (hc | rfl | hc) | rfl
    · simp [ih hc]
    · simp [Node.isLeaf_of_isDocComment hd] at hbranch
    · simp [(hts c hc).2] at hbranch
    · simp

theorem isInfix_text_of_mem {n : Node} {ns : List Node} (h : n ∈ ns) :
    n.text.toList <:+: (Node.textAll ns).toList := by
  obtain ⟨front, back, rfl⟩ := List.append_of_mem h
  exact ⟨(Node.textAll front).toList, (Node.textAll back).toList, by simp [Node.textAll_append]⟩

/-- **An annotated tree stays as it is when it is annotated again**, also with another line break,
if the first one does not show. -/
theorem annotate_annotate {n : Node} (h : n.Regular) (hn : IsNewline newline)
    (hnewline : newline' = newline ∨
      ¬ newline.toList <:+: (annotate docs newline n).text.toList) :
    annotate docs newline' (annotate docs newline n) = annotate docs newline n := by
  induction n using Node.treeInduction with
  | leaf l t => rfl
  | branch l cs ih =>
    have hcs : Attached docs newline cs (annotate docs newline (.branch l cs)).children :=
      attached_annotate h
    have hchild : ∀ c ∈ cs,
        annotate docs newline' (annotate docs newline c) = annotate docs newline c := by
      intro c hc
      cases hleaf : c.isLeaf with
      | true => rw [annotate_of_isLeaf hleaf, annotate_of_isLeaf hleaf]
      | false =>
        refine ih c hc (h.of_mem_children hc) (hnewline.imp_right fun hnot hin => hnot ?_)
        exact hin.trans (isInfix_text_of_mem (hcs.annotate_mem hc hleaf))
    have hagain := hcs.attachAll_eq hn (fun c hc => h.of_mem_children hc) hchild hnewline
    simp only [annotate_branch, Node.children_branch] at hagain ⊢
    rw [annotateAll_eq_map, hagain, List.reverse_reverse]

/-! ### Line breaks of what was written -/

/-- Whether a text can be put in anywhere without a new line break with a carriage return. -/
structure BreaksClean (text : List Char) : Prop where
  apart : Apart '\r' '\n' text
  ne_nil : text ≠ []
  head : text.head? ≠ some '\n'
  last : text.getLast? ≠ some '\r'

theorem Edited.apart {offset : Nat} {before after : List Char} {es : List Edit}
    (h : Edited offset before es after) (hbefore : Apart '\r' '\n' before)
    (hes : ∀ e ∈ es, BreaksClean e.text.toList) : Apart '\r' '\n' after := by
  induction h with
  | done => exact hbefore
  | @edit offset e es kept gone rest after hstart hstop hrest ih =>
    have he := hes e List.mem_cons_self
    have hkept : Apart '\r' '\n' kept := hbefore.of_isInfix ⟨[], gone ++ rest, by simp⟩
    have hafter := ih (hbefore.of_isInfix ⟨kept ++ gone, [], by simp⟩)
      fun f hf => hes f (List.mem_cons_of_mem _ hf)
    refine (hkept.append_of_head he.apart he.head).append_of_last hafter ?_
    rw [List.getLast?_append_of_ne_nil _ he.ne_nil]
    exact he.last

theorem breaksClean_renderBlock {indent : String} (hi : IsIndentation indent.toList)
    (doc : String) : BreaksClean (renderBlock doc indent "\n").toList := by
  obtain ⟨rest, hrest⟩ := exists_toList_renderBlock hi doc "\n"
  refine ⟨apart_renderBlock hi doc, ?_, ?_, ?_⟩ <;> rw [hrest]
  · simp [blockOpening]
  · simp [blockOpening]
  · simp [blockClosing]

theorem breaksClean_edit (s : DocSite) : BreaksClean (s.edit "\n").text.toList := by
  have hi : IsIndentation s.indent.toList := isIndentation_indentationAfter s.before
  have hblock : BreaksClean (s.block "\n").toList := breaksClean_renderBlock hi s.doc
  -- a carriage return could only stand at the end of a block, and no block ends with one
  have hreturn : '\r' ∉ '\n' :: s.indent.toList := by
    intro hm
    rcases List.mem_cons.1 hm with h | hm
    · simp at h
    · rcases hi _ hm with h | h <;> simp at h
  cases hcomment : s.comment? with
  | some c =>
    rw [DocSite.edit_of_comment?_eq_some hcomment]
    exact hblock
  | none =>
    have htext : (s.edit "\n").text.toList =
        (s.block "\n").toList ++ '\n' :: s.indent.toList := by
      rw [DocSite.edit_of_comment?_eq_none hcomment]
      simp
    rw [htext]
    refine ⟨hblock.apart.append_of_last (apart_of_not_mem_left hreturn) hblock.last, by simp,
      ?_, ?_⟩
    · rw [List.head?_append_of_ne_nil _ hblock.ne_nil]
      exact hblock.head
    · rw [List.getLast?_append_of_ne_nil _ (by simp)]
      exact fun hlast => hreturn (List.mem_of_getLast? hlast)

/-- **Written documentation brings no line break with a carriage return into a source without
one.** -/
theorem WritesDocs.newlineOf_eq {source output : String} {root : Node}
    (h : WritesDocs docs source root output) (hsource : newlineOf source = "\n") :
    newlineOf output = "\n" := by
  have hapart : Apart '\r' '\n' source.toList := by
    rw [apart_iff_not_isInfix]
    intro hin
    simp [DocBlocks.newlineOf_eq, hin] at hsource
  have hedits : docEdits docs source root = (docSites docs root).map (DocSite.edit "\n") := by
    simp [docEdits, apart_iff_not_isInfix.1 hapart]
  have houtput := h.edited.apart hapart fun e he => by
    rw [hedits] at he
    obtain ⟨s, -, rfl⟩ := List.mem_map.1 he
    exact breaksClean_edit s
  rw [DocBlocks.newlineOf_eq, if_neg (apart_iff_not_isInfix.1 houtput)]

namespace SourceReader

variable {g : SourceReader} {source once : String} {root : Node}

/-- The second time the line break is the same, or that of the first time does not show. -/
theorem newlineOf_eq_or (h : (writeDocsWith g.read source docs).result = .ok once) :
    newlineOf once = newlineOf source ∨ ¬ (newlineOf source).toList <:+: once.toList := by
  rcases isNewline_newlineOf source with hsource | hsource
  · obtain ⟨root, -, hwrites⟩ := SourceReader.writesDocs h
    exact .inl (by rw [hwrites.newlineOf_eq hsource, hsource])
  · by_cases hin : ['\r', '\n'] <:+: once.toList
    · exact .inl (by rw [DocBlocks.newlineOf_eq, if_pos hin, hsource])
    · exact .inr (by rwa [hsource])

/-- **Writing documentation twice is writing it once**, if comments are extras and no text that is
used closes early. -/
theorem writeDocsWith_twice (g : SourceReader) (hg : g.CommentsAreExtras)
    (hroot : parseWith g.read source = .ok root) (hearly : NoneClosesEarly docs root)
    (h : (writeDocsWith g.read source docs).result = .ok once) :
    (writeDocsWith g.read once docs).result = .ok once := by
  have hnewline := newlineOf_eq_or h
  obtain ⟨root', hroot'⟩ := exists_parseWith_of_writeDocsWith h
  obtain ⟨root₀, hroot₀, rfl, -⟩ := writeDocsWith_eq_ok.1 h
  obtain rfl : root = root₀ := Except.ok.inj (hroot.symm.trans hroot₀)
  have hn := isNewline_newlineOf source
  have hbare := bare_of_parseWith_text_annotate hg hroot hn hroot' hearly
  refine writeDocsWith_eq_ok.2 ⟨root', hroot', ?_, .inr ⟨root', hroot'⟩⟩
  set newline' := newlineOf (annotate docs (newlineOf source) root).text
  calc (annotate docs newline' root').text
      = (annotate docs newline' root'.bare).text := by rw [← bare_annotate, Node.text_bare]
    _ = (annotate docs newline' (annotate docs (newlineOf source) root)).text := by
        rw [hbare, ← bare_annotate, Node.text_bare]
    _ = (annotate docs (newlineOf source) root).text := by
        rw [annotate_annotate (regular_of_parseWith hroot) hn hnewline]

/-- A class is documented once, and then stays as it is. -/
theorem writeDocsWith_twice_sample :
    (writeDocsWith sampleReader.read (sampleClass [sampleMethod]).text ⟨[("f", "x")]⟩).result =
        .ok (sampleClass (sampleComment ++ [sampleMethod])).text ∧
      (writeDocsWith sampleReader.read (sampleClass (sampleComment ++ [sampleMethod])).text
          ⟨[("f", "x")]⟩).result = .ok (sampleClass (sampleComment ++ [sampleMethod])).text := by
  have hg := commentsAreExtras_sampleReader
  have h : (writeDocsWith sampleReader.read (sampleClass [sampleMethod]).text
      ⟨[("f", "x")]⟩).result = .ok (sampleClass (sampleComment ++ [sampleMethod])).text := by
    decide +kernel
  obtain ⟨root, hroot, -⟩ := writeDocsWith_eq_ok.1 h
  exact ⟨h, writeDocsWith_twice sampleReader hg hroot (noneClosesEarly_of_entries (by decide) _) h⟩

end SourceReader

end DocBlocks
