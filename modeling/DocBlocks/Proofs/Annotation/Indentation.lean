import DocBlocks.Proofs.Annotation.Twice
import DocBlocks.Proofs.Controller.Extract
import DocBlocks.Proofs.Syntax.GrammarReader

/-!
# The indentation of a method

`indentationAfter_of_parseSource`: where only spaces and tabs stand in front of a method in its
line, the text of its declaration begins with them, and the layout in front of the method tells the
same indentation, unless a comment took the line break along (`takesBreak`). Then the layout tells
none.

Layout holds the line break in front of a method as long as the node before the layout ends with
ink. `Ended`, `EndsMarkup` and `CommentText` say so of members, islands and comments.
-/

namespace DocBlocks

/-- Whether the line break in front of a place belongs to a comment. The nodes in front of the place
are given nearest first. -/
def takesBreak : List Node → Bool
  | [] => false
  | n :: ns =>
    if n.kind = .trivia then !n.text.toList.contains '\n' && takesBreak ns
    else n.kind == .comment && n.text.toList.getLast? == some '\n'

/-- What stands in front of a node in its line. -/
def lineFront (source : String) (n : Node) : List Char :=
  lastLine (splitBytes n.span.start source.toList).1

/-! ### Lines that begin with ink -/

section Lines

variable {before text between text' after : List Char}

/-- No indentation of a method begins behind an island in its line. -/
theorem EndsMarkup.not_all_isIndent (h : EndsMarkup text (between ++ text' ++ after))
    (h' : Framed text' after) (hbetween : '\n' ∉ between) :
    ¬(lastLine (before ++ text ++ between)).all isIndent = true := by
  rcases h with ⟨cs, c, rfl, hc⟩ | hnull
  · have hindent : isIndent c = false := by
      by_contra hindent
      simp [isAsciiBlank_of_isIndent (by simpa using hindent)] at hc
    have hne : c ≠ '\n' := by
      rintro rfl
      exact absurd hc (by decide)
    exact not_all_isIndent_of_ink hindent hne hbetween
  · -- what stands behind the blanks is a declaration, so it is something
    intro hline
    obtain ⟨d, ds, rfl, hd⟩ := h'.front
    have hblank : ∀ c ∈ between, isAsciiBlank c = true :=
      fun c hc => isAsciiBlank_of_isIndent ((all_isIndent_append hbetween hline).2 c hc)
    have hopener : isAsciiBlank d = false ∧ isNull d = false := by
      rcases hd with rfl | hd
      · decide
      · refine ⟨isAsciiBlank_of_isNameStart hd, ?_⟩
        by_contra hnull
        have hzero : d.toNat = 0 := by simpa [isNull] using hnull
        obtain rfl : d = '\x00' := Char.toNat_inj.1 hzero
        exact absurd hd (by decide)
    rw [List.append_assoc, dropWhile_append_of_all (List.all_eq_true.2 hblank), List.cons_append,
      List.dropWhile_cons_of_neg (by simp [hopener.1])] at hnull
    have hfirst := hnull d rfl
    simp [hopener.2] at hfirst

/-- Nor does one begin behind a comment that leaves the line break alone. -/
theorem CommentText.not_all_isIndent (h : CommentText text) (hlast : text.getLast? ≠ some '\n')
    (hbetween : '\n' ∉ between) :
    ¬(lastLine (before ++ text ++ between)).all isIndent = true := by
  cases h with
  | block body =>
    have htext : '/' :: '*' :: body ++ ['*', '/'] = ('/' :: '*' :: body ++ ['*']) ++ ['/'] := by
      simp
    rw [htext]
    exact not_all_isIndent_of_ink (by decide) (by decide) hbetween
  | @line mark body tail opens unbroken closes =>
    obtain rfl : tail = [] := by
      simp only [List.mem_cons, List.not_mem_nil, or_false] at closes
      rcases closes with rfl | rfl | rfl
      · rfl
      · simp at hlast
      · simp at hlast
    -- the mark stands in the same line as what is behind the comment
    have hrest : '\n' ∉ body ++ between := by simp [unbroken, hbetween]
    obtain ⟨cs, c, rfl, hc, hne⟩ : ∃ cs c, mark = cs ++ [c] ∧ isIndent c = false ∧ c ≠ '\n' := by
      rcases opens with rfl | rfl
      · exact ⟨[], '#', rfl, by decide, by decide⟩
      · exact ⟨['/'], '/', rfl, by decide, by decide⟩
    have hcut : before ++ (cs ++ [c] ++ body ++ []) ++ between =
        before ++ (cs ++ [c]) ++ (body ++ between) := by simp
    rw [hcut]
    exact not_all_isIndent_of_ink hc hne hrest

end Lines

/-! ### Beside a method -/

section Siblings

variable {before after : List Char}

/-- **Where layout in front of a method has no line break** although the method begins its line, a
comment in front of the layout has it. -/
theorem Node.comment_of_inHouse {y : Node} {between text' : List Char} (hy : y.InHouse)
    (hkind : y.kind ≠ .trivia) (hends : y.MemberEnds (between ++ text' ++ after))
    (hshape : y.ExtraShaped (between ++ text' ++ after)) (h' : Framed text' after)
    (hbetween : '\n' ∉ between)
    (hline : (lastLine (before ++ y.text.toList ++ between)).all isIndent = true) :
    y.kind = .comment ∧ y.text.toList.getLast? = some '\n' := by
  rcases hy with htrivia | hcomment | hisland | hmember | hbrace
  · exact absurd htrivia hkind
  · refine ⟨hcomment, ?_⟩
    by_contra hlast
    exact (hshape.1 hcomment).not_all_isIndent hlast hbetween hline
  · exact absurd hline ((hshape.2 hisland).not_all_isIndent h' hbetween)
  · exact absurd hline ((hends.1 hmember).not_all_isIndent h' hbetween)
  · have hink : ∃ c, y.text.toList = [] ++ [c] ∧ isIndent c = false ∧ c ≠ '\n' := by
      simp only [braces, List.mem_cons, List.not_mem_nil, or_false] at hbrace
      rcases hbrace with htext | htext
      · exact ⟨'\x7b', by rw [htext]; rfl, by decide, by decide⟩
      · exact ⟨'\x7d', by rw [htext]; rfl, by decide, by decide⟩
    obtain ⟨c, htext, hc, hne⟩ := hink
    rw [htext] at hline
    exact absurd hline (not_all_isIndent_of_ink hc hne hbetween)

theorem indentationAfter_of_mem {n : Node} {ns : List Node} (hkind : n.kind = .trivia)
    (hbreak : '\n' ∈ n.text.toList) (hline : (lastLine n.text.toList).all isIndent = true) :
    indentationAfter (n :: ns) = String.ofList (lastLine n.text.toList) := by
  have hall : ∀ c ∈ lastLine n.text.toList, isIndent c = true := List.all_eq_true.1 hline
  simp only [indentationAfter, if_pos hkind, List.contains_iff_mem.2 hbreak, if_true]
  exact congrArg String.ofList (List.takeWhile_eq_self_iff.2 hall)

theorem indentationAfter_of_not_mem {n : Node} {ns : List Node} (hbreak : '\n' ∉ n.text.toList) :
    indentationAfter (n :: ns) = "" := by
  simp [indentationAfter, hbreak]

/-- The node that comes in front of the layout, among the children of its parent. -/
theorem comment_of_surveyed {p m y : Node} {us ts ys : List Node}
    (hp : p.Along Node.Surveyed after) (hchildren : p.children = us ++ y :: ts ++ m :: ys)
    (hm : m.kind = .method) (hy : y.kind ≠ .trivia) (hts : '\n' ∉ (Node.textAll ts).toList)
    (hline : (lastLine (before ++ (Node.textAll (us ++ y :: ts)).toList)).all isIndent = true) :
    y.kind = .comment ∧ y.text.toList.getLast? = some '\n' := by
  obtain ⟨hsurveyed, halong⟩ := Node.along_iff.1 hp
  have hhoused := hsurveyed.housed m (by simp [hchildren]) hm
  rw [hchildren, List.append_assoc, List.cons_append] at halong
  have hlast := (Node.alongAll_append.1 halong).2
  have hmethod := (Node.along_iff.1 (Node.alongAll_append.1 hlast.2).2.1).1
  have hown := (Node.along_iff.1 hlast.1).1
  have hcut : (Node.textAll (ts ++ m :: ys)).toList ++ after = (Node.textAll ts).toList ++
      m.text.toList ++ ((Node.textAll ys).toList ++ after) := by
    simp [Node.textAll_append]
  rw [hcut] at hown
  have hfront : (lastLine (before ++ (Node.textAll us).toList ++ y.text.toList ++
      (Node.textAll ts).toList)).all isIndent = true := by
    simpa [Node.textAll_append] using hline
  exact Node.comment_of_inHouse (hhoused.2 y (by simp [hchildren])) hy hown.memberEnds
    hown.extraShaped (hmethod.memberEnds.2 hm) hts hfront

/-- **The layout in front of a method tells its indentation**, or a comment has its line break. -/
theorem indentationAfter_of_surveyed {p m : Node} {xs ys : List Node}
    (hp : p.Along Node.Surveyed after) (hchildren : p.children = xs ++ m :: ys)
    (hm : m.kind = .method)
    (hline : (lastLine (before ++ (Node.textAll xs).toList)).all isIndent = true) :
    indentationAfter xs.reverse = if takesBreak xs.reverse then ""
      else String.ofList (lastLine (before ++ (Node.textAll xs).toList)) := by
  have hsurveyed := (Node.along_iff.1 hp).1
  obtain ⟨⟨d, ds, hds, hd, -⟩, -⟩ := hsurveyed.housed m (by simp [hchildren]) hm
  have hgaps := hsurveyed.gapsClosed
  rw [hchildren] at hgaps hds
  -- in front of the method stands a brace at least
  rcases List.eq_nil_or_concat xs with rfl | ⟨ws, x, rfl⟩
  · obtain ⟨rfl, -⟩ := List.cons.inj hds
    simp [hm] at hd
  rw [List.concat_eq_append] at hline hds hgaps hchildren ⊢
  rw [List.reverse_append, List.reverse_singleton, List.singleton_append]
  by_cases hx : x.kind = .trivia
  · by_cases hmem : '\n' ∈ x.text.toList
    · have hlast : lastLine (before ++ (Node.textAll (ws ++ [x])).toList) =
          lastLine x.text.toList := by
        have htext : before ++ (Node.textAll (ws ++ [x])).toList =
            (before ++ (Node.textAll ws).toList) ++ x.text.toList := by
          simp [Node.textAll_append]
        rw [htext, lastLine_append_of_mem hmem]
      rw [hlast] at hline ⊢
      rw [indentationAfter_of_mem hx hmem hline]
      simp [takesBreak, hx, hmem]
    · -- the layout has no line break, so the node in front of it is a comment that has
      rw [indentationAfter_of_not_mem hmem]
      rcases List.eq_nil_or_concat ws with rfl | ⟨us, y, rfl⟩
      · obtain ⟨rfl, -⟩ := List.cons.inj hds
        simp [hx] at hd
      rw [List.concat_eq_append] at hgaps hchildren hline ⊢
      have hy : y.kind ≠ .trivia := by
        intro hy
        have hchain := hgaps.apart
        rw [List.append_assoc, List.append_assoc, List.singleton_append, List.singleton_append,
          List.isChain_append_cons_cons] at hchain
        exact hchain.2.1 ⟨hy, hx⟩
      rw [List.append_assoc us] at hchildren hline
      obtain ⟨hcomment, hlast⟩ :=
        comment_of_surveyed hp hchildren hm hy (by simpa using hmem) hline
      simp [takesBreak, hx, hmem, hcomment, hlast]
  · rw [indentationAfter_of_ne hx]
    obtain ⟨hcomment, hlast⟩ := comment_of_surveyed hp hchildren hm hx (by simp) hline
    simp [takesBreak, hcomment, hlast]

end Siblings

/-! ### The methods of a source -/

section Piece

variable {source : String} {before after : List Char} {m : Node}

theorem lineFront_place (h : source.toList = before ++ m.text.toList ++ after) :
    lineFront source (m.place (.ofText source) (byteLength before)) = lastLine before := by
  have hsplit : (splitBytes (byteLength before) source.toList).1 = before := by
    rw [h, List.append_assoc, splitBytes_byteLength]
  rw [lineFront, Node.span_place, ← byteLength_append, LineIndex.span_ofText h, hsplit]

/-- The text of a declaration begins with what stands in front of it in its line, if that is an
indentation. -/
theorem declarationSource_place (h : source.toList = before ++ m.text.toList ++ after)
    (hline : (lastLine before).all isIndent = true) :
    declarationSource source (m.place (.ofText source) (byteLength before)).span =
      String.ofList (lastLine before) ++ m.text := by
  have hspan := Node.span_place (.ofText source) (byteLength before) m
  rw [← byteLength_append, LineIndex.span_ofText h] at hspan
  have hsource := toList_declarationSource h (congrArg Span.start hspan) (congrArg Span.stop hspan)
  rw [indentBehind, if_pos hline] at hsource
  apply String.toList_inj.1
  rw [hsource, String.toList_append, String.toList_ofList]

end Piece

theorem takesBreak_map_bare (ns : List Node) : takesBreak (ns.map Node.bare) = takesBreak ns := by
  induction ns with
  | nil => rfl
  | cons n ns ih => simp [takesBreak, ih]

/-- Whether the indentation of the methods in a tree is told where only spaces and tabs stand in
front of them in their lines: the text of the declaration begins with them, and the layout in front
of the method tells them, unless a comment has taken the line break along. -/
def TellsIndentation (source : String) (root : Node) : Prop :=
  ∀ p ∈ root.descendants, ∀ xs m ys, p.children = xs ++ m :: ys → m.kind = .method →
    (lineFront source m).all isIndent = true →
      declarationSource source m.span = String.ofList (lineFront source m) ++ m.text ∧
        indentationAfter xs.reverse =
          if takesBreak xs.reverse then "" else String.ofList (lineFront source m)

theorem GrammarReader.tellsIndentation {g : GrammarReader} {source : String} {root : Node}
    (h : parseWith g.read source = .ok root) : TellsIndentation source root := by
  intro p hp xs m ys hchildren hm hline
  -- the method stands behind the text in front of its parent and that of its elder siblings
  obtain ⟨p, front, back, htext, rfl, hsurveyed⟩ := exists_of_mem_descendants h hp
  rw [Node.children_place] at hchildren
  obtain ⟨xs, m, ys, hp', rfl, rfl⟩ := Node.exists_split_of_placeAll hchildren
  rw [Node.kind_place] at hm
  have hpiece : source.toList = (front ++ (Node.textAll xs).toList) ++ m.text.toList ++
      ((Node.textAll ys).toList ++ back) := by
    cases p with
    | leaf l t => simp at hp'
    | branch l cs =>
      rw [Node.children_branch] at hp'
      simp [htext, hp', Node.textAll_append]
  rw [← byteLength_append, lineFront_place hpiece] at hline
  rw [← byteLength_append, lineFront_place hpiece, Node.text_place]
  refine ⟨declarationSource_place hpiece hline, ?_⟩
  -- neither the layout nor the comments are other ones where they have got to
  have hbare : (Node.placeAll (.ofText source) (byteLength front) xs).reverse.map Node.bare =
      xs.reverse.map Node.bare := by
    simp [List.map_reverse, Node.map_bare_placeAll]
  rw [← indentationAfter_map_bare, ← takesBreak_map_bare, hbare, indentationAfter_map_bare,
    takesBreak_map_bare]
  exact indentationAfter_of_surveyed hsurveyed hp' hm hline

/-- **The indentation of methods.** In the tree of a source, where only spaces and tabs stand in
front of a method in its line, the text of its declaration begins with them, and the layout in front
of it tells them as its indentation. Only where a comment has taken the line break along, the layout
tells none. -/
theorem indentationAfter_of_parseSource (source : String) :
    (∀ (g : GrammarReader) (root : Node), parseWith g.read source = .ok root →
      TellsIndentation source root) ∧
      ((∃ e, parseSource source = .error e) ∨
        ∃ root, parseSource source = .ok root ∧ TellsIndentation source root) := by
  exact ⟨fun g root h => g.tellsIndentation h,
    error_or_exists fun root h => grammarReader.tellsIndentation h⟩

/-- The indentation of the method in a program is told. -/
theorem indentationAfter_of_parseSource_sample :
    parseWith sampleGrammarReader.read (sampleProgram "") = .ok sampleProgramTree ∧
      (∃ m ∈ sampleProgramTree.descendants, m.kind = .method ∧
        lineFront (sampleProgram "") m = [' ', ' ', ' ', ' ']) ∧
      TellsIndentation (sampleProgram "") sampleProgramTree := by
  refine ⟨parseWith_sampleProgram, by decide +kernel, ?_⟩
  exact (indentationAfter_of_parseSource _).1 sampleGrammarReader _ parseWith_sampleProgram

/-- A question mark at the end of a comment takes the line break along. -/
example : takesBreak [.trivia "    " .nowhere, .comment "// why?\n" .nowhere] = true := by decide

end DocBlocks
