import DocBlocks.Proofs.Annotation.Block

/-!
# Blocks rendered again

`renderBlock_renderBlock`: rendering a block again, with another indentation and other line breaks,
gives what rendering its text gives there at once. The first rendering may wrap prose or lay out a
ready block; the second one always finds a ready block.

What carries the proof is the `Layout` of a text: the lines of its block without their indentation.
It depends on the text only (`exists_layout`), its lines are marked and trimmed, and no end is left
inside. So there is nothing to break up, to mark or to trim when the block is rendered again
(`Layout.renderLines_intercalate`).
-/

namespace DocBlocks

/-! ### Lines put together and taken apart -/

/-- A text with a character at its back that is not blank has nothing to trim there. -/
theorem trimBack_eq_self {cs : List Char} (h : ∀ c ∈ cs.getLast?, isBlank c = false) :
    trimBack cs = cs := by
  obtain rfl | ⟨init, c, rfl⟩ := List.eq_nil_or_concat cs
  · rfl
  · have hc : isBlank c = false := h c (by simp)
    rw [List.concat_eq_append, trimBack_append_cons hc]
    rfl

theorem trimFront_eq_nil {cs : List Char} (h : ∀ c ∈ cs, isBlank c = true) : trimFront cs = [] :=
  List.dropWhile_eq_nil_iff.2 h

/-- A text that is not all blank keeps something when it is trimmed. -/
theorem trimBack_ne_nil {cs : List Char} (h : cs.all isBlank = false) : trimBack cs ≠ [] := by
  intro hnil
  have hblank : ∀ c ∈ cs.reverse, isBlank c = true := by
    rw [← List.dropWhile_eq_nil_iff]
    exact List.reverse_eq_nil_iff.1 hnil
  have hall : cs.all isBlank = true :=
    List.all_eq_true.2 fun c hc => hblank c (List.mem_reverse.2 hc)
  rw [h] at hall
  exact absurd hall (by decide)

theorem intercalate_append_cons (sep front line : List Char) (lines : List (List Char)) :
    sep.intercalate ((front ++ line) :: lines) = front ++ sep.intercalate (line :: lines) := by
  cases lines with
  | nil => simp
  | cons l ls => simp [List.intercalate_cons_cons]

/-- A line break behind a line ends that line. -/
theorem linesOf_append_newline {newline : String} (hn : IsNewline newline) {l : List Char}
    (h : EndsClean l) (rest : List Char) :
    linesOf (l ++ (newline.toList ++ rest)) = l :: linesOf rest := by
  induction l with
  | nil =>
    rcases hn with rfl | rfl
    · exact linesOf.eq_3 rest
    · exact linesOf.eq_2 rest
  | cons c l ih =>
    obtain ⟨hmem, hlast⟩ := h
    rw [List.mem_cons, not_or] at hmem
    have hclean : EndsClean l := by
      refine ⟨hmem.2, ?_⟩
      cases l with
      | nil => simp
      | cons d l => rwa [List.getLast?_cons_cons] at hlast
    have hpair : ∀ rest', c = '\r' → l ++ (newline.toList ++ rest) ≠ '\n' :: rest' := by
      rintro rest' rfl heq
      cases l with
      | nil => exact hlast rfl
      | cons d l =>
        obtain rfl : d = '\n' := (List.cons.inj heq).1
        exact hmem.2 List.mem_cons_self
    rw [List.cons_append, linesOf_cons (Ne.symm hmem.1) hpair, ih hclean]
    rfl

/-- **Lines put together are the lines of what they make**, if the last one is not empty. -/
theorem linesOf_intercalate {newline : String} (hn : IsNewline newline)
    {init : List (List Char)} {last : List Char} (h : ∀ l ∈ init ++ [last], EndsClean l)
    (hlast : last ≠ []) :
    linesOf (newline.toList.intercalate (init ++ [last])) = init ++ [last] := by
  induction init with
  | nil =>
    have hclean : EndsClean last := h last (by simp)
    rw [List.nil_append, List.intercalate_singleton]
    exact linesOf_of_not_mem hlast hclean.1
  | cons l init ih =>
    have hclean : EndsClean l := h l (by simp)
    have hrest := ih fun k hk => h k (List.mem_cons_of_mem _ hk)
    have hjoin : newline.toList.intercalate (l :: init ++ [last]) =
        l ++ (newline.toList ++ newline.toList.intercalate (init ++ [last])) := by
      cases init <;> simp [List.intercalate_cons_cons]
    rw [hjoin, linesOf_append_newline hn hclean, hrest]
    rfl

/-- The opening goes to the first line of the text behind it. -/
theorem linesOf_append_of_eq_cons {cs l : List Char} {ls : List (List Char)}
    (h : linesOf cs = l :: ls) : linesOf (blockOpening ++ cs) = (blockOpening ++ l) :: ls := by
  have hcons : ∀ (c : Char) (cs' : List Char), c ≠ '\n' → c ≠ '\r' →
      linesOf (c :: cs') = ontoFirst c (linesOf cs') :=
    fun c cs' hn hr => linesOf_cons hn fun _ hc => absurd hc hr
  simp only [blockOpening, List.cons_append, List.nil_append]
  rw [hcons _ _ (by decide) (by decide), hcons _ _ (by decide) (by decide),
    hcons _ _ (by decide) (by decide), h]
  rfl

/-! ### Ends that are broken up already -/

/-- **Where no end is, nothing is broken up.** -/
theorem escapeTerminators_eq_self {cs : List Char} (h : Apart '*' '/' cs) :
    escapeTerminators cs = cs := by
  fun_induction escapeTerminators cs with
  | case1 cs ih => exact absurd ⟨[], cs, rfl⟩ (apart_iff_not_isInfix.1 h)
  | case2 c cs hpair ih => rw [ih h.tail]
  | case3 => rfl

/-! ### Lines without their indentation -/

/-- A line behind the first one, on an indentation. -/
def indented (indent line : List Char) : List Char := indent ++ ' ' :: line

/-- A line of a ready block, without its indentation. -/
def blockBody (line : List Char) : List Char :=
  match trimChars line with
  | [] => ['*']
  | c :: cs => if c = '*' then c :: cs else '*' :: ' ' :: c :: cs

/-- A line of prose, without its indentation. -/
def proseBody (line : List Char) : List Char :=
  if line.all isBlank then ['*'] else '*' :: ' ' :: trimBack line

/-- Whether a line has its mark in front and no blank at its back. -/
def Marked (line : List Char) : Prop :=
  line.head? = some '*' ∧ ∀ c ∈ line.getLast?, isBlank c = false

theorem blockLine_eq_indented (indent line : List Char) :
    blockLine indent line = indented indent (blockBody line) := by
  unfold blockLine blockBody indented
  cases trimChars line with
  | nil => rfl
  | cons c cs =>
    by_cases hc : c = '*'
    · simp [hc]
    · simp [hc]

theorem proseLine_eq_indented (indent line : List Char) :
    proseLine indent line = indented indent (proseBody line) := by
  unfold proseLine proseBody indented
  split
  · rfl
  · simp

theorem marked_cons_blank {cs : List Char} (hne : cs ≠ [])
    (h : ∀ c ∈ cs.getLast?, isBlank c = false) : Marked ('*' :: ' ' :: cs) := by
  refine ⟨rfl, ?_⟩
  rwa [show '*' :: ' ' :: cs = ['*', ' '] ++ cs from rfl, List.getLast?_append_of_ne_nil _ hne]

/-- A line with its mark is marked if its last character is not blank. -/
theorem marked_concat (cs : List Char) {c : Char} (hhead : (cs ++ [c]).head? = some '*')
    (hc : isBlank c = false) : Marked (cs ++ [c]) := by
  refine ⟨hhead, fun d hd => ?_⟩
  rw [List.getLast?_concat, Option.mem_some_iff] at hd
  rwa [← hd]

theorem marked_blockBody (line : List Char) : Marked (blockBody line) := by
  have hlast : ∀ c ∈ (trimChars line).getLast?, isBlank c = false := fun c => getLast?_trimBack
  unfold blockBody
  split
  · exact marked_concat [] rfl (by decide)
  · rename_i c cs htrim
    rw [htrim] at hlast
    split
    · rename_i hc
      exact ⟨by rw [hc]; rfl, hlast⟩
    · exact marked_cons_blank (by simp) hlast

theorem marked_proseBody (line : List Char) : Marked (proseBody line) := by
  unfold proseBody
  split
  · exact marked_concat [] rfl (by decide)
  · rename_i hblank
    exact marked_cons_blank (trimBack_ne_nil (by simpa using hblank)) fun c => getLast?_trimBack

theorem apart_blockBody {line : List Char} (h : Apart '*' '/' line) :
    Apart '*' '/' (blockBody line) := by
  have htrim : Apart '*' '/' (trimChars line) := h.of_isInfix (trimChars_isInfix line)
  unfold blockBody
  split
  · exact .singleton _
  · rename_i c cs hcs
    rw [hcs] at htrim
    split
    · exact htrim
    · exact apart_marked htrim

theorem apart_proseBody {line : List Char} (h : Apart '*' '/' line) :
    Apart '*' '/' (proseBody line) := by
  unfold proseBody
  split
  · exact .singleton _
  · exact apart_marked (h.of_isInfix (trimBack_isPrefix line).isInfix)

/-- A block has nothing to trim. -/
theorem trimChars_block (inside : List Char) :
    trimChars (blockOpening ++ inside ++ blockClosing) =
      blockOpening ++ inside ++ blockClosing := by
  rw [blockClosing, trimChars_append_closing, (trimChars_opening (.inl rfl) inside).2]

/-- The last line of a ready block ends with the end of the block. -/
theorem exists_blockBody_closing (line : List Char) :
    ∃ last, blockBody (line ++ blockClosing) = last ++ blockClosing ∧
      (Apart '*' '/' line → Apart '*' '/' last) := by
  have htrim : trimChars (line ++ blockClosing) = trimFront line ++ blockClosing :=
    trimChars_append_closing line
  have hsuffix : trimFront line <:+: line := (trimFront_isSuffix line).isInfix
  unfold blockBody
  split
  · rename_i hnil
    rw [htrim] at hnil
    simp [blockClosing] at hnil
  · rename_i c cs hcs
    rw [htrim] at hcs
    split
    · exact ⟨trimFront line, hcs.symm, fun h => h.of_isInfix hsuffix⟩
    · refine ⟨'*' :: ' ' :: trimFront line, by rw [← hcs]; rfl, fun h => ?_⟩
      exact apart_marked (h.of_isInfix hsuffix)

/-- **A marked line is laid out the same on every indentation it comes on.** -/
theorem blockLine_indented {indent line : List Char} (hi : IsIndentation indent)
    (h : Marked line) (indent' : List Char) :
    blockLine indent' (indented indent line) = indented indent' line := by
  obtain ⟨hhead, hlast⟩ := h
  obtain ⟨rest, rfl⟩ := List.head?_eq_some_iff.1 hhead
  have hblank : ∀ c ∈ indent ++ [' '], isBlank c = true := by
    intro c hc
    rcases List.mem_append.1 hc with hc | hc
    · rcases hi c hc with rfl | rfl <;> decide
    · rw [List.mem_singleton.1 hc]
      decide
  have hrest : '*' :: trimBack rest = '*' :: rest := by
    have hcons : trimBack ('*' :: rest) = '*' :: trimBack rest :=
      trimBack_append_cons (by decide) [] rest
    rw [← hcons, trimBack_eq_self hlast]
  have htrim : trimChars (indented indent ('*' :: rest)) = '*' :: rest := by
    rw [indented, List.append_cons, trimChars_append_cons (by decide), trimFront_eq_nil hblank,
      List.nil_append, hrest]
  rw [blockLine_eq_indented, blockBody, htrim]
  rfl

/-! ### Layouts -/

/-- The lines of a block without their indentation, its opening and its closing: one line, or the
line of the opening, the line of the closing and those between. -/
inductive Layout where
  | single (inside : List Char)
  | several (head : List Char) (middle : List (List Char)) (last : List Char)

namespace Layout

/-- The lines of the block on an indentation. -/
def lines (indent : List Char) : Layout → List (List Char)
  | single inside => [blockOpening ++ inside ++ blockClosing]
  | several head middle last =>
    (blockOpening ++ head) :: (middle ++ [last ++ blockClosing]).map (indented indent)

/-- The same lines without the opening and the closing. -/
def insideLines (indent : List Char) : Layout → List (List Char)
  | single inside => [inside]
  | several head middle last => head :: (middle ++ [last]).map (indented indent)

/-- Whether a layout holds no end of a comment, and nothing that is still to be marked or
trimmed. -/
inductive Sound : Layout → Prop
  | single {inside : List Char} (apart : Apart '*' '/' inside) : Sound (single inside)
  | several {head : List Char} {middle : List (List Char)} {last : List Char}
      (apart_head : Apart '*' '/' head) (trimmed : trimBack head = head)
      (apart : ∀ l ∈ middle ++ [last], Apart '*' '/' l)
      (marked : ∀ l ∈ middle ++ [last ++ blockClosing], Marked l) :
      Sound (several head middle last)

theorem intercalate_lines (L : Layout) (indent sep : List Char) :
    sep.intercalate (L.lines indent) =
      blockOpening ++ sep.intercalate (L.insideLines indent) ++ blockClosing := by
  cases L with
  | single inside => simp [lines, insideLines]
  | several head middle last =>
    have hlast : indented indent (last ++ blockClosing) = indented indent last ++ blockClosing := by
      simp [indented]
    simp only [lines, insideLines, List.map_append, List.map_cons, List.map_nil, hlast]
    rw [← List.cons_append, intercalate_concat_append, List.cons_append, intercalate_append_cons]

/-- The last line of a block is not empty. -/
theorem exists_lines_eq_concat (L : Layout) (indent : List Char) :
    ∃ init last, L.lines indent = init ++ [last] ∧ last ≠ [] := by
  cases L with
  | single inside => exact ⟨[], _, rfl, by simp [blockOpening]⟩
  | several head middle last =>
    refine ⟨(blockOpening ++ head) :: middle.map (indented indent),
      indented indent (last ++ blockClosing), by simp [lines], by simp [indented]⟩

/-- No end of a comment stands inside a block. -/
theorem Sound.apart_insideLines {L : Layout} (hL : L.Sound) {indent : List Char}
    (hi : IsIndentation indent) {newline : String} (hn : IsNewline newline) :
    Apart '*' '/' (newline.toList.intercalate (L.insideLines indent)) := by
  have hlines : ∀ l ∈ L.insideLines indent, Apart '*' '/' l := by
    intro l hl
    cases hL with
    | single apart =>
      rw [List.mem_singleton.1 hl]
      exact apart
    | several apart_head _ apart _ =>
      rcases List.mem_cons.1 hl with rfl | hl
      · exact apart_head
      · obtain ⟨line, hline, rfl⟩ := List.mem_map.1 hl
        exact apart_indented hi (apart line hline)
  refine apart_intercalate ?_ hlines ?_ ?_ (.inl ?_)
  · rcases hn with rfl | rfl <;> exact apart_iff_not_isInfix.2 (by decide)
  · rcases hn with rfl | rfl <;> decide
  · rcases hn with rfl | rfl <;> decide
  · rcases hn with rfl | rfl <;> decide

/-- Laying out the lines of a block once more changes nothing but their indentation. -/
theorem Sound.relaid_lines {L : Layout} (hL : L.Sound) {indent : List Char}
    (hi : IsIndentation indent) (indent' : List Char) :
    ∃ l ls, L.lines indent = l :: ls ∧
      trimChars l :: ls.map (blockLine indent') = L.lines indent' := by
  cases hL with
  | @single inside apart =>
    exact ⟨blockOpening ++ inside ++ blockClosing, [], rfl, by rw [trimChars_block]; rfl⟩
  | @several head middle last apart_head trimmed apart marked =>
    refine ⟨blockOpening ++ head, (middle ++ [last ++ blockClosing]).map (indented indent), rfl, ?_⟩
    have hmap : ((middle ++ [last ++ blockClosing]).map (indented indent)).map (blockLine indent') =
        (middle ++ [last ++ blockClosing]).map (indented indent') := by
      rw [List.map_map]
      exact List.map_congr_left fun line hline => blockLine_indented hi (marked line hline) indent'
    rw [(trimChars_opening (.inl rfl) head).1, trimmed, hmap]
    rfl

/-- **A block that is read again has the layout it was made from.** -/
theorem Sound.renderLines_intercalate {L : Layout} (hL : L.Sound) {indent : List Char}
    (hi : IsIndentation indent) {newline : String} (hn : IsNewline newline)
    (hclean : ∀ l ∈ L.lines indent, EndsClean l) (indent' : List Char) :
    renderLines (newline.toList.intercalate (L.lines indent)) indent' = L.lines indent' := by
  have htext := L.intercalate_lines indent newline.toList
  set inside := newline.toList.intercalate (L.insideLines indent)
  have hinside : blockInside? (blockOpening ++ inside ++ blockClosing) = some inside := by
    simp [blockInside?, blockOpening, blockClosing]
  have hescape : escapeTerminators inside = inside :=
    escapeTerminators_eq_self (hL.apart_insideLines hi hn)
  have hlines : linesOf (blockOpening ++ inside ++ blockClosing) = L.lines indent := by
    obtain ⟨init, last, hconcat, hlast⟩ := L.exists_lines_eq_concat indent
    rw [hconcat] at hclean
    rw [← htext, hconcat, linesOf_intercalate hn hclean hlast]
  obtain ⟨l, ls, hcons, hrelaid⟩ := hL.relaid_lines hi indent'
  rw [htext, renderLines, trimChars_block, hinside]
  show blockLines indent' inside = L.lines indent'
  rw [blockLines, hescape, hlines, hcons]
  exact hrelaid

end Layout

theorem exists_layout_proseLines (text : List Char) :
    ∃ L : Layout, L.Sound ∧ ∀ indent, proseLines indent text = L.lines indent := by
  refine ⟨.several [] ((linesOf (escapeTerminators text)).map proseBody) [], ?_, fun indent => ?_⟩
  · refine .several .nil rfl (fun l hl => ?_) fun l hl => ?_
    · rcases List.mem_append.1 hl with hl | hl
      · obtain ⟨line, hline, rfl⟩ := List.mem_map.1 hl
        exact apart_proseBody ((apart_escapeTerminators text).of_isInfix
          (isInfix_of_mem_linesOf hline))
      · rw [List.mem_singleton.1 hl]
        exact .nil
    · rcases List.mem_append.1 hl with hl | hl
      · obtain ⟨line, -, rfl⟩ := List.mem_map.1 hl
        exact marked_proseBody line
      · rw [List.mem_singleton.1 hl]
        exact marked_concat ['*'] rfl (by decide)
  · have hline : proseLine indent = indented indent ∘ proseBody :=
      funext (proseLine_eq_indented indent)
    simp [proseLines, Layout.lines, hline, indented]

theorem exists_layout_blockLines (inside : List Char) :
    ∃ L : Layout, L.Sound ∧ ∀ indent, blockLines indent inside = L.lines indent := by
  -- the inside is cut in lines by itself, since its first slash may make an end of the opening
  obtain ⟨init, last, hinside⟩ := exists_linesOf_append (escapeTerminators inside)
  have hlines : linesOf (escapeTerminators inside ++ blockClosing) =
      init ++ [last ++ blockClosing] := hinside blockClosing (by decide) (by decide)
  have hapart : ∀ l ∈ init ++ [last ++ ['*']], Apart '*' '/' l := by
    intro l hl
    rw [← hinside ['*'] (by decide) (by decide)] at hl
    have hstar : Apart '*' '/' (escapeTerminators inside ++ ['*']) :=
      (apart_escapeTerminators inside).append_of_head (.singleton _) (by decide)
    exact hstar.of_isInfix (isInfix_of_mem_linesOf hl)
  have hlast : Apart '*' '/' last :=
    (hapart (last ++ ['*']) (by simp)).of_isInfix (List.prefix_append _ _).isInfix
  cases init with
  | nil =>
    refine ⟨.single last, .single hlast, fun indent => ?_⟩
    rw [blockLines, List.append_assoc, linesOf_append_of_eq_cons hlines]
    show [trimChars (blockOpening ++ (last ++ blockClosing))] = _
    rw [← List.append_assoc, trimChars_block]
    rfl
  | cons head middle =>
    obtain ⟨last', hlast', hapart'⟩ := exists_blockBody_closing last
    refine ⟨.several (trimBack head) (middle.map blockBody) last', ?_, fun indent => ?_⟩
    · have hhead : Apart '*' '/' head := hapart head (by simp)
      refine .several (hhead.of_isInfix (trimBack_isPrefix head).isInfix)
        (trimBack_eq_self fun c => getLast?_trimBack) (fun l hl => ?_) fun l hl => ?_
      · rcases List.mem_append.1 hl with hl | hl
        · obtain ⟨line, hline, rfl⟩ := List.mem_map.1 hl
          exact apart_blockBody (hapart line (by simp [hline]))
        · rw [List.mem_singleton.1 hl]
          exact hapart' hlast
      · rcases List.mem_append.1 hl with hl | hl
        · obtain ⟨line, -, rfl⟩ := List.mem_map.1 hl
          exact marked_blockBody line
        · rw [List.mem_singleton.1 hl, ← hlast']
          exact marked_blockBody _
    · have hline : blockLine indent = indented indent ∘ blockBody :=
        funext (blockLine_eq_indented indent)
      rw [blockLines, List.append_assoc, linesOf_append_of_eq_cons hlines]
      show trimChars (blockOpening ++ head) :: (middle ++ [last ++ blockClosing]).map _ = _
      rw [(trimChars_opening (.inl rfl) head).1]
      simp [Layout.lines, hline, hlast']

/-- **The lines of the block for a text have a layout that does not depend on the indentation.** -/
theorem exists_layout (doc : List Char) :
    ∃ L : Layout, L.Sound ∧ ∀ indent, renderLines doc indent = L.lines indent := by
  cases hinside : blockInside? (trimChars doc) with
  | none =>
    obtain ⟨L, hL, hlines⟩ := exists_layout_proseLines (trimChars doc)
    refine ⟨L, hL, fun indent => ?_⟩
    simp only [renderLines, hinside, hlines]
  | some inside =>
    obtain ⟨L, hL, hlines⟩ := exists_layout_blockLines inside
    refine ⟨L, hL, fun indent => ?_⟩
    simp only [renderLines, hinside, hlines]

/-! ### Blocks rendered again -/

/-- **Rendering is stable under rendering again.** Whatever the first indentation and the first line
break are, the block rendered again on a second indentation and with a second line break is the
block that the text itself has there. -/
theorem renderBlock_renderBlock {indent newline : String} (hi : IsIndentation indent.toList)
    (hn : IsNewline newline) (doc indent' newline' : String) :
    renderBlock (renderBlock doc indent newline) indent' newline' =
      renderBlock doc indent' newline' := by
  obtain ⟨L, hL, hlines⟩ := exists_layout doc.toList
  have hclean : ∀ l ∈ L.lines indent.toList, EndsClean l := by
    intro l hl
    rw [← hlines] at hl
    exact endsClean_of_mem_renderLines hi hl
  have hrender := hL.renderLines_intercalate hi hn hclean indent'.toList
  simp only [renderBlock, String.toList_ofList, hlines, hrender]

/-- Prose with an end in it and an empty line, moved from spaces to a tab. -/
theorem renderBlock_renderBlock_sample :
    IsIndentation "    ".toList ∧ IsNewline "\r\n" ∧
      renderBlock (renderBlock "Says */ twice.\n\n@return void " "    " "\r\n") "\t" "\n" =
        "/**\n\t * Says *\\/ twice.\n\t *\n\t * @return void\n\t */" := by
  have hi : IsIndentation "    ".toList := by simp [IsIndentation]
  have hn : IsNewline "\r\n" := .inr rfl
  refine ⟨hi, hn, ?_⟩
  rw [renderBlock_renderBlock hi hn]
  decide

end DocBlocks
