import DocBlocks.Annotation.Block
import DocBlocks.Proofs.Text.Lines

/-!
# Blocks and comments

`isBlockComment_renderBlock_iff`: the block for a text is one comment, with no end before its own,
exactly if the text does not close early. A text closes early if it is a ready block whose inside
begins with a slash: the slash and the asterisk of the opening end the comment, since only the
inside is searched for ends. Every other text, whatever ends it holds, makes one comment.
-/

namespace DocBlocks

/-- Whether a text is one comment between `/*` and `*/`: it ends where it ends first. -/
def IsBlockComment (text : String) : Prop :=
  ∃ body : List Char, text.toList = '/' :: '*' :: body ++ ['*', '/'] ∧
    ¬ ['*', '/'] <:+: body ++ ['*']

/-- Whether a text is a ready block whose opening is also an end. -/
def ClosesEarly (doc : String) : Prop :=
  ∃ inside, blockInside? (trimChars doc.toList) = some ('/' :: inside)

instance (doc : String) : Decidable (ClosesEarly doc) :=
  match h : blockInside? (trimChars doc.toList) with
  | some ('/' :: inside) => isTrue ⟨inside, h⟩
  | some [] => isFalse (by rintro ⟨inside, h'⟩; simp [h] at h')
  | some (c :: cs) =>
    if hc : c = '/' then isTrue ⟨cs, by rw [h, hc]⟩
    else isFalse (by rintro ⟨inside, h'⟩; simp [h, hc] at h')
  | none => isFalse (by rintro ⟨inside, h'⟩; simp [h] at h')

/-- Whether a text indents a line. -/
def IsIndentation (indent : List Char) : Prop := ∀ c ∈ indent, c = ' ' ∨ c = '\t'

/-- Whether a text is a line break. -/
def IsNewline (newline : String) : Prop := newline = "\n" ∨ newline = "\r\n"

/-! ### Ends of comments -/

theorem head?_escapeTerminators (cs : List Char) : (escapeTerminators cs).head? = cs.head? := by
  fun_cases escapeTerminators cs <;> rfl

/-- **Breaking up ends leaves none.** -/
theorem apart_escapeTerminators (cs : List Char) : Apart '*' '/' (escapeTerminators cs) := by
  fun_induction escapeTerminators cs with
  | case1 cs ih =>
    refine List.isChain_cons_cons.2 ⟨by simp, List.isChain_cons_cons.2 ⟨by simp, ?_⟩⟩
    exact ih.cons fun b _ hb => by simp at hb
  | case2 c cs hpair ih =>
    refine ih.cons fun b hb hcb => ?_
    obtain ⟨rfl, rfl⟩ := hcb
    rw [head?_escapeTerminators] at hb
    obtain ⟨rest, rfl⟩ := List.head?_eq_some_iff.1 hb
    exact hpair rest rfl rfl
  | case3 => exact .nil

/-- An indented text has no end that the text has not. -/
theorem apart_indented {indent cs : List Char} (hi : IsIndentation indent)
    (h : Apart '*' '/' cs) : Apart '*' '/' (indent ++ ' ' :: cs) := by
  have hfront : Apart '*' '/' (indent ++ [' ']) := by
    refine apart_of_not_mem fun hm => ?_
    rcases List.mem_append.1 hm with hm | hm
    · rcases hi _ hm with h | h <;> simp at h
    · simp at hm
  rw [List.append_cons]
  exact hfront.append_of_last h (by simp)

theorem apart_marked {cs : List Char} (h : Apart '*' '/' cs) : Apart '*' '/' ('*' :: ' ' :: cs) :=
  List.isChain_cons_cons.2 ⟨by simp, h.cons fun b _ hb => by simp at hb⟩

/-! ### Lines of blocks -/

/-- A line of a block is the trimmed line behind an indentation, and behind a mark of its own unless
it brings one along. -/
theorem exists_blockLine (indent line : List Char) :
    ∃ mark, blockLine indent line = indent ++ ' ' :: (mark ++ trimChars line) ∧
      (mark = [] ∨ mark = ['*', ' '] ∨ (mark = ['*'] ∧ trimChars line = [])) := by
  unfold blockLine
  split
  · rename_i h
    exact ⟨['*'], by simp [h], .inr (.inr ⟨rfl, h⟩)⟩
  · rename_i c cs h
    split
    · exact ⟨[], by simp [h], .inl rfl⟩
    · exact ⟨['*', ' '], by simp [h], .inr (.inl rfl)⟩

theorem apart_blockLine {indent line : List Char} (hi : IsIndentation indent)
    (h : Apart '*' '/' line) : Apart '*' '/' (blockLine indent line) := by
  have htrim := h.of_isInfix (trimChars_isInfix line)
  obtain ⟨mark, he, rfl | rfl | ⟨rfl, hnil⟩⟩ := exists_blockLine indent line
  · rw [he]
    exact apart_indented hi htrim
  · rw [he]
    exact apart_indented hi (apart_marked htrim)
  · rw [he, hnil]
    exact apart_indented hi (.singleton _)

theorem trimChars_append_closing (cs : List Char) :
    trimChars (cs ++ ['*', '/']) = trimFront cs ++ ['*', '/'] := by
  have h : trimBack ['/'] = ['/'] := by decide
  rw [trimChars_append_cons (by decide), h]

/-- The last line of a block ends with the end of the block. -/
theorem exists_blockLine_closing {indent : List Char} (hi : IsIndentation indent)
    (line : List Char) :
    ∃ last, blockLine indent (line ++ ['*', '/']) = last ++ ['*', '/'] ∧
      (Apart '*' '/' (line ++ ['*']) → Apart '*' '/' (last ++ ['*'])) := by
  have hsuffix : trimFront line ++ ['*'] <:+: line ++ ['*'] := by
    obtain ⟨front, hfront⟩ := trimFront_isSuffix line
    exact ⟨front, [], by rw [List.append_nil, ← List.append_assoc, hfront]⟩
  obtain ⟨mark, he, hmark⟩ := exists_blockLine indent (line ++ ['*', '/'])
  rw [trimChars_append_closing] at he hmark
  refine ⟨indent ++ ' ' :: (mark ++ trimFront line), by simp [he], fun h => ?_⟩
  have htrim := h.of_isInfix hsuffix
  rw [List.append_assoc, List.cons_append, List.append_assoc]
  rcases hmark with rfl | rfl | ⟨-, hnil⟩
  · exact apart_indented hi htrim
  · exact apart_indented hi (apart_marked htrim)
  · simp at hnil

theorem apart_proseLine {indent line : List Char} (hi : IsIndentation indent)
    (h : Apart '*' '/' line) : Apart '*' '/' (proseLine indent line) := by
  unfold proseLine
  split
  · exact apart_indented hi (.singleton _)
  · rw [List.append_assoc]
    exact apart_indented hi (apart_marked (h.of_isInfix (trimBack_isPrefix line).isInfix))

/-- Lines that an opening stands in front of. -/
def OpenedBy (opening : List Char) (lines : List (List Char)) : Prop :=
  ∃ l ls, lines = (opening ++ l) :: ls

/-- The opening that is also an end. -/
def earlyEnd : List Char := ['/', '*', '*', '/']

theorem exists_proseLines {indent : List Char} (hi : IsIndentation indent) (text : List Char) :
    ∃ init last, proseLines indent text = init ++ [last ++ blockClosing] ∧
      OpenedBy blockOpening (init ++ [last]) ∧ (∀ l ∈ init, Apart '*' '/' l) ∧
      Apart '*' '/' (last ++ ['*']) := by
  refine ⟨blockOpening :: (linesOf (escapeTerminators text)).map (proseLine indent),
    indent ++ [' '], by simp [proseLines], ⟨[], _, rfl⟩, ?_, ?_⟩
  · intro l hl
    rcases List.mem_cons.1 hl with rfl | hl
    · exact apart_iff_not_isInfix.2 (by decide)
    · obtain ⟨line, hline, rfl⟩ := List.mem_map.1 hl
      have hpiece := isInfix_of_mem_linesOf hline
      exact apart_proseLine hi ((apart_escapeTerminators text).of_isInfix hpiece)
  · rw [List.append_assoc]
    exact apart_indented hi (.singleton _)

/-- An opening stays in front of its line when the line is trimmed. -/
theorem trimChars_opening {opening : List Char} (h : opening = blockOpening ∨ opening = earlyEnd)
    (l : List Char) :
    trimChars (opening ++ l) = opening ++ trimBack l ∧ trimFront (opening ++ l) = opening ++ l := by
  rcases h with rfl | rfl
  · exact ⟨trimChars_append_cons (by decide) ['/', '*'] l,
      trimFront_append_cons (by decide) [] ('*' :: '*' :: l)⟩
  · exact ⟨trimChars_append_cons (by decide) ['/', '*', '*'] l,
      trimFront_append_cons (by decide) [] ('*' :: '*' :: '/' :: l)⟩

theorem exists_blockLines {indent : List Char} (hi : IsIndentation indent)
    {opening inside rest : List Char} (ho : opening = blockOpening ∨ opening = earlyEnd)
    (h : blockOpening ++ escapeTerminators inside = opening ++ rest) :
    ∃ init last, blockLines indent inside = init ++ [last ++ blockClosing] ∧
      OpenedBy opening (init ++ [last]) ∧
      (inside.head? ≠ some '/' →
        (∀ l ∈ init, Apart '*' '/' l) ∧ Apart '*' '/' (last ++ ['*'])) := by
  have hfront : '\n' ∉ opening ∧ '\r' ∉ opening := by
    rcases ho with rfl | rfl <;> decide
  obtain ⟨init, last, ⟨l, ls, hopen⟩, hlines⟩ := exists_linesOf_between hfront rest
  have hclose := hlines blockClosing (by decide) (by decide)
  -- the same lines, but without the slash of the end: they are where no end may be
  have hstar := hlines ['*'] (by decide) (by decide)
  have hapart : inside.head? ≠ some '/' → ∀ l ∈ init ++ [last ++ ['*']], Apart '*' '/' l := by
    intro hhead l hl
    rw [← hstar, ← h] at hl
    have hopening : Apart '*' '/' blockOpening := apart_iff_not_isInfix.2 (by decide)
    refine Apart.of_isInfix ?_ (isInfix_of_mem_linesOf hl)
    refine (hopening.append_of_head (apart_escapeTerminators inside) ?_).append_of_head
      (.singleton _) (by decide)
    rwa [head?_escapeTerminators]
  unfold blockLines
  rw [h, hclose]
  cases init with
  | nil =>
    obtain ⟨rfl, rfl⟩ := List.cons.inj hopen
    refine ⟨[], opening ++ l, ?_, ⟨l, [], rfl⟩, fun hhead => ⟨by simp, hapart hhead _ (by simp)⟩⟩
    -- a single line has the opening and the end on it, so nothing is trimmed
    have htrim : trimChars (opening ++ l ++ blockClosing) = opening ++ l ++ blockClosing := by
      rw [blockClosing, trimChars_append_closing, (trimChars_opening ho l).2]
    simp only [List.nil_append, List.map_nil, htrim]
  | cons l' init =>
    obtain ⟨rfl, hls⟩ := List.cons.inj hopen
    obtain ⟨last', hlast', hapart'⟩ := exists_blockLine_closing hi last
    refine ⟨(opening ++ trimBack l) :: init.map (blockLine indent), last', ?_,
      ⟨trimBack l, _, rfl⟩, fun hhead => ⟨fun k hk => ?_, hapart' (hapart hhead _ (by simp))⟩⟩
    · simp [blockClosing, (trimChars_opening ho l).1, hlast']
    · rcases List.mem_cons.1 hk with rfl | hk
      · rw [← (trimChars_opening ho l).1]
        exact (hapart hhead _ (by simp)).of_isInfix (trimChars_isInfix _)
      · obtain ⟨line, hline, rfl⟩ := List.mem_map.1 hk
        exact apart_blockLine hi (hapart hhead _ (by simp [hline]))

/-- **The lines of a block**: the opening in front, the end behind, and no end before it unless the
text closes early. -/
theorem exists_renderLines {indent : List Char} (hi : IsIndentation indent) (doc : String) :
    ∃ init last, renderLines doc.toList indent = init ++ [last ++ blockClosing] ∧
      OpenedBy blockOpening (init ++ [last]) ∧
      (ClosesEarly doc → OpenedBy earlyEnd (init ++ [last])) ∧
      (¬ ClosesEarly doc → (∀ l ∈ init, Apart '*' '/' l) ∧ Apart '*' '/' (last ++ ['*'])) := by
  cases hinside : blockInside? (trimChars doc.toList) with
  | none =>
    have hrender : renderLines doc.toList indent = proseLines indent (trimChars doc.toList) := by
      simp [renderLines, hinside]
    obtain ⟨init, last, hlines, hopen, hapart⟩ := exists_proseLines hi (trimChars doc.toList)
    refine ⟨init, last, hrender.trans hlines, hopen, fun ⟨inside, h⟩ => ?_, fun _ => hapart⟩
    simp [hinside] at h
  | some inside =>
    have hrender : renderLines doc.toList indent = blockLines indent inside := by
      simp [renderLines, hinside]
    by_cases hearly : inside.head? = some '/'
    · obtain ⟨inside, rfl⟩ := List.head?_eq_some_iff.1 hearly
      -- the slash goes to the opening, where no end is looked for
      have hesc : blockOpening ++ escapeTerminators ('/' :: inside) =
          earlyEnd ++ escapeTerminators inside := rfl
      obtain ⟨init, last, hlines, hopen, -⟩ := exists_blockLines hi (.inr rfl) hesc
      refine ⟨init, last, hrender.trans hlines, ?_, fun _ => hopen,
        fun h => absurd ⟨inside, hinside⟩ h⟩
      obtain ⟨l, ls, h⟩ := hopen
      exact ⟨'/' :: l, ls, h⟩
    · obtain ⟨init, last, hlines, hopen, hapart⟩ := exists_blockLines hi (.inl rfl) rfl
      refine ⟨init, last, hrender.trans hlines, hopen, fun ⟨inside', h⟩ => ?_,
        fun _ => hapart hearly⟩
      obtain rfl : inside = '/' :: inside' := by simpa [hinside] using h
      exact absurd rfl hearly

/-! ### Blocks -/

theorem exists_intercalate_of_openedBy {opening : List Char} {lines : List (List Char)}
    (h : OpenedBy opening lines) (sep : List Char) :
    ∃ rest, sep.intercalate lines = opening ++ rest := by
  obtain ⟨l, ls, rfl⟩ := h
  cases ls with
  | nil => exact ⟨l, by simp⟩
  | cons l' ls =>
    exact ⟨l ++ sep ++ sep.intercalate (l' :: ls), by simp [List.intercalate_cons_cons]⟩

/-- A block has its opening in front and its end behind. -/
theorem exists_toList_renderBlock {indent : String} (hi : IsIndentation indent.toList)
    (doc newline : String) :
    ∃ rest, (renderBlock doc indent newline).toList = blockOpening ++ rest ++ blockClosing := by
  obtain ⟨init, last, hlines, hopen, -⟩ := exists_renderLines hi doc
  obtain ⟨rest, hrest⟩ := exists_intercalate_of_openedBy hopen newline.toList
  refine ⟨rest, ?_⟩
  rw [renderBlock, String.toList_ofList, hlines, intercalate_concat_append, hrest]

/-- **The block for a text is one comment exactly if the text does not close early.** -/
theorem isBlockComment_renderBlock_iff {doc indent newline : String}
    (hi : IsIndentation indent.toList) (hn : IsNewline newline) :
    IsBlockComment (renderBlock doc indent newline) ↔ ¬ ClosesEarly doc := by
  obtain ⟨init, last, hlines, hopen, hearly, hapart⟩ := exists_renderLines hi doc
  have htext : (renderBlock doc indent newline).toList =
      newline.toList.intercalate (init ++ [last]) ++ ['*', '/'] := by
    rw [renderBlock, String.toList_ofList, hlines, intercalate_concat_append, blockClosing]
  constructor
  · rintro ⟨body, hbody, hend⟩ hclose
    obtain ⟨rest, hrest⟩ := exists_intercalate_of_openedBy (hearly hclose) newline.toList
    rw [hbody, hrest, List.append_left_inj] at htext
    -- the comment would end right behind its opening
    obtain rfl : body = '*' :: '/' :: rest := by simpa [earlyEnd] using htext
    exact hend ⟨[], rest ++ ['*'], rfl⟩
  · intro hclose
    obtain ⟨rest, hrest⟩ := exists_intercalate_of_openedBy hopen newline.toList
    refine ⟨'*' :: rest, by rw [htext, hrest]; rfl, ?_⟩
    rw [← apart_iff_not_isInfix]
    obtain ⟨hinit, hlast⟩ := hapart hclose
    -- without the last slash there is no end, neither in a line nor across a break
    have hwhole : Apart '*' '/' (newline.toList.intercalate (init ++ [last ++ ['*']])) := by
      refine apart_intercalate ?_ ?_ ?_ ?_ (.inl ?_)
      · rcases hn with rfl | rfl <;> exact apart_iff_not_isInfix.2 (by decide)
      · intro l hl
        rcases List.mem_append.1 hl with hl | hl
        · exact hinit l hl
        · obtain rfl := List.mem_singleton.1 hl
          exact hlast
      · rcases hn with rfl | rfl <;> decide
      · rcases hn with rfl | rfl <;> decide
      · rcases hn with rfl | rfl <;> decide
    rw [intercalate_concat_append, hrest] at hwhole
    exact hwhole.of_isInfix ⟨['/', '*'], [], by simp [blockOpening]⟩

example : ClosesEarly "/**/ const A = 1; /**/" ∧ ¬ ClosesEarly "/** says */ twice */" := by
  decide

/-! ### Line breaks of blocks -/

/-- A block without a line break is the same for all line breaks. -/
theorem renderBlock_congr {doc indent newline : String} (newline' : String)
    (h : ¬ newline.toList <:+: (renderBlock doc indent newline).toList) :
    renderBlock doc indent newline' = renderBlock doc indent newline := by
  simp only [renderBlock, String.toList_ofList] at h ⊢
  match renderLines doc.toList indent.toList, h with
  | [], _ => rfl
  | [l], _ => simp
  | l :: l' :: ls, h => exact absurd (isInfix_intercalate _ l l' ls) h

/-- Whether a line holds no line feed and ends with no carriage return. -/
def EndsClean (l : List Char) : Prop := '\n' ∉ l ∧ l.getLast? ≠ some '\r'

theorem endsClean_trimBack {l : List Char} (h : '\n' ∉ l) : EndsClean (trimBack l) := by
  refine ⟨fun hm => h ((trimBack_isPrefix l).subset hm), fun hlast => ?_⟩
  exact absurd (getLast?_trimBack hlast) (by decide)

theorem endsClean_indented {indent : List Char} (hi : IsIndentation indent)
    {front back : List Char} (hfront : EndsClean (' ' :: front)) (hback : EndsClean back) :
    EndsClean (indent ++ ' ' :: (front ++ back)) := by
  refine ⟨fun hm => ?_, ?_⟩
  · rcases List.mem_append.1 hm with hm | hm
    · rcases hi _ hm with h | h <;> simp at h
    · rw [← List.cons_append] at hm
      rcases List.mem_append.1 hm with hm | hm
      · exact hfront.1 hm
      · exact hback.1 hm
  · rw [← List.cons_append, ← List.append_assoc, List.getLast?_append]
    cases hlast : back.getLast? with
    | some c =>
      rw [Option.some_or, ← hlast]
      exact hback.2
    | none =>
      rw [Option.none_or, List.getLast?_append_of_ne_nil _ (by simp)]
      exact hfront.2

theorem endsClean_blockLine {indent line : List Char} (hi : IsIndentation indent)
    (h : '\n' ∉ line) : EndsClean (blockLine indent line) := by
  have htrim : EndsClean (trimChars line) :=
    endsClean_trimBack fun hm => h ((trimFront_isSuffix line).subset hm)
  obtain ⟨mark, he, hmark⟩ := exists_blockLine indent line
  rw [he]
  refine endsClean_indented hi ?_ htrim
  rcases hmark with rfl | rfl | ⟨rfl, -⟩ <;> exact ⟨by decide, by decide⟩

theorem endsClean_proseLine {indent line : List Char} (hi : IsIndentation indent)
    (h : '\n' ∉ line) : EndsClean (proseLine indent line) := by
  have hmark : EndsClean [' ', '*'] ∧ EndsClean [' ', '*', ' '] :=
    ⟨⟨by decide, by decide⟩, by decide, by decide⟩
  unfold proseLine
  split
  · exact endsClean_indented hi hmark.1 ⟨List.not_mem_nil, by simp⟩
  · rw [List.append_assoc]
    exact endsClean_indented hi hmark.2 (endsClean_trimBack h)

theorem endsClean_of_mem_renderLines {doc indent l : List Char} (hi : IsIndentation indent)
    (h : l ∈ renderLines doc indent) : EndsClean l := by
  simp only [renderLines] at h
  split at h
  · rename_i inside _
    simp only [blockLines] at h
    split at h
    · simp at h
    · rename_i l₀ ls hlines
      have hline : ∀ k ∈ l₀ :: ls, '\n' ∉ k := by
        intro k hk
        rw [← hlines] at hk
        exact not_mem_of_mem_linesOf hk
      rcases List.mem_cons.1 h with rfl | h
      · exact endsClean_trimBack fun hm =>
          hline l₀ List.mem_cons_self ((trimFront_isSuffix l₀).subset hm)
      · obtain ⟨line, hmem, rfl⟩ := List.mem_map.1 h
        exact endsClean_blockLine hi (hline line (List.mem_cons_of_mem _ hmem))
  · simp only [proseLines, List.cons_append, List.mem_cons, List.mem_append, List.mem_map,
      List.not_mem_nil, or_false] at h
    rcases h with rfl | ⟨line, hline, rfl⟩ | rfl
    · exact ⟨by decide, by decide⟩
    · exact endsClean_proseLine hi (not_mem_of_mem_linesOf hline)
    · have hblank : EndsClean [' '] := ⟨by decide, by decide⟩
      have hclosing : EndsClean blockClosing := ⟨by decide, by decide⟩
      exact endsClean_indented hi hblank hclosing

/-- A block with plain line feeds has no line break of the other kind. -/
theorem apart_renderBlock {indent : String} (hi : IsIndentation indent.toList) (doc : String) :
    Apart '\r' '\n' (renderBlock doc indent "\n").toList := by
  rw [renderBlock, String.toList_ofList]
  have hclean : ∀ l ∈ renderLines doc.toList indent.toList, EndsClean l :=
    fun l => endsClean_of_mem_renderLines hi
  refine apart_intercalate (apart_iff_not_isInfix.2 (by decide)) (fun l hl => ?_) (by decide)
    (by decide) (.inr fun l hl => (hclean l hl).2)
  exact apart_of_not_mem (hclean l hl).1

end DocBlocks
