import DocBlocks.Proofs.Text.Lines
import DocBlocks.Token.Find

/-!
# Tokens are cut out of the text

`nextLexeme?_chars`: the gap, the token or extra and the rest of a lexeme are, one behind the
other, the text it was looked for in. Every reader of `DocBlocks.Token` takes a front of its text
and hands back what is left, so each has a lemma of its own here, and the finders only put these
together. `nextLexeme?_endsText`: the terminal of the end is found only where nothing is left.
-/

namespace DocBlocks

/-- The characters of a lexeme, from its gap to what is left. -/
def Lexeme.chars (l : Lexeme) : List Char := l.gap ++ l.find.text.toList ++ l.rest

@[simp]
theorem Find.toList_text_token (t : Terminal) (ts : List Terminal) (cs : List Char) :
    (Find.token t ts cs).text.toList = cs := by
  simp [Find.text]

@[simp]
theorem Find.toList_text_comment (cs : List Char) : (Find.comment cs).text.toList = cs := by
  simp [Find.text]

@[simp]
theorem Lexeme.chars_soleToken (labels : List (List Char)) (gap : List Char) (t : Terminal)
    (text rest : List Char) :
    (soleToken labels gap t text rest).chars = gap ++ text ++ rest := by
  simp [chars, soleToken, lexeme]

/-! ### Quoted texts -/

theorem takePlainRun_append (cs : List Char) :
    (takePlainRun cs).1 ++ (takePlainRun cs).2 = cs := by
  induction cs with
  | nil => rfl
  | cons c cs ih =>
    rw [takePlainRun]
    split
    · rfl
    · simpa using ih

theorem append_of_afterChars {front t rest : List Char} {run? : Option (List Char × List Char)}
    {back : List Char} (hr : ∀ t rest, run? = some (t, rest) → t ++ rest = back)
    (h : afterChars front run? = some (t, rest)) : t ++ rest = front ++ back := by
  obtain ⟨⟨u, r⟩, hu, he⟩ := Option.map_eq_some_iff.1 h
  obtain ⟨rfl, rfl⟩ := by simpa using he
  rw [List.append_assoc, hr _ _ hu]

theorem takeRun?_append {frame : Frame} {behind : Bool} {cs t rest : List Char}
    (h : takeRun? frame behind cs = some (t, rest)) : t ++ rest = cs := by
  fun_induction takeRun? frame behind cs generalizing t rest with
  | case1 => simp at h
  | case2 => simp at h
  | case3 _ c cs _ ih => exact append_of_afterChars (fun _ _ => ih) h
  | case4 => simp_all
  | case5 _ c cs _ _ ih => exact append_of_afterChars (fun _ _ => ih) h
  | case6 => simp_all
  | case7 _ cs _ ih => exact append_of_afterChars (fun _ _ => ih) h
  | case8 => simp_all
  | case9 _ cs _ ih => exact append_of_afterChars (fun _ _ => ih) h
  | case10 => simp_all
  | case11 => simp_all
  | case12 cs _ ih => exact append_of_afterChars (fun _ _ => ih) h
  | case13 => simp_all
  | case14 _ c cs _ _ _ _ _ _ _ ih => exact append_of_afterChars (fun _ _ => ih) h

/-! ### Heredocs -/

theorem takeLabelPart_append (label cs : List Char) :
    (takeLabelPart label cs).1 ++ (takeLabelPart label cs).2 = cs := by
  fun_induction takeLabelPart label cs with
  | case1 l ls c cs _ t rest h ih => simpa [h] using ih
  | case2 => rfl
  | case3 => rfl

theorem takeLineFront?_append {label cs blanks part rest : List Char}
    (h : takeLineFront? label cs = some (blanks, part, rest)) : blanks ++ part ++ rest = cs := by
  have hl := takeLabelPart_append label (cs.drop (cs.takeWhile isAsciiBlank).length)
  unfold takeLineFront? at h
  cases hpart : takeLabelPart label (cs.drop (cs.takeWhile isAsciiBlank).length) with
  | mk part' rest' =>
    simp only [hpart] at h hl
    split at h
    · simp at h
    · obtain ⟨rfl, rfl, rfl⟩ :
          cs.takeWhile isAsciiBlank = blanks ∧ part' = part ∧ rest' = rest := by
        simpa using h
      rw [List.append_assoc, hl, takeWhile_append_drop]

theorem takeRawRun?_append {cs t rest : List Char} (h : takeRawRun? cs = some (t, rest)) :
    t ++ rest = cs := by
  simp only [takeRawRun?] at h
  split at h
  · simp at h
  · obtain ⟨rfl, rfl⟩ := by simpa using h
    exact takeWhile_append_drop _ cs

theorem takeNewline?_append {cs t rest : List Char} (h : takeNewline? cs = some (t, rest)) :
    t ++ rest = cs := by
  fun_cases takeNewline? cs <;> simp_all [takeNewline?]
  all_goals obtain ⟨rfl, rfl⟩ := h; rfl

/-! ### Markup -/

theorem takeTag?_append {cs t rest : List Char} (h : takeTag? cs = some (t, rest)) :
    t ++ rest = cs := by
  unfold takeTag? at h
  split at h
  · obtain ⟨rfl, rfl⟩ := by simpa using h
    rfl
  · split at h <;> obtain ⟨rfl, rfl⟩ := by simpa using h
    all_goals rfl
  · obtain ⟨rfl, rfl⟩ := by simpa using h
    rfl
  · simp at h

theorem takeMarkup_append (cs : List Char) : (takeMarkup cs).1 ++ (takeMarkup cs).2 = cs := by
  fun_induction takeMarkup cs with
  | case1 => rfl
  | case2 => rfl
  | case3 => rfl
  | case4 cs _ t rest h _ ih => simpa [h] using ih
  | case5 => rfl
  | case6 c cs _ _ t rest h ih => simpa [h] using ih

theorem takeIsland_append (cs : List Char) :
    ((takeIsland cs).1.source).toList ++ (takeIsland cs).2 = '?' :: '>' :: cs := by
  have hm := takeMarkup_append (cs.drop (cs.takeWhile isAsciiBlank).length)
  have hb := takeWhile_append_drop isAsciiBlank cs
  simp only [takeIsland]
  split
  · rename_i he
    have he : (takeMarkup (cs.drop (cs.takeWhile isAsciiBlank).length)).1 = [] := by
      simpa using he
    rw [he, List.nil_append] at hm
    split
    · rename_i tag rest ht
      rw [hm] at ht
      simp [Island.source, closingTag, takeTag?_append ht, hb]
    · simp [Island.source, closingTag]
  · split
    · rename_i tag rest ht
      have ht := takeTag?_append ht
      have hr := takeWhile_append_drop isAsciiBlank
        (takeMarkup (cs.drop (cs.takeWhile isAsciiBlank).length)).2
      -- blanks between the markup and the tag are a gap of the island
      simp only [Island.source, closingTag, String.toList_append, String.toList_ofList,
        List.append_assoc, ht, hr, hm, hb]
      rfl
    · simp [Island.source, closingTag, hm, hb]

/-! ### The finders -/

theorem pickAlternative?_chars {accepts : Accepts} {labels : List (List Char)}
    {gap cs : List Char} {as : List Alternative} {l : Lexeme}
    (h : pickAlternative? accepts labels gap cs as = some l) : l.chars = gap ++ cs := by
  induction as with
  | nil => simp [pickAlternative?] at h
  | cons a as ih =>
    simp only [pickAlternative?] at h
    split at h
    · obtain rfl := Option.some.inj h
      simp [Lexeme.chars, lexeme]
    · split at h
      · obtain rfl := Option.some.inj h
        simp [Lexeme.chars, lexeme]
      · exact ih h

theorem findInCode?_chars {accepts : Accepts} {labels : List (List Char)} {gap cs : List Char}
    {l : Lexeme} (h : findInCode? accepts labels gap cs = some l) : l.chars = gap ++ cs := by
  unfold findInCode? at h
  split at h
  · split at h
    · obtain rfl := Option.some.inj h
      simp
    · simp at h
  · rename_i cs
    have hi := takeIsland_append cs
    generalize takeIsland cs = island at h hi
    obtain rfl := Option.some.inj h
    simp [Lexeme.chars, lexeme, Find.text, hi]
  · exact pickAlternative?_chars h

theorem findPlain?_chars {labels : List (List Char)} {cs : List Char} {l : Lexeme}
    (h : findPlain? labels cs = some l) : l.chars = cs := by
  have hp := takePlainRun_append cs
  unfold findPlain? at h
  split at h
  · obtain rfl := Option.some.inj h
    simp
  · split at h
    · split at h
      · obtain rfl := Option.some.inj h
        -- an escape is two characters long
        rw [Lexeme.chars_soleToken, List.nil_append, List.take_append_drop]
      · simp at h
    · rename_i t rest _ ht
      obtain rfl := Option.some.inj h
      simpa [ht] using hp

theorem findEscape?_chars {accepts : Accepts} {labels : List (List Char)} {gap cs : List Char}
    {l : Lexeme} (h : findEscape? accepts labels gap cs = some l) : l.chars = gap ++ cs := by
  unfold findEscape? at h
  split at h <;> split at h
  all_goals simp at h
  all_goals subst h; simp

/-- A byte order mark and the blanks behind it are a front of the text. -/
theorem markupGap_append (accepts : Accepts) (cs : List Char) :
    markupGap accepts cs ++ cs.drop (markupGap accepts cs).length = cs := by
  simp only [markupGap]
  -- there is a mark or there is none, and either way it is a front of the text
  generalize hmark : (if (accepts .markup && cs.head? == some '\uFEFF') = true then cs.take 1
    else []) = mark
  have hm : mark ++ cs.drop mark.length = cs := by
    subst hmark
    split
    · cases cs <;> simp
    · simp
  rw [List.append_assoc, List.length_append, ← List.drop_drop, takeWhile_append_drop, hm]

theorem findMarkup?_chars {accepts : Accepts} {labels : List (List Char)} {cs : List Char}
    {l : Lexeme} (h : findMarkup? accepts labels cs = some l) : l.chars = cs := by
  have hg := markupGap_append accepts cs
  have hm := takeMarkup_append (cs.drop (markupGap accepts cs).length)
  simp only [findMarkup?] at h
  split at h
  · rename_i t ts rest ht
    split at h
    · obtain rfl := Option.some.inj h
      rw [ht] at hm
      simpa [hm] using hg
    · simp at h
  · split at h
    · rename_i tag rest ht
      obtain rfl := Option.some.inj h
      simpa [takeTag?_append ht] using hg
    · split at h
      · rename_i he
        obtain rfl := Option.some.inj h
        have hd : cs.drop (markupGap accepts cs).length = [] := by
          simpa using (Bool.and_eq_true_iff.1 he).1
        simpa [hd] using hg
      · simp at h

theorem findNewline?_chars {labels : List (List Char)} {cs : List Char} {l : Lexeme}
    (h : findNewline? labels cs = some l) : l.chars = cs := by
  simp only [findNewline?] at h
  obtain ⟨⟨t, rest⟩, ht, rfl⟩ := Option.map_eq_some_iff.1 h
  simp [takeNewline?_append ht, takeWhile_append_drop]

theorem findChunk?_chars {labels : List (List Char)} {frame : Frame} {behind : Bool}
    {cs : List Char} {l : Lexeme} (h : findChunk? labels frame behind cs = some l) :
    l.chars = cs := by
  -- only a heredoc has lines whose front is passed over before the run
  obtain ⟨gap, part, rest, hfront, h⟩ : ∃ gap part rest, gap ++ part ++ rest = cs ∧
      ((takeRun? frame behind rest).bind fun x =>
        if (part ++ x.1).isEmpty then none
        else some (soleToken labels gap (.chunk frame behind) (part ++ x.1) x.2)) = some l := by
    cases frame with
    | heredoc =>
      obtain ⟨⟨gap, part, rest⟩, hf, h⟩ := Option.bind_eq_some_iff.1 h
      exact ⟨gap, part, rest, takeLineFront?_append hf, h⟩
    | doubleQuotes => exact ⟨[], [], cs, rfl, h⟩
    | backquotes => exact ⟨[], [], cs, rfl, h⟩
  obtain ⟨⟨t, rest'⟩, ht, h⟩ := Option.bind_eq_some_iff.1 h
  dsimp only at h
  split at h
  · simp at h
  · obtain rfl := Option.some.inj h
    simpa [takeRun?_append ht] using hfront

theorem findRawLine?_chars {labels : List (List Char)} {cs : List Char} {l : Lexeme}
    (h : findRawLine? labels cs = some l) : l.chars = cs := by
  unfold findRawLine? at h
  obtain ⟨⟨gap, part, rest⟩, hf, h⟩ := Option.bind_eq_some_iff.1 h
  obtain ⟨⟨t, rest'⟩, ht, h⟩ := Option.bind_eq_some_iff.1 h
  have hfront := takeLineFront?_append hf
  dsimp only at h
  split at h
  · simp at h
  · obtain rfl := Option.some.inj h
    simpa [takeRawRun?_append ht] using hfront

theorem findEndLabel?_chars {labels : List (List Char)} {cs : List Char} {l : Lexeme}
    (h : findEndLabel? labels cs = some l) : l.chars = cs := by
  simp only [findEndLabel?] at h
  split at h
  · obtain rfl := Option.some.inj h
    rw [Lexeme.chars_soleToken, List.append_assoc, takeWhile_append_drop, takeWhile_append_drop]
  · simp at h

theorem findLabel?_chars {labels : List (List Char)} {cs : List Char} {l : Lexeme}
    (h : findLabel? labels cs = some l) : l.chars = cs := by
  have hb := takeWhile_append_drop isAsciiBlank cs
  have hw := takeWhile_append_drop isLabelChar (cs.drop (cs.takeWhile isAsciiBlank).length)
  simp only [findLabel?] at h
  split at h
  · simp at h
  · obtain rfl := Option.some.inj h
    rw [Lexeme.chars_soleToken, List.nil_append, List.length_append, ← List.drop_drop,
      List.append_assoc, hw, hb]

theorem findFirst?_chars {accepts : Accepts} {labels : List (List Char)} {cs : List Char}
    {l : Lexeme} (h : findFirst? accepts labels cs = some l) : l.chars = cs := by
  unfold findFirst? at h
  split at h
  · exact findChunk?_chars h
  · split at h
    · exact findRawLine?_chars h
    split at h
    · exact findEndLabel?_chars h
    split at h
    · exact findLabel?_chars h
    split at h
    · obtain rfl := Option.some.inj h
      simp
    · simp at h

theorem findNext?_chars {accepts : Accepts} {labels : List (List Char)} {cs : List Char}
    {l : Lexeme} (h : findNext? accepts labels cs = some l) : l.chars = cs := by
  unfold findNext? at h
  split at h
  · exact findPlain?_chars h
  split at h
  · exact findMarkup?_chars h
  have hb := takeWhile_append_drop isLayout cs
  rcases Option.or_eq_some_iff.1 h with h | ⟨-, h⟩
  · split at h
    · exact findNewline?_chars h
    · simp at h
  rcases Option.or_eq_some_iff.1 h with h | ⟨-, h⟩
  · rw [findEscape?_chars h, hb]
  · rw [findInCode?_chars h, hb]

/-- **Nothing of a text is lost by looking for its next token.** -/
theorem nextLexeme?_chars {accepts : Accepts} {labels : List (List Char)} {cs : List Char}
    {l : Lexeme} (h : nextLexeme? accepts labels cs = some l) : l.chars = cs := by
  rcases Option.or_eq_some_iff.1 h with h | ⟨-, h⟩
  · exact findFirst?_chars h
  · exact findNext?_chars h

/-! ### The end of a text -/

/-- A way to read the front of a text that does not take it for the end. -/
def Alternative.SparesEnd (a : Alternative) : Prop :=
  ∀ ts, a.terminals? = some ts → .finish ∉ ts

@[simp]
theorem Alternative.sparesEnd_token (n : Nat) (ts : List Terminal) :
    (token n ts).SparesEnd ↔ .finish ∉ ts := by
  simp [SparesEnd, token]

theorem Alternative.sparesEnd_floats (cs : List Char) : ∀ a ∈ floats cs, a.SparesEnd := by
  unfold floats
  split <;> simp

theorem Alternative.sparesEnd_integers (cs : List Char) : ∀ a ∈ integers cs, a.SparesEnd := by
  unfold integers
  split <;> simp

theorem Alternative.sparesEnd_marks (cs : List Char) : ∀ a ∈ marks cs, a.SparesEnd := by
  intro a ha
  simp only [marks, List.mem_append, List.mem_map] at ha
  rcases ha with ⟨t, -, rfl⟩ | ha
  · simp [mark]
  · split at ha
    · simp at ha
    · obtain rfl := List.mem_singleton.1 ha
      simp [mark]

theorem Alternative.sparesEnd_comments (cs : List Char) : ∀ a ∈ comments cs, a.SparesEnd := by
  unfold comments
  split
  · simp [SparesEnd]
  · split <;> simp [SparesEnd]
  · split <;> simp [SparesEnd]
  · simp

theorem Alternative.sparesEnd_words (cs : List Char) : ∀ a ∈ words cs, a.SparesEnd := by
  intro a ha
  simp only [words, List.mem_append, List.mem_singleton] at ha
  rcases ha with ha | rfl
  · split at ha
    · split at ha
      · obtain rfl := List.mem_singleton.1 ha
        simp
      · split at ha
        · split at ha
          · obtain rfl := List.mem_singleton.1 ha
            simp
          · simp at ha
        · simp at ha
    · simp at ha
  · simp only [sparesEnd_token, wordTerminals]
    split <;> split <;> simp

theorem Alternative.sparesEnd_all (cs : List Char) : ∀ a ∈ all cs, a.SparesEnd := by
  intro a ha
  simp only [all, List.mem_mergeSort] at ha
  split at ha
  · simp at ha
  · split at ha
    · rcases List.mem_append.1 ha with ha | ha
      · exact sparesEnd_floats _ a ha
      · exact sparesEnd_words _ a ha
    · split at ha
      · rcases List.mem_append.1 ha with ha | ha
        · exact sparesEnd_integers _ a ha
        · exact sparesEnd_floats _ a ha
      · rcases List.mem_append.1 ha with ha | ha
        · rcases List.mem_append.1 ha with ha | ha
          · exact sparesEnd_comments _ a ha
          · exact sparesEnd_marks _ a ha
        · exact sparesEnd_floats _ a ha

/-- A lexeme that tells the end of the source has nothing behind its gap. -/
def Lexeme.EndsText (l : Lexeme) : Prop :=
  ∀ ts text, l.find = .token .finish ts text → text = [] ∧ l.rest = []

theorem Lexeme.endsText_soleToken {labels : List (List Char)} {gap : List Char} {t : Terminal}
    {text rest : List Char} (ht : t ≠ .finish) :
    (soleToken labels gap t text rest).EndsText := by
  intro ts text' h
  simp only [soleToken, lexeme, Find.token.injEq] at h
  exact absurd h.1 ht

theorem pickAlternative?_endsText {accepts : Accepts} {labels : List (List Char)}
    {gap cs : List Char} {as : List Alternative} {l : Lexeme}
    (has : ∀ a ∈ as, a.SparesEnd)
    (h : pickAlternative? accepts labels gap cs as = some l) : l.EndsText := by
  induction as with
  | nil => simp [pickAlternative?] at h
  | cons a as ih =>
    simp only [pickAlternative?] at h
    split at h
    · obtain rfl := Option.some.inj h
      intro ts text ht
      simp [lexeme] at ht
    · rename_i ts hts
      split at h
      · rename_i t ht
        obtain rfl := Option.some.inj h
        intro ts' text hfind
        simp only [lexeme, Find.token.injEq] at hfind
        -- the terminal is one of those offered, and none of them is the end
        have hmem := List.mem_of_find?_eq_some ht
        rw [hfind.1] at hmem
        exact absurd hmem (has a List.mem_cons_self ts hts)
      · exact ih (fun b hb => has b (List.mem_cons_of_mem _ hb)) h

theorem findInCode?_endsText {accepts : Accepts} {labels : List (List Char)} {gap cs : List Char}
    {l : Lexeme} (h : findInCode? accepts labels gap cs = some l) : l.EndsText := by
  unfold findInCode? at h
  split at h
  · split at h
    · obtain rfl := Option.some.inj h
      intro ts text ht
      simp_all [soleToken, lexeme]
    · simp at h
  · obtain rfl := Option.some.inj h
    intro ts text ht
    simp [lexeme] at ht
  · exact pickAlternative?_endsText (Alternative.sparesEnd_all _) h

theorem findMarkup?_endsText {accepts : Accepts} {labels : List (List Char)} {cs : List Char}
    {l : Lexeme} (h : findMarkup? accepts labels cs = some l) : l.EndsText := by
  simp only [findMarkup?] at h
  split at h
  · split at h
    · obtain rfl := Option.some.inj h
      exact Lexeme.endsText_soleToken (by simp)
    · simp at h
  · split at h
    · obtain rfl := Option.some.inj h
      exact Lexeme.endsText_soleToken (by simp)
    · split at h
      · obtain rfl := Option.some.inj h
        intro ts text ht
        simp_all [soleToken, lexeme]
      · simp at h

theorem findFirst?_endsText {accepts : Accepts} {labels : List (List Char)} {cs : List Char}
    {l : Lexeme} (h : findFirst? accepts labels cs = some l) : l.EndsText := by
  unfold findFirst? at h
  split at h
  · rename_i frame behind _
    -- all that is found here is a run of characters, never the end
    unfold findChunk? at h
    cases frame <;> simp only [Option.bind_eq_bind, Option.bind_eq_some_iff] at h
    all_goals obtain ⟨_, -, _, -, h⟩ := h
    all_goals split at h
    all_goals try simp at h
    all_goals subst h; exact Lexeme.endsText_soleToken (by simp)
  · split at h
    · unfold findRawLine? at h
      simp only [Option.bind_eq_bind, Option.bind_eq_some_iff] at h
      obtain ⟨_, -, _, -, h⟩ := h
      split at h
      · simp at h
      · obtain rfl := Option.some.inj h
        exact Lexeme.endsText_soleToken (by simp)
    split at h
    · simp only [findEndLabel?] at h
      split at h
      · obtain rfl := Option.some.inj h
        exact Lexeme.endsText_soleToken (by simp)
      · simp at h
    split at h
    · simp only [findLabel?] at h
      split at h
      · simp at h
      · obtain rfl := Option.some.inj h
        exact Lexeme.endsText_soleToken (by simp)
    split at h
    · obtain rfl := Option.some.inj h
      exact Lexeme.endsText_soleToken (by simp)
    · simp at h

theorem findPlain?_endsText {labels : List (List Char)} {cs : List Char} {l : Lexeme}
    (h : findPlain? labels cs = some l) : l.EndsText := by
  unfold findPlain? at h
  split at h
  · obtain rfl := Option.some.inj h
    exact Lexeme.endsText_soleToken (by simp)
  split at h
  · split at h
    · obtain rfl := Option.some.inj h
      exact Lexeme.endsText_soleToken (by simp)
    · simp at h
  · obtain rfl := Option.some.inj h
    exact Lexeme.endsText_soleToken (by simp)

theorem findEscape?_endsText {accepts : Accepts} {labels : List (List Char)} {gap cs : List Char}
    {l : Lexeme} (h : findEscape? accepts labels gap cs = some l) : l.EndsText := by
  unfold findEscape? at h
  split at h <;> split at h
  all_goals try simp at h
  all_goals subst h; exact Lexeme.endsText_soleToken (by simp)

/-- **The end is told at the end only.** -/
theorem nextLexeme?_endsText {accepts : Accepts} {labels : List (List Char)} {cs : List Char}
    {l : Lexeme} (h : nextLexeme? accepts labels cs = some l) : l.EndsText := by
  rcases Option.or_eq_some_iff.1 h with h | ⟨-, h⟩
  · exact findFirst?_endsText h
  unfold findNext? at h
  split at h
  · exact findPlain?_endsText h
  split at h
  · exact findMarkup?_endsText h
  rcases Option.or_eq_some_iff.1 h with h | ⟨-, h⟩
  · split at h
    · obtain ⟨_, -, rfl⟩ := Option.map_eq_some_iff.1 h
      exact Lexeme.endsText_soleToken (by simp)
    · simp at h
  rcases Option.or_eq_some_iff.1 h with h | ⟨-, h⟩
  · exact findEscape?_endsText h
  · exact findInCode?_endsText h

end DocBlocks
