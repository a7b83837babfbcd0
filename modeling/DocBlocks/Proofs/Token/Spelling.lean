import DocBlocks.Proofs.Token.Lossless

/-!
# What tokens are made of

`nextLexeme?_spelled`: a mark is spelled as it is called, a keyword begins like a name, and a pause
is nothing in front of a closing tag that is in sight. Each way to read the front of a text is
looked at once (`Alternative.spelled_all`); what the finders look for before and behind those ways
is never a mark of code or a keyword.
-/

namespace DocBlocks

/-- Whether a text and what follows it suit a terminal. -/
def Terminal.Spells (t : Terminal) (gap text rest : List Char) : Prop :=
  match t with
  | .mark s => text = s.toList
  | .keyword _ => ∃ c cs, text = c :: cs ∧ isNameStart c = true
  | .pause => gap = [] ∧ text = [] ∧ seesClosingTag rest = true
  | _ => True

/-- Whether a lexeme that is a token is spelled as its terminal says. -/
def Lexeme.Spelled (l : Lexeme) : Prop :=
  ∀ t ts text, l.find = .token t ts text → t.Spells l.gap text l.rest

theorem Lexeme.spelled_soleToken {labels : List (List Char)} {gap : List Char} {t : Terminal}
    {text rest : List Char} (h : t.Spells gap text rest) :
    (soleToken labels gap t text rest).Spelled := by
  intro t' ts text' hfind
  simp only [soleToken, lexeme, Find.token.injEq] at hfind
  obtain ⟨rfl, -, rfl⟩ := hfind
  exact h

/-! ### Marks and words -/

namespace Alternative

/-- Whether a way to read the front of a text suits all the terminals it offers, whatever stands
around. -/
def Spelled (cs : List Char) (a : Alternative) : Prop :=
  ∀ ts, a.terminals? = some ts → ∀ t ∈ ts, ∀ gap rest, t.Spells gap (cs.take a.length) rest

/-- A way to read that offers one terminal which may be spelled in any way. -/
theorem spelled_token {cs : List Char} {n : Nat} {t : Terminal}
    (h : ∀ gap text rest, t.Spells gap text rest) : (token n [t]).Spelled cs := by
  intro ts hts t' ht' gap rest
  obtain rfl := Option.some.inj hts
  obtain rfl := List.mem_singleton.1 ht'
  exact h _ _ _

theorem spelled_mark {cs text : List Char} (h : text <+: cs) : (mark text).Spelled cs := by
  have htake : cs.take text.length = text := (List.prefix_iff_eq_take.1 h).symm
  intro ts hts t ht gap rest
  obtain rfl := Option.some.inj hts
  simp only [List.mem_cons, List.not_mem_nil, or_false] at ht
  rcases ht with rfl | rfl
  · trivial
  · simpa [Terminal.Spells, mark, token] using htake

theorem spelled_marks (cs : List Char) : ∀ a ∈ marks cs, a.Spelled cs := by
  intro a ha
  simp only [marks, List.mem_append, List.mem_map, List.mem_filter,
    List.isPrefixOf_iff_prefix] at ha
  rcases ha with ⟨t, ⟨-, ht⟩, rfl⟩ | ha
  · exact spelled_mark ht
  · split at ha
    · simp at ha
    · rename_i hne
      obtain rfl := List.mem_singleton.1 ha
      -- a mark of one character is the whole of what was looked at
      cases cs with
      | nil => simp at hne
      | cons c cs =>
        simp only [List.take_succ_cons, List.take_zero] at hne ⊢
        by_cases hc : shortMarks.contains c
        · rw [List.filter_cons_of_pos hc, List.filter_nil]
          exact spelled_mark (by simp)
        · rw [List.filter_cons_of_neg hc] at hne
          simp at hne

theorem spelled_floats (cs : List Char) : ∀ a ∈ floats cs, a.Spelled cs := by
  intro a ha
  unfold floats at ha
  split at ha
  · simp at ha
  · obtain rfl := List.mem_singleton.1 ha
    exact spelled_token fun _ _ _ => trivial

theorem spelled_integers (cs : List Char) : ∀ a ∈ integers cs, a.Spelled cs := by
  intro a ha
  unfold integers at ha
  split at ha
  · simp at ha
  · obtain rfl := List.mem_singleton.1 ha
    exact spelled_token fun _ _ _ => trivial

theorem spelled_comments (cs : List Char) : ∀ a ∈ comments cs, a.Spelled cs := by
  have hcomment : ∀ n, Spelled cs ⟨n, none⟩ := by
    intro n ts hts
    simp at hts
  intro a ha
  unfold comments at ha
  repeat' split at ha
  all_goals first
    | (obtain rfl := List.mem_singleton.1 ha; exact hcomment _)
    | simp at ha

/-- A word that begins like a name suits all terminals of words. -/
theorem spells_of_mem_wordTerminals {t : Terminal} {s : String} (h : t ∈ wordTerminals s)
    {c : Char} {cs : List Char} (hc : isNameStart c = true) (gap rest : List Char) :
    t.Spells gap (c :: cs) rest := by
  simp only [wordTerminals, List.mem_append, List.mem_cons, List.not_mem_nil, or_false] at h
  rcases h with ((((rfl | rfl) | h) | rfl) | h)
  · trivial
  · exact ⟨c, cs, rfl, hc⟩
  · split at h
    · obtain rfl := List.mem_singleton.1 h
      trivial
    · simp at h
  · trivial
  · split at h
    · simp at h
    · obtain rfl := List.mem_singleton.1 h
      trivial

theorem spelled_words {c : Char} (cs : List Char) (hc : isNameStart c = true) :
    ∀ a ∈ words (c :: cs), a.Spelled (c :: cs) := by
  intro a ha
  simp only [words, List.mem_append, List.mem_singleton] at ha
  rcases ha with ha | rfl
  · repeat' split at ha
    all_goals first
      | (obtain rfl := List.mem_singleton.1 ha; exact spelled_token fun _ _ _ => trivial)
      | simp at ha
  · have hname : isNameChar c = true := by simp [isNameChar, hc]
    intro ts hts t ht gap rest
    obtain rfl := Option.some.inj hts
    simp only [token, List.takeWhile_cons_of_pos hname, List.length_cons, List.take_succ_cons]
    exact spells_of_mem_wordTerminals ht hc gap rest

theorem spelled_all (cs : List Char) : ∀ a ∈ all cs, a.Spelled cs := by
  intro a ha
  simp only [all, List.mem_mergeSort] at ha
  split at ha
  · simp at ha
  · rename_i c cs
    split at ha
    · rename_i hc
      rcases List.mem_append.1 ha with ha | ha
      · exact spelled_floats _ a ha
      · exact spelled_words cs hc a ha
    split at ha
    · rcases List.mem_append.1 ha with ha | ha
      · exact spelled_integers _ a ha
      · exact spelled_floats _ a ha
    · rcases List.mem_append.1 ha with ha | ha
      · rcases List.mem_append.1 ha with ha | ha
        · exact spelled_comments _ a ha
        · exact spelled_marks _ a ha
      · exact spelled_floats _ a ha

end Alternative

/-! ### The finders -/

theorem pickAlternative?_spelled {accepts : Accepts} {labels : List (List Char)}
    {gap cs : List Char} {as : List Alternative} {l : Lexeme} (has : ∀ a ∈ as, a.Spelled cs)
    (h : pickAlternative? accepts labels gap cs as = some l) : l.Spelled := by
  induction as with
  | nil => simp [pickAlternative?] at h
  | cons a as ih =>
    simp only [pickAlternative?] at h
    split at h
    · obtain rfl := Option.some.inj h
      intro t ts text hfind
      simp [lexeme] at hfind
    · rename_i ts hts
      split at h
      · rename_i t ht
        obtain rfl := Option.some.inj h
        intro t' ts' text hfind
        simp only [lexeme, Find.token.injEq] at hfind
        obtain ⟨rfl, -, rfl⟩ := hfind
        exact has a List.mem_cons_self ts hts t (List.mem_of_find?_eq_some ht) _ _
      · exact ih (fun b hb => has b (List.mem_cons_of_mem _ hb)) h

theorem findInCode?_spelled {accepts : Accepts} {labels : List (List Char)} {gap cs : List Char}
    {l : Lexeme} (h : findInCode? accepts labels gap cs = some l) : l.Spelled := by
  unfold findInCode? at h
  split at h
  · split at h
    · obtain rfl := Option.some.inj h
      exact Lexeme.spelled_soleToken trivial
    · simp at h
  · obtain rfl := Option.some.inj h
    intro t ts text hfind
    simp [lexeme] at hfind
  · exact pickAlternative?_spelled (Alternative.spelled_all _) h

theorem findPlain?_spelled {labels : List (List Char)} {cs : List Char} {l : Lexeme}
    (h : findPlain? labels cs = some l) : l.Spelled := by
  unfold findPlain? at h
  split at h
  · obtain rfl := Option.some.inj h
    exact Lexeme.spelled_soleToken trivial
  split at h
  · split at h
    · rename_i hquote
      obtain rfl := Option.some.inj h
      -- the quote that closes the text
      cases cs with
      | nil => simp at hquote
      | cons c cs =>
        obtain rfl : c = '\'' := by simpa using hquote
        exact Lexeme.spelled_soleToken rfl
    · simp at h
  · obtain rfl := Option.some.inj h
    exact Lexeme.spelled_soleToken trivial

theorem findMarkup?_spelled {accepts : Accepts} {labels : List (List Char)} {cs : List Char}
    {l : Lexeme} (h : findMarkup? accepts labels cs = some l) : l.Spelled := by
  simp only [findMarkup?] at h
  repeat' split at h
  all_goals first
    | (obtain rfl := Option.some.inj h; exact Lexeme.spelled_soleToken trivial)
    | simp at h

theorem findEscape?_spelled {accepts : Accepts} {labels : List (List Char)} {gap cs : List Char}
    {l : Lexeme} (h : findEscape? accepts labels gap cs = some l) : l.Spelled := by
  unfold findEscape? at h
  split at h <;> split at h
  all_goals try simp at h
  all_goals subst h; exact Lexeme.spelled_soleToken trivial

theorem findChunk?_spelled {labels : List (List Char)} {frame : Frame} {behind : Bool}
    {cs : List Char} {l : Lexeme} (h : findChunk? labels frame behind cs = some l) :
    l.Spelled := by
  unfold findChunk? at h
  cases frame <;> simp only [Option.bind_eq_bind, Option.bind_eq_some_iff] at h
  all_goals obtain ⟨_, -, _, -, h⟩ := h
  all_goals split at h
  all_goals try simp at h
  all_goals subst h; exact Lexeme.spelled_soleToken trivial

theorem findFirst?_spelled {accepts : Accepts} {labels : List (List Char)} {cs : List Char}
    {l : Lexeme} (h : findFirst? accepts labels cs = some l) : l.Spelled := by
  unfold findFirst? at h
  split at h
  · exact findChunk?_spelled h
  split at h
  · unfold findRawLine? at h
    simp only [Option.bind_eq_bind, Option.bind_eq_some_iff] at h
    obtain ⟨_, -, _, -, h⟩ := h
    split at h
    · simp at h
    · obtain rfl := Option.some.inj h
      exact Lexeme.spelled_soleToken trivial
  split at h
  · simp only [findEndLabel?] at h
    split at h
    · obtain rfl := Option.some.inj h
      exact Lexeme.spelled_soleToken trivial
    · simp at h
  split at h
  · simp only [findLabel?] at h
    split at h
    · simp at h
    · obtain rfl := Option.some.inj h
      exact Lexeme.spelled_soleToken trivial
  split at h
  · rename_i hpause
    obtain rfl := Option.some.inj h
    exact Lexeme.spelled_soleToken ⟨rfl, rfl, (Bool.and_eq_true_iff.1 hpause).2⟩
  · simp at h

/-- **A token is spelled as its terminal says.** -/
theorem nextLexeme?_spelled {accepts : Accepts} {labels : List (List Char)} {cs : List Char}
    {l : Lexeme} (h : nextLexeme? accepts labels cs = some l) : l.Spelled := by
  rcases Option.or_eq_some_iff.1 h with h | ⟨-, h⟩
  · exact findFirst?_spelled h
  unfold findNext? at h
  split at h
  · exact findPlain?_spelled h
  split at h
  · exact findMarkup?_spelled h
  rcases Option.or_eq_some_iff.1 h with h | ⟨-, h⟩
  · split at h
    · obtain ⟨_, -, rfl⟩ := Option.map_eq_some_iff.1 h
      exact Lexeme.spelled_soleToken trivial
    · simp at h
  rcases Option.or_eq_some_iff.1 h with h | ⟨-, h⟩
  · exact findEscape?_spelled h
  · exact findInCode?_spelled h

/-! ### Closing tags in sight -/

/-- A closing tag is in sight behind blanks if it is in sight in front of them. -/
theorem seesClosingTag_append {blanks cs : List Char} (h : ∀ c ∈ blanks, isAsciiBlank c = true) :
    seesClosingTag (blanks ++ cs) = seesClosingTag cs := by
  induction blanks with
  | nil => rfl
  | cons c blanks ih =>
    rw [List.cons_append, seesClosingTag, if_pos (h c List.mem_cons_self)]
    exact ih fun d hd => h d (List.mem_cons_of_mem _ hd)

theorem isAsciiBlank_of_isNameStart {c : Char} (h : isNameStart c = true) :
    isAsciiBlank c = false := by
  by_contra hb
  have hle : c.toNat ≤ 32 := by
    simp only [Bool.not_eq_false, isAsciiBlank, Bool.or_eq_true, Bool.and_eq_true,
      decide_eq_true_eq, beq_iff_eq] at hb
    rcases hb with hb | rfl
    · omega
    · decide
  -- names begin behind all blanks
  have hletter : c.isAlpha = (decide (c.val ≥ 'A'.val ∧ c.val ≤ 'Z'.val) ||
      decide (c.val ≥ 'a'.val) && decide (c.val ≤ 'z'.val)) := rfl
  simp only [isNameStart, isWideNameChar, hletter, Bool.or_eq_true, Bool.and_eq_true,
    decide_eq_true_eq, beq_iff_eq, ge_iff_le, UInt32.le_iff_toNat_le] at h
  have hval : c.val.toNat = c.toNat := rfl
  have hA : 'A'.val.toNat = 65 := rfl
  have ha : 'a'.val.toNat = 97 := rfl
  rcases h with (h | rfl) | h
  · omega
  · exact absurd hle (by decide)
  · omega

/-- No closing tag is in sight in front of an attribute or a word. -/
theorem seesClosingTag_cons {c : Char} (cs : List Char) (h : c = '#' ∨ isNameStart c = true) :
    seesClosingTag (c :: cs) = false := by
  have hne : isAsciiBlank c = false ∧ c ≠ '?' ∧ c ≠ '/' := by
    rcases h with rfl | h
    · decide
    · refine ⟨isAsciiBlank_of_isNameStart h, ?_, ?_⟩
      all_goals rintro rfl; exact absurd h (by decide)
  simp [seesClosingTag, hne]

end DocBlocks
