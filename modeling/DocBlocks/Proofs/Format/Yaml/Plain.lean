import DocBlocks.Proofs.Format.Yaml.Scalar
import DocBlocks.Proofs.Format.Yaml.TokenReader

/-!
# Plain texts

What can stand without quotes (`StandsPlain`) is read as it stands: as a key up to its colon
(`gives_plainScalar`), and as a value up to the next line (`exists_run_plainScalar`).

A plain text is read run by run. Of a text that `IsPlain`, every part behind a blank is plain again,
so that the runs are passed one after the other (`exists_leads_plainWithin`).
-/

namespace DocBlocks.Yaml

/-- No colon in a plain text ends it. -/
theorem IsPlain.isBlankOrGone {word tail : List Char} (h : IsPlain (word ++ tail))
    {front back : List Char} (hword : word = front ++ ':' :: back) (rest : List Char) :
    Scan.isBlankOrGone (back ++ (tail ++ rest)).head? = false := by
  have hcolon := h.colon front (back ++ tail) (by rw [hword, List.append_assoc, List.cons_append])
  rw [← List.append_assoc]
  cases hcs : back ++ tail with
  | nil =>
    rw [hcs] at hcolon
    cases hcolon
  | cons c cs =>
    rw [hcs, List.head?_cons, isBlankOrEnd, Bool.or_eq_false_iff] at hcolon
    exact hcolon.1

/-- A text is one word, or one with blanks and a further text behind it. -/
theorem exists_word {cs : List Char} (hhead : cs.head? ≠ some ' ') (hlast : cs.getLast? ≠ some ' ') :
    (∀ c ∈ cs, c ≠ ' ') ∨ ∃ word n cs', cs = word ++ (List.replicate (n + 1) ' ' ++ cs') ∧
      (∀ c ∈ word, c ≠ ' ') ∧ word ≠ [] ∧ cs' ≠ [] ∧ cs'.head? ≠ some ' ' := by
  obtain ⟨word, tail, rfl, hword, htail⟩ := exists_span (· != ' ') cs
  obtain ⟨blanks, cs', rfl, hblanks, hcs'⟩ := exists_span (· == ' ') tail
  obtain ⟨n, rfl⟩ : ∃ n, blanks = List.replicate n ' ' :=
    ⟨_, List.eq_replicate_of_mem fun c hc => by simpa using hblanks c hc⟩
  have hword' : ∀ c ∈ word, c ≠ ' ' := fun c hc => by simpa using hword c hc
  cases n with
  | zero =>
    -- nothing stands behind the word
    have hnil : cs' = [] := by
      cases cs' with
      | nil => rfl
      | cons c cs' => exact absurd (htail c rfl) (by simpa using hcs' c rfl)
    subst hnil
    exact .inl (by simpa using hword')
  | succ n =>
    refine .inr ⟨word, n, cs', rfl, hword', ?_, ?_, fun h => by simpa using hcs' ' ' h⟩
    · rintro rfl
      exact hhead rfl
    · rintro rfl
      refine hlast ?_
      rw [List.append_nil, List.replicate_succ', ← List.append_assoc, List.getLast?_concat]

namespace Scan

variable {s : TokenReader} {start mark : Mark} {rest : List Char}

/-! ### Runs -/

/-- Whether a run of a plain text ends in front of a text. -/
def EndsRun (rest : List Char) : Prop :=
  ∀ c ∈ rest.head?, isBlank c = true ∨ isBreak c = true ∨
    c = ':' ∧ isBlankOrGone rest.tail.head? = true

theorem gives_plainRun {word : List Char}
    (hword : ∀ c ∈ word, isBlank c = false ∧ isBreak c = false)
    (hcolon : ∀ front back, word = front ++ ':' :: back →
      isBlankOrGone (back ++ rest).head? = false) (hrest : EndsRun rest) :
    ∀ (fuel : Nat) (acc : List Char) (mark : Mark), word.length < fuel →
      Gives (plainRun start false fuel acc) s (word ++ rest) mark (acc.reverse ++ word) rest
        (mark.after word.length) := by
  induction word with
  | nil =>
    rintro (- | fuel) acc mark hfuel
    · omega
    refine Gives.bind (gives_peek ..) (Gives.bind (gives_peekAt ..) ?_)
    rw [List.nil_append, List.append_nil]
    cases rest with
    | nil => exact gives_pure ..
    | cons c rest =>
      simp only [List.head?_cons, Bool.false_and, Bool.false_eq_true, if_false, Bool.or_false,
        List.drop_one, List.tail_cons]
      rcases hrest c rfl with h | h | ⟨rfl, h⟩
      · simp only [h, Bool.true_or, if_true]
        exact gives_pure ..
      · simp only [h, Bool.or_true, if_true]
        exact gives_pure ..
      · rw [List.tail_cons] at h
        simp only [h, beq_self_eq_true, Bool.and_self, if_true, ite_self]
        exact gives_pure ..
  | cons c word ih =>
    rintro (- | fuel) acc mark hfuel
    · omega
    rw [List.forall_mem_cons] at hword
    have h := ih hword.2 (fun front back h => hcolon (c :: front) back (by rw [h]; rfl)) fuel
      (c :: acc) (mark.after 1) (by simpa using hfuel)
    rw [Mark.after_after, Nat.add_comm, List.reverse_cons, List.append_assoc,
      List.singleton_append] at h
    have hgoes : (c == ':' && isBlankOrGone (word ++ rest).head?) = false := by
      by_cases hc : c = ':'
      · subst hc
        rw [hcolon [] word rfl, Bool.and_false]
      · rw [beq_eq_false_iff_ne.2 hc, Bool.false_and]
    refine Gives.bind (gives_peek ..) (Gives.bind (gives_peekAt ..) ?_)
    simp only [List.cons_append, List.head?_cons, hword.1.1, hword.1.2, Bool.or_self, Bool.false_and,
      Bool.false_eq_true, if_false, List.drop_one, List.tail_cons, hgoes]
    exact Gives.bind (gives_skip 1 ..) h

/-! ### Gaps -/

/-- The check of blanks behind a line break. -/
def tabCheck (start : Mark) (indent : Int) : Scan Unit := do
  if (← here).column < indent + 1 && (← sees '\t') then
    fail (some ("while scanning a plain scalar", start))
      "found a tab character that violates indentation"

theorem gives_tabCheck (start : Mark) (indent : Int) (s : TokenReader) {text : List Char}
    (htext : text.head? = some ' ') (mark : Mark) :
    Gives (tabCheck start indent) s text mark () text mark := by
  refine Gives.bind (gives_here ..) (Gives.bind (gives_sees ..) ?_)
  have htab : (text.head? == some '\t') = false := by simp [htext]
  rw [htab, Bool.and_false, if_neg Bool.false_ne_true]
  exact gives_pure ..

/-- How a plain text goes on behind a run of characters. -/
def plainGap (start : Mark) (indent : Int) (level fuel : Nat) (t : PlainText) : Scan PlainText := do
  if (← peek).any fun c => isBlank c || isBreak c then
    let gap ← takeGap (tabCheck start indent) t.gap
    let t := { t with gap := gap }
    if level == 0 && (← here).column < indent + 1 then pure t
    else plainWithin start fuel t
  else pure t

/-- Whether a text at a place is no mark of a document. -/
def InDocument (text : List Char) (mark : Mark) : Prop :=
  mark.column ≠ 0 ∨ opensDocument text = false

theorem InDocument.gives_documentMarkAhead {text : List Char} (h : InDocument text mark)
    (s : TokenReader) :
    Gives (documentMarkAhead '-') s text mark false text mark ∧
      Gives (documentMarkAhead '.') s text mark false text mark := by
  have h' : mark.column ≠ 0 ∨ ['-', '-', '-'].isPrefixOf text = false ∧
      ['.', '.', '.'].isPrefixOf text = false := by
    rwa [InDocument, opensDocument, Bool.or_eq_false_iff] at h
  exact ⟨Scan.gives_documentMarkAhead (h'.imp_right And.left) s,
    Scan.gives_documentMarkAhead (h'.imp_right And.right) s⟩

/-- A plain text begins with a run. -/
theorem leads_plainWithin {word : List Char} (hflow : flowLevel s = 0) (hne : word ≠ [])
    (hmark : InDocument (word ++ rest) mark) (hhead : (word ++ rest).head? ≠ some '#')
    (hword : ∀ c ∈ word, isBlank c = false ∧ isBreak c = false)
    (hcolon : ∀ front back, word = front ++ ':' :: back →
      isBlankOrGone (back ++ rest).head? = false) (hrest : EndsRun rest) (fuel : Nat)
    (t : PlainText) :
    Leads (plainWithin start (fuel + 1) t) s (word ++ rest) mark
      (plainGap start s.indent (flowLevel s) fuel
        ⟨t.text ++ t.gap.folded ++ word, .empty, mark.after word.length⟩) rest
      (mark.after word.length) := by
  obtain ⟨hdash, hdot⟩ := hmark.gives_documentMarkAhead s
  have hlevel : (flowLevel s != 0) = false := by rw [hflow]; rfl
  have hrun : Gives (plainRun start (flowLevel s != 0) ((word ++ rest).length + 1) []) s
      (word ++ rest) mark word rest (mark.after word.length) := by
    rw [hlevel]
    exact gives_plainRun hword hcolon hrest _ [] mark (by simp)
  refine Gives.bind hdash (Gives.bind hdot (Gives.bind (gives_sees ..) ?_))
  rw [beq_eq_false_iff_ne.2 hhead]
  simp only [Bool.or_self, Bool.false_eq_true, if_false]
  refine leads_get_bind (Gives.bind hrun ?_)
  simp only [List.isEmpty_eq_false_iff.2 hne, Bool.false_eq_true, if_false]
  exact Gives.bind (gives_here ..) (Gives.bind (gives_pure ..) (.refl ..))

/-- Blanks between words are passed. -/
theorem leads_plainGap_blanks (hrest : EndsGap rest) {n : Nat}
    (hcolumn : s.indent + 1 ≤ mark.column) (fuel : Nat) (text : List Char) (stop : Mark) :
    Leads (plainGap start s.indent (flowLevel s) fuel ⟨text, .empty, stop⟩) s
      (List.replicate (n + 1) ' ' ++ rest) mark
      (plainWithin start fuel ⟨text, ⟨List.replicate (n + 1) ' ', [], [], false⟩, stop⟩) rest
      (mark.after (n + 1)) := by
  refine Gives.bind (gives_peek ..) ?_
  simp only [List.replicate_succ, List.cons_append, List.head?_cons, Option.any_some, isBlank_space,
    Bool.true_or, if_true]
  rw [← List.cons_append, ← List.replicate_succ]
  refine Gives.bind (gives_takeGap_blanks _ hrest s (n + 1) mark) (Gives.bind (gives_here ..) ?_)
  have hinside : decide (((mark.after (n + 1)).column : Int) < s.indent + 1) = false := by
    rw [Mark.column_after]
    exact decide_eq_false (by push_cast; omega)
  rw [hinside, Bool.and_false, if_neg Bool.false_ne_true]
  exact .refl ..

/-- The run behind the last line of a plain text ends it. -/
theorem exists_gives_plainGap_newLine (start mark : Mark) (hflow : flowLevel s = 0) (hrest : EndsGap rest) {n : Nat}
    (hcolumn : (n : Int) ≤ s.indent) (fuel : Nat) (text : List Char) (stop : Mark) :
    ∃ mark', mark'.column = n ∧ mark.line < mark'.line ∧
      Gives (plainGap start s.indent (flowLevel s) fuel ⟨text, .empty, stop⟩) s
        ('\n' :: (List.replicate n ' ' ++ rest)) mark ⟨text, ⟨[], ['\n'], [], true⟩, stop⟩ rest
        mark' := by
  obtain ⟨mark', hn, hline, hgap⟩ := exists_gives_takeGap_breaks (s := s) hrest
    (fun text mark h => gives_tabCheck start s.indent s h mark) n isLineBreak_newline
    (List.forall_mem_nil _) mark
  refine ⟨mark', hn, hline, Gives.bind (gives_peek ..) ?_⟩
  rw [List.head?_cons, Option.any_some, isLineBreak_newline.2, Bool.or_true, if_pos rfl]
  refine Gives.bind hgap (Gives.bind (gives_here ..) ?_)
  rw [hflow, beq_self_eq_true, Bool.true_and, if_pos (decide_eq_true (by omega))]
  exact gives_pure ..

theorem gives_plainGap_colon (fuel : Nat) (t : PlainText) (rest : List Char) :
    Gives (plainGap start s.indent (flowLevel s) fuel t) s (':' :: rest) mark t (':' :: rest)
      mark := by
  refine Gives.bind (gives_peek ..) ?_
  rw [List.head?_cons, Option.any_some, if_neg (by decide)]
  exact gives_pure ..

/-! ### Texts -/

/-- A plain text is passed word by word. -/
theorem exists_leads_plainWithin (start : Mark) {cs : List Char} (hflow : flowLevel s = 0) (hplain : IsPlain cs)
    (hne : cs ≠ []) (hspace : cs.head? ≠ some ' ') (hhead : cs.head? ≠ some '#')
    (hrest : EndsRun rest) :
    ∀ (fuel : Nat) (t : PlainText) (mark : Mark), cs.length ≤ fuel → InDocument (cs ++ rest) mark →
      s.indent ≤ mark.column →
      ∃ fuel', Leads (plainWithin start (fuel + 1) t) s (cs ++ rest) mark
        (plainGap start s.indent (flowLevel s) fuel'
          ⟨t.text ++ t.gap.folded ++ cs, .empty, mark.after cs.length⟩) rest
        (mark.after cs.length) := by
  induction hlength : cs.length using Nat.strong_induction_on generalizing cs with
  | h length ih =>
  intro fuel t mark hfuel hmark hcolumn
  subst hlength
  have hhead' : (cs ++ rest).head? ≠ some '#' := by rwa [List.head?_append_of_ne_nil _ hne]
  rcases exists_word hspace hplain.last with hword | ⟨word, n, cs', rfl, hword, hne', hcs', hspace'⟩
  · refine ⟨fuel, leads_plainWithin hflow hne hmark hhead' (fun c hc => ?_) ?_ hrest fuel t⟩
    · exact ⟨isBlank_eq_false (hplain.inLine c hc).1 (hword c hc), (hplain.inLine c hc).2⟩
    · rintro front back rfl
      rw [← List.append_nil (front ++ ':' :: back)] at hplain
      have h := hplain.isBlankOrGone rfl rest
      rwa [List.nil_append] at h
  · -- behind the blanks stands a plain text again
    have hplain' : IsPlain cs' := by
      rw [← List.append_assoc] at hplain
      exact hplain.of_append
    have hcomment : cs'.head? ≠ some '#' := by
      intro h
      obtain ⟨tail, rfl⟩ := List.head?_eq_some_iff.1 h
      exact hplain.comment (word ++ List.replicate n ' ') tail (by simp [List.replicate_succ'])
    have hgap : EndsGap (cs' ++ rest) := by
      intro c hc
      rw [List.head?_append_of_ne_nil _ hcs'] at hc
      have hmem : c ∈ cs' := List.mem_of_mem_head? hc
      refine ⟨isBlank_eq_false (hplain'.inLine c hmem).1 ?_, (hplain'.inLine c hmem).2⟩
      rintro rfl
      exact hspace' hc
    have hlength : (word ++ (List.replicate (n + 1) ' ' ++ cs')).length =
        word.length + (n + 1) + cs'.length := by
      simp [Nat.add_assoc]
    obtain ⟨fuel, rfl⟩ := Nat.exists_eq_add_one_of_ne_zero (n := fuel) (by omega)
    obtain ⟨fuel', htail⟩ := ih cs'.length (by omega) hplain' hcs' hspace' hcomment rfl fuel
      ⟨t.text ++ t.gap.folded ++ word, ⟨List.replicate (n + 1) ' ', [], [], false⟩,
        mark.after word.length⟩ ((mark.after word.length).after (n + 1)) (by omega)
      (.inl (by simp)) (by simp; omega)
    have hfirst : Leads (plainWithin start (fuel + 1 + 1) t) s
        (word ++ (List.replicate (n + 1) ' ' ++ (cs' ++ rest))) mark
        (plainGap start s.indent (flowLevel s) (fuel + 1)
          ⟨t.text ++ t.gap.folded ++ word, .empty, mark.after word.length⟩)
        (List.replicate (n + 1) ' ' ++ (cs' ++ rest)) (mark.after word.length) := by
      refine leads_plainWithin hflow hne' (by simpa using hmark) (by simpa using hhead')
        (fun c hc => ?_) (fun front back h => ?_) (fun c hc => .inl ?_) (fuel + 1) t
      · obtain ⟨hprintable, hbreak⟩ := hplain.inLine c (List.mem_append_left _ hc)
        exact ⟨isBlank_eq_false hprintable (hword c hc), hbreak⟩
      · rw [← List.append_assoc (List.replicate ..)]
        exact hplain.isBlankOrGone h rest
      · obtain rfl : ' ' = c := Option.some.inj hc
        rfl
    have hblanks : Leads (plainGap start s.indent (flowLevel s) (fuel + 1)
          ⟨t.text ++ t.gap.folded ++ word, .empty, mark.after word.length⟩) s
        (List.replicate (n + 1) ' ' ++ (cs' ++ rest)) (mark.after word.length)
        (plainWithin start (fuel + 1) ⟨t.text ++ t.gap.folded ++ word,
          ⟨List.replicate (n + 1) ' ', [], [], false⟩, mark.after word.length⟩)
        (cs' ++ rest) ((mark.after word.length).after (n + 1)) :=
      leads_plainGap_blanks hgap (by have := List.length_pos_iff.2 hne'; simp; omega) ..
    have hall := (hfirst.trans hblanks).trans htail
    simp only [Gap.folded, Bool.false_eq_true, if_false, Mark.after_after, List.append_assoc] at hall
    refine ⟨fuel', ?_⟩
    rw [hlength]
    simpa only [Gap.folded, Bool.false_eq_true, if_false, List.append_assoc] using hall

theorem endsRun_newLine (rest : List Char) : EndsRun ('\n' :: rest) := by
  rintro c ⟨⟩
  exact .inr (.inl isLineBreak_newline.2)

theorem endsRun_colon (h : isBlankOrGone rest.head? = true) : EndsRun (':' :: rest) := by
  rintro c ⟨⟩
  exact .inr (.inr ⟨rfl, h⟩)

/-- **A plain key is read** up to its colon. -/
theorem gives_plainScalar {cs : List Char} (hflow : flowLevel s = 0) (h : StandsPlain cs)
    (hrest : isBlankOrGone rest.head? = true) (hmark : InDocument (cs ++ ':' :: rest) mark)
    (hcolumn : s.indent ≤ mark.column) :
    Gives plainScalar s (cs ++ ':' :: rest) mark
      ⟨.scalar (String.ofList cs) .plain, mark, mark.after cs.length⟩ (':' :: rest)
      (mark.after cs.length) := by
  obtain ⟨fuel, hleads⟩ := exists_leads_plainWithin mark hflow h.toIsPlain h.ne_nil
    h.head?_ne_space h.head?_ne_comment (endsRun_colon hrest) (cs ++ ':' :: rest).length
    ⟨[], .empty, mark⟩ mark (by simp) hmark hcolumn
  have hwithin : Gives (plainWithin mark ((cs ++ ':' :: rest).length + 1) ⟨[], .empty, mark⟩) s
      (cs ++ ':' :: rest) mark ⟨cs, .empty, mark.after cs.length⟩ (':' :: rest)
      (mark.after cs.length) :=
    hleads.trans (gives_plainGap_colon ..)
  exact Gives.bind (gives_here ..) (leads_get_bind (Gives.bind hwithin (gives_pure ..)))

/-- **A plain value is read** up to the next line, where a key may stand. -/
theorem exists_run_plainScalar {cs : List Char} (hflow : flowLevel s = 0) (h : StandsPlain cs)
    (hrest : EndsGap rest) {n : Nat} (hn : (n : Int) ≤ s.indent)
    (hmark : InDocument (cs ++ '\n' :: (List.replicate n ' ' ++ rest)) mark)
    (hcolumn : s.indent ≤ mark.column) :
    ∃ stop mark', mark'.column = n ∧ mark.line < mark'.line ∧
      plainScalar.run
          { s with rest := cs ++ '\n' :: (List.replicate n ' ' ++ rest), mark := mark } =
        .ok (⟨.scalar (String.ofList cs) .plain, mark, stop⟩,
          { s with rest := rest, mark := mark', keyAllowed := true }) := by
  obtain ⟨fuel, hleads⟩ := exists_leads_plainWithin mark hflow h.toIsPlain h.ne_nil
    h.head?_ne_space h.head?_ne_comment (endsRun_newLine _)
    (cs ++ '\n' :: (List.replicate n ' ' ++ rest)).length ⟨[], .empty, mark⟩ mark (by simp) hmark
    hcolumn
  obtain ⟨mark', hcolumn', hline, hgap⟩ := exists_gives_plainGap_newLine mark (mark.after cs.length)
    hflow hrest hn fuel cs (mark.after cs.length)
  refine ⟨mark.after cs.length, mark', hcolumn', hline, ?_⟩
  have hwithin : Gives (plainWithin mark
      ((cs ++ '\n' :: (List.replicate n ' ' ++ rest)).length + 1) ⟨[], .empty, mark⟩) s
      (cs ++ '\n' :: (List.replicate n ' ' ++ rest)) mark
      ⟨cs, ⟨[], ['\n'], [], true⟩, mark.after cs.length⟩ rest mark' := hleads.trans hgap
  have hscalar : Leads plainScalar s (cs ++ '\n' :: (List.replicate n ' ' ++ rest)) mark
      (do allowKey true; pure ⟨.scalar (String.ofList cs) .plain, mark, mark.after cs.length⟩) rest
      mark' :=
    Gives.bind (gives_here ..) (leads_get_bind (Gives.bind hwithin (.refl ..)))
  exact hscalar.run

end Scan

end DocBlocks.Yaml
