import DocBlocks.Proofs.Format.Schema
import DocBlocks.Proofs.Format.Yaml.Scalar
import DocBlocks.Proofs.Format.Yaml.TokenReader

/-!
# Quoted texts

A text between quotes is read back. What it is written as is taken apart first: it is `Spelled` run
by run, with blanks, and between single quotes also line breaks, in the gaps between them. Whatever
is spelled in this way is read as what it spells (`exists_gives_quotedScalar`).
-/

namespace DocBlocks.Yaml

/-! ### Hexadecimal digits -/

/-- The upper-case hexadecimal digit of a number. -/
def hexChar (d : Nat) : Char := (Nat.digitChar d).toUpper

theorem hexValue?_hexChar {d : Nat} (h : d < 16) : Scan.hexValue? (hexChar d) = some d := by
  interval_cases d <;> decide

theorem exists_toDigits_eq_map (n : Nat) : ∃ ds : List Nat, (∀ d ∈ ds, d < 16) ∧
    Nat.toDigits 16 n = ds.map Nat.digitChar ∧ ds.foldl (fun n d => 16 * n + d) 0 = n := by
  induction n using Nat.strong_induction_on with
  | h n ih =>
    rw [Nat.toDigits_eq_if (by decide)]
    by_cases hn : n < 16
    · exact ⟨[n], by simpa using hn, by rw [if_pos hn]; rfl, by simp⟩
    · obtain ⟨ds, hds, hdigits, hvalue⟩ := ih (n / 16) (by omega)
      refine ⟨ds ++ [n % 16], ?_, by rw [if_neg hn, hdigits, List.map_append]; rfl, ?_⟩
      · rw [List.forall_mem_append, List.forall_mem_singleton]
        exact ⟨hds, Nat.mod_lt _ (by decide)⟩
      · rw [List.foldl_append, hvalue, List.foldl_cons, List.foldl_nil]
        omega

/-- **A number is read back** from its hexadecimal digits. -/
theorem exists_hexDigits {count n : Nat} (hcount : 0 < count) (hn : n < 16 ^ count) :
    ∃ ds : List Nat, (hexDigits count n).mapM Scan.hexValue? = some ds ∧ ds.length = count ∧
      (hexDigits count n).length = count ∧ ds.foldl (fun n d => 16 * n + d) 0 = n := by
  obtain ⟨ds, hds, hdigits, hvalue⟩ := exists_toDigits_eq_map n
  have hlength : ds.length ≤ count := by
    have := Nat.toDigits_length 16 n count hcount hn
    rwa [hdigits, List.length_map] at this
  have hhex : hexDigits count n = (List.replicate (count - ds.length) 0 ++ ds).map hexChar := by
    rw [hexDigits, hdigits, List.map_map, List.length_map, List.map_append, List.map_replicate]
    rfl
  have hzeros (k : Nat) : (List.replicate k 0).foldl (fun n d => 16 * n + d) 0 = 0 := by
    induction k with
    | zero => rfl
    | succ k ih => rw [List.replicate_succ, List.foldl_cons, ih]
  refine ⟨List.replicate (count - ds.length) 0 ++ ds, ?_, by simp; omega, by simp [hhex]; omega, ?_⟩
  · have hsmall : ∀ d ∈ List.replicate (count - ds.length) 0 ++ ds, d < 16 := by
      rw [List.forall_mem_append]
      exact ⟨by simp, hds⟩
    rw [hhex, List.mapM_map]
    have hmap := mapM_eq_pure_map (f := Scan.hexValue? ∘ hexChar) (g := id) fun d hd =>
      hexValue?_hexChar (hsmall d hd)
    rwa [List.map_id] at hmap
  · rw [List.foldl_append, hzeros, hvalue]

namespace Scan

variable {s : TokenReader} {start mark : Mark} {rest : List Char} {single : Bool}

/-! ### Escapes -/

theorem gives_escape_named {c e : Char} (h : plainEscapes.lookup e = some c.toNat)
    (s : TokenReader) (rest : List Char) (mark : Mark) :
    Gives (escape start) s ('\\' :: e :: rest) mark c rest (mark.after 2) := by
  refine Gives.bind (gives_peekAt ..) ?_
  simp only [List.drop_one, List.tail_cons, List.head?_cons, Option.getD_some, h, Char.ofNat_toNat]
  exact Gives.bind (gives_skip 2 ..) (gives_pure ..)

theorem gives_escape_number (start : Mark) {e : Char} {count : Nat} (hnamed : plainEscapes.lookup e = none)
    (hnumber : numberEscapes.lookup e = some count) (hcount : 0 < count) {c : Char}
    (hc : c.toNat < 16 ^ count) (s : TokenReader) (rest : List Char) (mark : Mark) :
    Gives (escape start) s ('\\' :: e :: (hexDigits count c.toNat ++ rest)) mark c rest
      (mark.after (2 + count)) := by
  obtain ⟨ds, hread, hlength, hcount', hvalue⟩ := exists_hexDigits hcount hc
  refine Gives.bind (gives_peekAt ..) ?_
  simp only [List.drop_one, List.tail_cons, List.head?_cons, Option.getD_some, hnamed, hnumber]
  refine Gives.bind (gives_skip 2 ..) (leads_get_bind ?_)
  simp only [List.drop_succ_cons, List.drop_zero, List.take_left' hcount', hread, hlength, hvalue,
    Nat.lt_irrefl, if_false, Char.ofNat_toNat]
  have hvalid : c.toNat.isValidChar := c.valid
  rw [if_pos hvalid]
  have hskip := gives_skip count s (hexDigits count c.toNat ++ rest) (mark.after 2)
  rw [List.drop_left' hcount', Mark.after_after] at hskip
  exact Gives.bind hskip (gives_pure ..)

/-! ### Runs -/

/-- The mark around a quoted text. -/
def quoteMark (single : Bool) : Char := if single then '\'' else '"'

/-- What a character inside a run is written as. -/
def spellChar (single : Bool) (c : Char) : List Char :=
  if single then if c == '\'' then ['\'', '\''] else [c] else escapeChar c

/-- Whether a character can be written inside a run. -/
def InRun (single : Bool) (c : Char) : Prop :=
  c ≠ ' ' ∧ (single = true → isPrintable c = true ∧ isBreak c = false)

variable {c : Char} (fuel : Nat) (acc : List Char)

theorem leads_quotedRun_skip (hblank : isBlank c = false) (hbreak : isBreak c = false)
    (hquote : c ≠ quoteMark single) (hescape : single = true ∨ c ≠ '\\') (s : TokenReader)
    (rest : List Char) (mark : Mark) :
    Leads (quotedRun start single (fuel + 1) acc) s (c :: rest) mark
      (quotedRun start single fuel (c :: acc)) rest (mark.after 1) := by
  refine Gives.bind (gives_peek ..) (Gives.bind (gives_peekAt ..) ?_)
  have hsingle : (single && c == '\'' && (List.drop 1 (c :: rest)).head? == some '\'') = false := by
    cases single with
    | false => rfl
    | true =>
      have hne : (c == '\'') = false := beq_eq_false_iff_ne.2 hquote
      rw [hne, Bool.and_false, Bool.false_and]
  have hescape' : (!single && c == '\\') = false := by
    rcases hescape with rfl | h
    · rfl
    · rw [beq_eq_false_iff_ne.2 h, Bool.and_false]
  have hmark : (c == if single = true then '\'' else '"') = false := beq_eq_false_iff_ne.2 hquote
  simp only [List.head?_cons, hblank, hbreak, hsingle, hescape', hmark, Bool.or_self,
    Bool.false_and, Bool.false_eq_true, if_false]
  exact Gives.bind (gives_skip 1 ..) (.refl ..)

theorem leads_quotedRun_quote (s : TokenReader) (rest : List Char) (mark : Mark) :
    Leads (quotedRun start true (fuel + 1) acc) s ('\'' :: '\'' :: rest) mark
      (quotedRun start true fuel ('\'' :: acc)) rest (mark.after 2) := by
  refine Gives.bind (gives_peek ..) (Gives.bind (gives_peekAt ..) ?_)
  exact Gives.bind (gives_skip 2 ..) (.refl ..)

theorem leads_quotedRun_escape {e : Char} {escaped : List Char} {mark' : Mark}
    (he : isBreak e = false)
    (h : Gives (escape start) s ('\\' :: e :: escaped) mark c rest mark') :
    Leads (quotedRun start false (fuel + 1) acc) s ('\\' :: e :: escaped) mark
      (quotedRun start false fuel (c :: acc)) rest mark' := by
  refine Gives.bind (gives_peek ..) (Gives.bind (gives_peekAt ..) ?_)
  simp only [List.head?_cons, List.drop_one, List.tail_cons, Option.any_some, he, Bool.and_false,
    Bool.false_eq_true, if_false]
  exact Gives.bind h (.refl ..)

/-- **Every character is read back** from what it is written as. -/
theorem leads_quotedRun_spellChar (hc : InRun single c) (s : TokenReader) (rest : List Char)
    (mark : Mark) :
    Leads (quotedRun start single (fuel + 1) acc) s (spellChar single c ++ rest) mark
      (quotedRun start single fuel (c :: acc)) rest
      (mark.after (spellChar single c).length) := by
  cases single with
  | true =>
    obtain ⟨hspace, hrun⟩ := hc
    obtain ⟨hprintable, hbreak⟩ := hrun rfl
    by_cases hquote : c = '\''
    · subst hquote
      exact leads_quotedRun_quote fuel acc s rest mark
    · have hspell : spellChar true c = [c] := by simp [spellChar, hquote]
      have hquote : c ≠ quoteMark true := hquote
      rw [hspell]
      exact leads_quotedRun_skip fuel acc (isBlank_eq_false hprintable hspace) hbreak hquote
        (.inl rfl) s rest mark
  | false =>
    simp only [spellChar, Bool.false_eq_true, if_false, escapeChar]
    split
    · rename_i h
      simp only [Bool.and_eq_true, Bool.not_eq_true', bne_iff_ne] at h
      obtain ⟨⟨⟨hprintable, hbreak⟩, hquote⟩, hescape⟩ := h
      have hquote : c ≠ quoteMark false := hquote
      exact leads_quotedRun_skip fuel acc (isBlank_eq_false hprintable hc.1) hbreak hquote
        (.inr hescape) s rest mark
    · split
      · rename_i e he
        have hnamed : (namedEscapes.all fun p =>
            plainEscapes.lookup p.2 == some p.1 && !isBreak p.2) = true := by rfl
        have hmem : (c.toNat, e) ∈ namedEscapes := mem_of_lookup_eq_some he
        obtain ⟨hlookup, hbreak⟩ : plainEscapes.lookup e = some c.toNat ∧ isBreak e = false := by
          simpa using List.all_eq_true.1 hnamed _ hmem
        exact leads_quotedRun_escape fuel acc hbreak (gives_escape_named hlookup s rest mark)
      · have hvalid : c.toNat < 0x110000 := by
          have := c.valid
          simp only [UInt32.isValidChar, Nat.isValidChar] at this
          show c.val.toNat < 0x110000
          omega
        have hnumber {e : Char} {count : Nat} (hbreak : isBreak e = false)
            (hnamed : plainEscapes.lookup e = none) (he : numberEscapes.lookup e = some count)
            (hcount : 0 < count) (hfits : c.toNat < 16 ^ count) :
            Leads (quotedRun start false (fuel + 1) acc) s
              ('\\' :: e :: (hexDigits count c.toNat ++ rest)) mark
              (quotedRun start false fuel (c :: acc)) rest
              (mark.after (['\\', e] ++ hexDigits count c.toNat).length) := by
          obtain ⟨-, -, -, hlength, -⟩ := exists_hexDigits hcount hfits
          have h := leads_quotedRun_escape fuel acc hbreak
            (gives_escape_number start hnamed he hcount hfits s rest mark)
          rwa [List.length_append, hlength, List.length_cons, List.length_singleton]
        split
        · exact hnumber (by decide) rfl rfl (by decide) (by omega)
        · split
          · exact hnumber (by decide) rfl rfl (by decide) (by omega)
          · exact hnumber (by decide) rfl rfl (by decide) (by omega)

/-- Whether a run of a quoted text ends in front of a text. -/
def EndsQuotedRun (single : Bool) (rest : List Char) : Prop :=
  ∃ c, rest.head? = some c ∧ (isBlank c = true ∨ isBreak c = true ∨
    c = quoteMark single ∧ (single = true → rest.tail.head? ≠ some '\''))

/-- What a run is written as. -/
def spellRun (single : Bool) (run : List Char) : List Char := run.flatMap (spellChar single)

theorem spellChar_ne_nil (single : Bool) (c : Char) : spellChar single c ≠ [] := by
  cases single with
  | true =>
    rw [spellChar, if_pos rfl]
    split <;> simp
  | false =>
    rw [spellChar, if_neg Bool.false_ne_true, escapeChar]
    repeat' split
    all_goals simp

theorem length_le_length_spellRun (single : Bool) (run : List Char) :
    run.length ≤ (spellRun single run).length := by
  induction run with
  | nil => simp
  | cons c run ih =>
    have := List.length_pos_iff.2 (spellChar_ne_nil single c)
    rw [spellRun, List.flatMap_cons, List.length_append, List.length_cons]
    exact (Nat.add_comm ..).trans_le (Nat.add_le_add this ih)

theorem gives_quotedRun_end (hrest : EndsQuotedRun single rest) :
    Gives (quotedRun start single (fuel + 1) acc) s rest mark (acc.reverse, false) rest mark := by
  obtain ⟨c, hc, hends⟩ := hrest
  refine Gives.bind (gives_peek ..) (Gives.bind (gives_peekAt ..) ?_)
  simp only [hc]
  by_cases hgap : (isBlank c || isBreak c) = true
  · rw [if_pos hgap]
    exact gives_pure ..
  · obtain ⟨rfl, hsingle⟩ : c = quoteMark single ∧ (single = true → rest.tail.head? ≠ some '\'') := by
      rcases hends with h | h | h
      · simp [h] at hgap
      · simp [h] at hgap
      · exact h
    have hdoubled : (single && quoteMark single == '\'' && (rest.drop 1).head? == some '\'') =
        false := by
      cases single with
      | false => rfl
      | true =>
        rw [List.drop_one, beq_eq_false_iff_ne.2 (hsingle rfl), Bool.and_false]
    have hmark : (quoteMark single == if single = true then '\'' else '"') = true :=
      beq_self_eq_true (quoteMark single)
    rw [if_neg hgap, hdoubled, if_neg Bool.false_ne_true, if_pos hmark]
    exact gives_pure ..

/-- **A run is read back.** -/
theorem gives_quotedRun {run : List Char} (hrun : ∀ c ∈ run, InRun single c)
    (hrest : EndsQuotedRun single rest) :
    ∀ (fuel : Nat) (acc : List Char) (mark : Mark), run.length < fuel →
      Gives (quotedRun start single fuel acc) s (spellRun single run ++ rest) mark
        (acc.reverse ++ run, false) rest (mark.after (spellRun single run).length) := by
  induction run with
  | nil =>
    rintro (- | fuel) acc mark hfuel
    · omega
    rw [List.append_nil]
    exact gives_quotedRun_end fuel acc hrest
  | cons c run ih =>
    rintro (- | fuel) acc mark hfuel
    · omega
    rw [List.forall_mem_cons] at hrun
    have h := ih hrun.2 fuel (c :: acc) (mark.after (spellChar single c).length)
      (by simpa using hfuel)
    rw [Mark.after_after, ← List.length_append, List.reverse_cons, List.append_assoc,
      List.singleton_append] at h
    rw [spellRun, List.flatMap_cons, List.append_assoc]
    exact (leads_quotedRun_spellChar fuel acc hrun.1 s _ mark).trans h

/-! ### Texts -/

/-- What the blanks and breaks of a gap are written as: line breaks with an indentation behind. -/
inductive SpellsGap (single : Bool) (indent : Nat) : List Char → List Char → Prop
  | blanks (n : Nat) :
    SpellsGap single indent (List.replicate (n + 1) ' ') (List.replicate (n + 1) ' ')
  | breaks {c : Char} {more : List Char} : single = true → IsLineBreak c → c ≠ '\n' →
    (∀ c ∈ more, IsLineBreak c) →
    SpellsGap single indent (c :: more) (c :: (more ++ List.replicate indent ' '))

theorem SpellsGap.head {indent : Nat} {gap spelled : List Char}
    (h : SpellsGap single indent gap spelled) :
    ∃ c, spelled.head? = some c ∧ (isBlank c = true ∨ isBreak c = true) := by
  cases h with
  | blanks n => exact ⟨' ', rfl, .inl rfl⟩
  | breaks _ hc => exact ⟨_, rfl, .inr hc.2⟩

/-- What a text is written as between quotes. -/
inductive Spells (single : Bool) (indent : Nat) : List Char → List Char → Prop
  | run {run : List Char} : (∀ c ∈ run, InRun single c) →
    Spells single indent run (spellRun single run)
  | gap {run gap spelledGap text spelled : List Char} : (∀ c ∈ run, InRun single c) →
    SpellsGap single indent gap spelledGap → EndsGap spelled → Spells single indent text spelled →
    Spells single indent (run ++ (gap ++ text)) (spellRun single run ++ (spelledGap ++ spelled))

theorem isBlank_quoteMark : isBlank (quoteMark single) = false := by cases single <;> rfl

theorem isBreak_quoteMark : isBreak (quoteMark single) = false := by cases single <;> rfl

theorem EndsGap.append_quoteMark {text : List Char} (h : EndsGap text) (single : Bool)
    (rest : List Char) :
    EndsGap (text ++ quoteMark single :: rest) := by
  cases text with
  | nil =>
    rintro c ⟨⟩
    exact ⟨isBlank_quoteMark, isBreak_quoteMark⟩
  | cons c text => exact h

/-- **A gap is read back.** -/
theorem exists_gives_takeGap {indent : Nat} {gap spelled : List Char}
    (h : SpellsGap single indent gap spelled) (hrest : EndsGap rest) (hindent : indent ≠ 0)
    (s : TokenReader) (mark : Mark) :
    ∃ g mark', g.folded = gap ∧ mark'.column ≠ 0 ∧ mark.line ≤ mark'.line ∧
      Gives (takeGap (pure ()) .empty) s (spelled ++ rest) mark g rest mark' := by
  cases h with
  | blanks n =>
    exact ⟨⟨List.replicate (n + 1) ' ', [], [], false⟩, mark.after (n + 1), rfl, by simp, by simp,
      gives_takeGap_blanks _ hrest s (n + 1) mark⟩
  | @breaks c more hsingle hc hne hmore =>
    obtain ⟨mark', hcolumn, hline, hgap⟩ := exists_gives_takeGap_breaks (s := s) hrest
      (fun text mark _ => gives_pure () s text mark) indent hc hmore mark
    refine ⟨⟨[], [c], more, true⟩, mark', ?_, by omega, by omega, ?_⟩
    · simp [Gap.folded, hne]
    · simpa using hgap

/-- A quoted text is read by a run and what follows it. -/
theorem leads_quotedWithin {run : List Char} (hrun : ∀ c ∈ run, InRun single c)
    (hrest : EndsQuotedRun single rest) (hcolumn : mark.column ≠ 0) :
    Leads (quotedWithin start single (fuel + 1) acc) s (spellRun single run ++ rest) mark
      (do
        if ← sees (quoteMark single) then pure (acc ++ run)
        else
          let gap ← takeGap (pure ()) .empty
          quotedWithin start single fuel (acc ++ run ++ gap.folded)) rest
      (mark.after (spellRun single run).length) := by
  have hpeek : (spellRun single run ++ rest).head?.isNone = false := by
    obtain ⟨c, hc, -⟩ := hrest
    cases hspelled : spellRun single run with
    | nil => rw [List.nil_append, hc]; rfl
    | cons d ds => rfl
  have hlength : run.length < (spellRun single run ++ rest).length + 1 := by
    have := length_le_length_spellRun single run
    rw [List.length_append]
    omega
  refine Gives.bind (gives_documentMarkAhead (.inl hcolumn) s) ?_
  refine Gives.bind (gives_documentMarkAhead (.inl hcolumn) s) ?_
  rw [Bool.or_self, if_neg Bool.false_ne_true]
  refine Gives.bind (gives_peek ..) ?_
  rw [hpeek, if_neg Bool.false_ne_true]
  exact leads_get_bind (Gives.bind (gives_quotedRun hrun hrest _ [] mark hlength) (.refl ..))

/-- **A quoted text is read back** up to its end. -/
theorem exists_gives_quotedWithin (start : Mark) {indent : Nat} {text spelled : List Char}
    (h : Spells single indent text spelled) (hindent : indent ≠ 0)
    (hrest : single = true → rest.head? ≠ some '\'') (s : TokenReader) :
    ∀ (fuel : Nat) (acc : List Char) (mark : Mark), spelled.length < fuel → mark.column ≠ 0 →
      ∃ mark', mark.line ≤ mark'.line ∧
        Gives (quotedWithin start single fuel acc) s (spelled ++ quoteMark single :: rest) mark
          (acc ++ text) (quoteMark single :: rest) mark' := by
  induction h with
  | @run run hrun =>
    rintro (- | fuel) acc mark hfuel hcolumn
    · omega
    have hends : EndsQuotedRun single (quoteMark single :: rest) :=
      ⟨_, rfl, .inr (.inr ⟨rfl, hrest⟩)⟩
    refine ⟨mark.after (spellRun single run).length, by simp,
      (leads_quotedWithin fuel acc hrun hends hcolumn).trans (Gives.bind (gives_sees ..) ?_)⟩
    rw [List.head?_cons, beq_self_eq_true, if_pos rfl]
    exact gives_pure ..
  | @gap run gap spelledGap text spelled hrun hgap hends htext ih =>
    rintro (- | fuel) acc mark hfuel hcolumn
    · omega
    obtain ⟨c, hc, hcgap⟩ := hgap.head
    have hne : (c == quoteMark single) = false := by
      refine beq_eq_false_iff_ne.2 ?_
      rintro rfl
      rw [isBlank_quoteMark, isBreak_quoteMark] at hcgap
      simp at hcgap
    obtain ⟨g, mark₁, rfl, hcolumn₁, hline₁, htake⟩ := exists_gives_takeGap hgap
      (hends.append_quoteMark single rest) hindent s (mark.after (spellRun single run).length)
    have hpos : 0 < spelledGap.length := by
      cases spelledGap with
      | nil => cases hc
      | cons c cs => exact Nat.succ_pos _
    obtain ⟨mark', hline, hall⟩ := ih fuel (acc ++ run ++ g.folded) mark₁
      (by simp only [List.length_append] at hfuel; omega) hcolumn₁
    refine ⟨mark', by simp at hline₁; omega, ?_⟩
    have hhead : (spelledGap ++ (spelled ++ quoteMark single :: rest)).head? = some c := by
      rw [List.head?_append, hc]; rfl
    simp only [List.append_assoc]
    refine (leads_quotedWithin fuel acc hrun ⟨c, hhead, ?_⟩ hcolumn).trans
      (Gives.bind (gives_sees ..) ?_)
    · exact hcgap.imp_right .inl
    have hne' : (some c == some (quoteMark single)) = false := hne
    rw [hhead, hne', if_neg Bool.false_ne_true]
    refine Gives.bind htake ?_
    simp only [List.append_assoc] at hall ⊢
    exact hall

/-- **A quoted text is read back.** It may go on to further lines. -/
theorem exists_gives_quotedScalar {indent : Nat} {text spelled : List Char}
    (h : Spells single indent text spelled) (hindent : indent ≠ 0)
    (hrest : single = true → rest.head? ≠ some '\'') (s : TokenReader) (mark : Mark) :
    ∃ stop, mark.line ≤ stop.line ∧
      Gives (quotedScalar single) s
        (quoteMark single :: (spelled ++ quoteMark single :: rest)) mark
        ⟨.scalar (String.ofList text) .quoted, mark, stop⟩ rest stop := by
  obtain ⟨mark', hline, hwithin⟩ := exists_gives_quotedWithin mark h hindent hrest s
    ((spelled ++ quoteMark single :: rest).length + 1) [] (mark.after 1)
    (by simp only [List.length_append]; omega) (by simp)
  refine ⟨mark'.after 1, hline, Gives.bind (gives_here ..) (Gives.bind (gives_skip 1 ..) ?_)⟩
  refine leads_get_bind (Gives.bind hwithin (Gives.bind (gives_skip 1 ..) ?_))
  exact Gives.bind (gives_here ..) (gives_pure ..)

/-! ### What is written -/

theorem exists_spellChar_eq_cons (hc : InRun single c) :
    ∃ d ds, spellChar single c = d :: ds ∧ isBlank d = false ∧ isBreak d = false := by
  cases single with
  | true =>
    obtain ⟨hspace, hrun⟩ := hc
    obtain ⟨hprintable, hbreak⟩ := hrun rfl
    by_cases hquote : c = '\''
    · exact ⟨'\'', ['\''], by rw [hquote]; rfl, rfl, rfl⟩
    · exact ⟨c, [], by simp [spellChar, hquote], isBlank_eq_false hprintable hspace, hbreak⟩
  | false =>
    simp only [spellChar, Bool.false_eq_true, if_false, escapeChar]
    split
    · rename_i h
      simp only [Bool.and_eq_true, Bool.not_eq_true'] at h
      exact ⟨c, [], rfl, isBlank_eq_false h.1.1.1 hc.1, h.1.1.2⟩
    · split
      · exact ⟨_, _, rfl, rfl, rfl⟩
      · split
        · exact ⟨_, _, rfl, rfl, rfl⟩
        · split <;> exact ⟨_, _, rfl, rfl, rfl⟩

theorem spellRun_append (single : Bool) (run run' : List Char) :
    spellRun single (run ++ run') = spellRun single run ++ spellRun single run' :=
  List.flatMap_append

theorem spellRun_blanks (single : Bool) (n : Nat) :
    spellRun single (List.replicate n ' ') = List.replicate n ' ' := by
  induction n with
  | zero => rfl
  | succ n ih =>
    have hspace : spellChar single ' ' = [' '] := by cases single <;> rfl
    rw [List.replicate_succ, spellRun, List.flatMap_cons, hspace]
    exact congrArg _ ih

/-- What a text is written as begins with neither a blank nor a break if the text does. -/
theorem endsGap_spellRun {text : List Char} (h : ∀ c ∈ text.head?, InRun single c)
    (more : List Char) (hnil : text = [] → EndsGap more) :
    EndsGap (spellRun single text ++ more) := by
  cases text with
  | nil => exact hnil rfl
  | cons c text =>
    obtain ⟨d, ds, hd, hblank, hbreak⟩ := exists_spellChar_eq_cons (h c rfl)
    rw [spellRun, List.flatMap_cons, hd]
    rintro e ⟨⟩
    exact ⟨hblank, hbreak⟩

/-- **What is written between double quotes spells the text.** -/
theorem spells_double (indent : Nat) (cs : List Char) :
    Spells false indent cs (cs.flatMap escapeChar) := by
  have hspell (text : List Char) : text.flatMap escapeChar = spellRun false text := rfl
  induction hlength : cs.length using Nat.strong_induction_on generalizing cs with
  | h length ih =>
  subst hlength
  obtain ⟨run, tail, rfl, hrun, htail⟩ := exists_span (· != ' ') cs
  obtain ⟨blanks, text, rfl, hblanks, htext⟩ := exists_span (· == ' ') tail
  have hrun' : ∀ c ∈ run, InRun false c := fun c hc => ⟨by simpa using hrun c hc, nofun⟩
  obtain ⟨n, rfl⟩ : ∃ n, blanks = List.replicate n ' ' :=
    ⟨_, List.eq_replicate_of_mem fun c hc => by simpa using hblanks c hc⟩
  cases n with
  | zero =>
    -- nothing stands behind the run
    cases text with
    | nil => simpa only [List.replicate_zero, List.append_nil, hspell] using Spells.run hrun'
    | cons c text => exact absurd (htail c rfl) (by simpa using htext c rfl)
  | succ n =>
    have htext' : ∀ c ∈ text.head?, InRun false c := fun c hc => ⟨by simpa using htext c hc, nofun⟩
    have hends := endsGap_spellRun htext' [] fun _ c hc => nomatch hc
    rw [List.append_nil] at hends
    have h := Spells.gap hrun' (.blanks n) hends (ih text.length (by simp; omega) text rfl)
    rwa [hspell, spellRun_append, spellRun_append, spellRun_blanks]

/-- Without breaks a text between single quotes is written as one run. -/
theorem singleQuoted_append (indent : Nat) {run : List Char} (h : ∀ c ∈ run, isBreak c = false)
    (tail : List Char) :
    singleQuoted indent false (run ++ tail) =
      spellRun true run ++ singleQuoted indent false tail := by
  induction run with
  | nil => rfl
  | cons c run ih =>
    rw [List.forall_mem_cons] at h
    rw [List.cons_append, singleQuoted, if_neg (by rw [h.1]; exact Bool.false_ne_true),
      if_neg Bool.false_ne_true, ih h.2, List.nil_append, ← List.append_assoc]
    rfl

theorem singleQuoted_break (indent : Nat) (after : Bool) {c : Char} (hc : isBreak c = true)
    {more : List Char} (hmore : ∀ c ∈ more, isBreak c = true) {text : List Char}
    (htext : ∀ c ∈ text.head?, isBreak c = false) :
    singleQuoted indent after (c :: (more ++ text)) =
      c :: (more ++ (indentation indent ++ singleQuoted indent false text)) := by
  rw [singleQuoted, if_pos hc]
  congr 1
  induction more with
  | nil =>
    cases text with
    | nil => simp [singleQuoted]
    | cons d text =>
      have hd : ¬isBreak d = true := Bool.eq_false_iff.1 (htext d rfl)
      simp [singleQuoted, hd]
  | cons d more ih =>
    rw [List.forall_mem_cons] at hmore
    rw [List.cons_append, singleQuoted, if_pos hmore.1, ih hmore.2, List.cons_append]

/-- **What is written between single quotes spells the text.** No blanks stand around breaks. -/
theorem spells_single (indent : Nat) {cs : List Char}
    (hchars : ∀ c ∈ cs, isPrintable c = true ∧ c ≠ '\n')
    (hbefore : ∀ front c back, cs = front ++ ' ' :: c :: back → isBreak c = false)
    (hafter : ∀ front c back, cs = front ++ c :: ' ' :: back → isBreak c = false) :
    Spells true indent cs (singleQuoted indent false cs) := by
  induction hlength : cs.length using Nat.strong_induction_on generalizing cs with
  | h length ih =>
  subst hlength
  obtain ⟨run, tail, rfl, hrun, htail⟩ := exists_span (fun c => c != ' ' && !isBreak c) cs
  have hrun' : ∀ c ∈ run, InRun true c := by
    intro c hc
    have h := hrun c hc
    simp only [Bool.and_eq_true, bne_iff_ne, Bool.not_eq_true'] at h
    exact ⟨h.1, fun _ => ⟨(hchars c (List.mem_append_left _ hc)).1, h.2⟩⟩
  have hwrite := singleQuoted_append indent (fun c hc => ((hrun' c hc).2 rfl).2) tail
  -- what stands behind a gap of the text
  have hrest {front text : List Char} (htail : tail = front ++ text)
      (htext : ∀ c ∈ text.head?, c ≠ ' ' ∧ isBreak c = false) (hne : tail ≠ text) :
      EndsGap (singleQuoted indent false text) ∧
        Spells true indent text (singleQuoted indent false text) := by
    subst htail
    have hsuffix : ∀ c ∈ text, isPrintable c = true ∧ c ≠ '\n' := fun c hc =>
      hchars c (List.mem_append_right _ (List.mem_append_right _ hc))
    refine ⟨?_, ih text.length ?_ hsuffix (fun front' c back h => ?_) (fun front' c back h => ?_) rfl⟩
    · cases text with
      | nil => exact fun c hc => nomatch hc
      | cons c text =>
        obtain ⟨hspace, hbreak⟩ := htext c rfl
        have hrun : ∀ d ∈ [c], isBreak d = false := by simpa using hbreak
        rw [← List.singleton_append, singleQuoted_append indent hrun text]
        refine endsGap_spellRun (fun d hd => ?_) _ nofun
        obtain rfl : c = d := Option.some.inj hd
        exact ⟨hspace, fun _ => ⟨(hsuffix c List.mem_cons_self).1, hbreak⟩⟩
    · have : front ≠ [] := fun h => hne (by rw [h, List.nil_append])
      have := List.length_pos_iff.2 this
      simp only [List.length_append]
      omega
    · exact hbefore (run ++ (front ++ front')) c back (by simp [h])
    · exact hafter (run ++ (front ++ front')) c back (by simp [h])
  rw [hwrite]
  cases tail with
  | nil =>
    rw [singleQuoted, if_neg Bool.false_ne_true, List.append_nil, List.append_nil]
    exact .run hrun'
  | cons c tail =>
    have hgap := htail c rfl
    by_cases hc : c = ' '
    · subst hc
      obtain ⟨blanks, text, rfl, hblanks, htext⟩ := exists_span (· == ' ') tail
      obtain ⟨n, rfl⟩ : ∃ n, blanks = List.replicate n ' ' :=
        ⟨_, List.eq_replicate_of_mem fun c hc => by simpa using hblanks c hc⟩
      have htext' : ∀ d ∈ text.head?, d ≠ ' ' ∧ isBreak d = false := by
        intro d hd
        refine ⟨by simpa using htext d hd, ?_⟩
        obtain ⟨back, rfl⟩ := List.head?_eq_some_iff.1 hd
        exact hbefore (run ++ List.replicate n ' ') d back (by
          rw [← List.cons_append, ← List.replicate_succ, List.replicate_succ']
          simp)
      rw [← List.cons_append, ← List.replicate_succ] at hrest ⊢
      obtain ⟨hends, hspells⟩ := hrest rfl htext' (by simp)
      have hblanks' : ∀ c ∈ List.replicate (n + 1) ' ', isBreak c = false := by
        simp [isBreak_space]
      rw [singleQuoted_append indent hblanks' text, spellRun_blanks]
      exact .gap hrun' (.blanks n) hends hspells
    · have hbreak : isBreak c = true := by simpa [hc] using hgap
      obtain ⟨more, text, rfl, hmore, htext⟩ := exists_span isBreak tail
      have htext' : ∀ d ∈ text.head?, d ≠ ' ' ∧ isBreak d = false := by
        intro d hd
        refine ⟨?_, htext d hd⟩
        rintro rfl
        obtain ⟨back, rfl⟩ := List.head?_eq_some_iff.1 hd
        rcases List.eq_nil_or_concat more with rfl | ⟨init, b, rfl⟩
        · exact absurd hbreak (Bool.eq_false_iff.1 (hafter run c back rfl))
        · refine absurd (hmore b (by simp)) (Bool.eq_false_iff.1 (hafter (run ++ c :: init) b back ?_))
          simp
      obtain ⟨hends, hspells⟩ := hrest (List.cons_append ..).symm htext' fun h => by
        have := congrArg List.length h
        simp only [List.length_cons, List.length_append] at this
        omega
      have hline (d : Char) (hd : d ∈ c :: (more ++ text)) (hbreak : isBreak d = true) :
          IsLineBreak d := ⟨(hchars d (List.mem_append_right _ hd)).1, hbreak⟩
      have hgap : SpellsGap true indent (c :: more) (c :: (more ++ indentation indent)) :=
        .breaks rfl (hline c (by simp) hbreak) (hchars c (by simp)).2 fun d hd =>
          hline d (by simp [hd]) (hmore d hd)
      have h := Spells.gap hrun' hgap hends hspells
      rw [singleQuoted_break indent false hbreak hmore htext]
      simpa [indentation] using h

end Scan

end DocBlocks.Yaml
