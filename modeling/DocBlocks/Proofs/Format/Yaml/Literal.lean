import DocBlocks.Proofs.Format.Yaml.Scalar
import DocBlocks.Proofs.Format.Yaml.TokenReader

/-!
# Literal blocks

A text with line feeds is read back from the block it is written as (`exists_gives_blockScalar`). A
block is read as its lines up to the last one that is not empty, the break behind that one and the
empty lines that follow; its head tells what of the breaks is kept. `SpellsLines` takes what is
written apart in the same way.
-/

namespace DocBlocks.Yaml

namespace Scan

variable {s : TokenReader} {start mark : Mark} {rest : List Char} {n : Nat}

/-! ### Empty lines -/

/-- The spaces in front of a text that belong to an indentation. -/
theorem min_length_takeWhile_space {m : Nat} (hm : m ≤ n)
    (hrest : m < n → ∀ c ∈ rest.head?, c ≠ ' ') :
    min ((List.replicate m ' ' ++ rest).takeWhile (· == ' ')).length n = m := by
  have hblanks : ∀ c ∈ List.replicate m ' ', (c == ' ') = true := by simp
  rw [List.takeWhile_append_of_pos hblanks, List.length_append, List.length_replicate]
  rcases hm.lt_or_eq with h | rfl
  · have : rest.takeWhile (· == ' ') = [] := by
      cases rest with
      | nil => rfl
      | cons c rest => exact List.takeWhile_cons_of_neg (by simpa using hrest h c rfl)
    rw [this, List.length_nil]
    omega
  · omega

/-- A line of a block begins with its indentation, and an empty one with its break. -/
theorem leads_blockBreaks {m : Nat} (hm : m ≤ n)
    (hrest : m < n → ∀ c ∈ rest.head?, isBlank c = false) (hcolumn : mark.column = 0)
    (s : TokenReader) (fuel : Nat) (deepest : Int) (acc : List Char) :
    Leads (blockBreaks start (some n) (fuel + 1) deepest acc) s (List.replicate m ' ' ++ rest) mark
      (do
        if (← peek).any isBreak then
          let b ← takeBreak
          blockBreaks start (some n) fuel (max deepest m) (acc ++ b)
        else pure (n, acc)) rest (mark.after m) := by
  have hspace : m < n → ∀ c ∈ rest.head?, c ≠ ' ' := by
    rintro h c hc rfl
    cases hrest h ' ' hc
  have hroom : min ((List.replicate m ' ' ++ rest).takeWhile (· == ' ')).length
      ((n : Int) - mark.column).toNat = m := by
    rw [hcolumn]
    simpa using min_length_takeWhile_space hm hspace
  have hskip := gives_skip m s (List.replicate m ' ' ++ rest) mark
  rw [List.drop_left' List.length_replicate] at hskip
  have hmark : (mark.after m).column = m := by simp [hcolumn]
  have htab : (decide ((m : Int) < n) && rest.head? == some '\t') = false := by
    by_cases h : m < n
    · have hne : rest.head? ≠ some '\t' := by
        intro htab
        cases hrest h '\t' htab
      rw [beq_eq_false_iff_ne.2 hne, Bool.and_false]
    · rw [decide_eq_false (by omega), Bool.false_and]
  refine leads_get_bind ?_
  dsimp only
  rw [hroom]
  refine Gives.bind hskip (Gives.bind (gives_here ..) (Gives.bind (gives_sees ..) ?_))
  simp only [hmark, Option.all_some, htab, Bool.false_eq_true, if_false]
  exact .refl ..

/-- Empty lines are passed, with as much of an indentation as belongs to the block. -/
theorem exists_gives_blockBreaks (start : Mark) {m : Nat} (hm : m ≤ n)
    (hrest : ∀ c ∈ rest.head?, isBreak c = false ∧ (m < n → isBlank c = false))
    {breaks : List Char} (hbreaks : ∀ c ∈ breaks, IsLineBreak c) (s : TokenReader) :
    ∀ (fuel : Nat) (deepest : Int) (acc : List Char) (mark : Mark), breaks.length < fuel →
      mark.column = 0 →
      ∃ mark', mark'.column = m ∧ mark.line ≤ mark'.line ∧
        Gives (blockBreaks start (some n) fuel deepest acc) s
          (breaks ++ (List.replicate m ' ' ++ rest)) mark (n, acc ++ breaks) rest mark' := by
  induction breaks with
  | nil =>
    rintro (- | fuel) deepest acc mark hfuel hcolumn
    · omega
    have hbreak : rest.head?.any isBreak = false := by
      cases hhead : rest.head? with
      | none => rfl
      | some c => exact (hrest c hhead).1
    refine ⟨mark.after m, by simp [hcolumn], by simp, ?_⟩
    refine (leads_blockBreaks hm (fun h c hc => (hrest c hc).2 h) hcolumn s fuel deepest acc).trans
      (Gives.bind (gives_peek ..) ?_)
    rw [hbreak, if_neg Bool.false_ne_true, List.append_nil]
    exact gives_pure ..
  | cons c breaks ih =>
    rintro (- | fuel) deepest acc mark hfuel hcolumn
    · omega
    rw [List.forall_mem_cons] at hbreaks
    obtain ⟨mark', hcolumn', hline, h⟩ := ih hbreaks.2 fuel (max deepest 0) (acc ++ [c])
      (mark.after 0).newLine (by simpa using hfuel) rfl
    have hblank : ∀ d ∈ (c :: (breaks ++ (List.replicate m ' ' ++ rest))).head?,
        isBlank d = false := by
      rintro d ⟨⟩
      exact hbreaks.1.isBlank_eq_false
    rw [List.append_assoc, List.singleton_append] at h
    rw [Mark.line_newLine, Mark.line_after] at hline
    refine ⟨mark', hcolumn', by omega, ?_⟩
    refine (leads_blockBreaks (Nat.zero_le n) (fun _ => hblank) hcolumn s fuel deepest acc).trans
      (Gives.bind (gives_peek ..) ?_)
    rw [List.head?_cons, Option.any_some, if_pos hbreaks.1.2]
    exact Gives.bind (gives_takeBreak hbreaks.1 ..) h

/-! ### Lines -/

/-- What lines are written as, from the first one's content on: the text up to the last line that is
not empty, the break behind it, and the empty lines behind that. -/
inductive SpellsLines (n : Nat) (c : Char) (empty : List Char) : List Char → List Char → Prop
  | last {line : List Char} : line ≠ [] → (∀ d ∈ line, isBreak d = false) →
    SpellsLines n c empty line (line ++ c :: empty)
  | more {line breaks text spelled : List Char} {d : Char} : line ≠ [] →
    (∀ d ∈ line, isBreak d = false) → IsLineBreak d → (∀ d ∈ breaks, IsLineBreak d) →
    SpellsLines n c empty text spelled →
    SpellsLines n c empty (line ++ d :: (breaks ++ text))
      (line ++ d :: (breaks ++ (List.replicate n ' ' ++ spelled)))

theorem gives_takeWhile_line {line : List Char} (hline : ∀ c ∈ line, isBreak c = false) {c : Char}
    (hc : isBreak c = true) (s : TokenReader) (rest : List Char) (mark : Mark) :
    Gives (takeWhile fun c => !isBreak c) s (line ++ c :: rest) mark line (c :: rest)
      (mark.after line.length) :=
  gives_takeWhile (fun d hd => by rw [hline d hd]; rfl) (by simp [hc]) s mark

/-- A line of a block is passed with its break and the empty lines behind it. -/
theorem exists_leads_blockWithin (start : Mark) {line breaks : List Char} {c : Char} (hne : line ≠ [])
    (hline : ∀ d ∈ line, isBreak d = false) (hc : IsLineBreak c)
    (hbreaks : ∀ d ∈ breaks, IsLineBreak d) {m : Nat} (hm : m ≤ n)
    (hrest : ∀ c ∈ rest.head?, isBreak c = false ∧ (m < n → isBlank c = false))
    (hcolumn : mark.column = n) (s : TokenReader) (fuel : Nat) (t : BlockText) :
    ∃ mark' blank, mark'.column = m ∧ mark.line < mark'.line ∧
      Leads (blockWithin start true n (fuel + 1) t) s
        (line ++ c :: (breaks ++ (List.replicate m ' ' ++ rest))) mark
        (blockWithin start true n fuel
          ⟨t.text ++ t.lastBreak ++ t.moreBreaks ++ line, [c], breaks, blank⟩) rest mark' := by
  obtain ⟨mark', hcolumn', hline', hempty⟩ := exists_gives_blockBreaks start hm hrest hbreaks s
    ((breaks ++ (List.replicate m ' ' ++ rest)).length + 1) 0 [] (mark.after line.length).newLine
    (by simp only [List.length_append]; omega) rfl
  refine ⟨mark', (line ++ c :: (breaks ++ (List.replicate m ' ' ++ rest))).head?.any isBlank,
    hcolumn', hline', Gives.bind (gives_here ..) (Gives.bind (gives_peek ..) ?_)⟩
  have hsome : (line ++ c :: (breaks ++ (List.replicate m ' ' ++ rest))).head?.isSome = true := by
    cases line with
    | nil => exact absurd rfl hne
    | cons d line => rfl
  rw [hsome, hcolumn, beq_self_eq_true, Bool.and_self, if_pos rfl]
  refine Gives.bind (gives_peek ..) ?_
  refine Gives.bind (gives_takeWhile_line hline hc.2 ..) (Gives.bind (gives_takeBreak hc ..) ?_)
  refine leads_get_bind (Gives.bind hempty ?_)
  simp only [Bool.not_true, Bool.false_and, Bool.false_eq_true, if_false]
  exact .refl ..

theorem SpellsLines.head {c : Char} {empty text spelled : List Char}
    (h : SpellsLines n c empty text spelled) :
    ∃ d, text.head? = some d ∧ spelled.head? = some d ∧ isBreak d = false := by
  have hfirst {line : List Char} (hne : line ≠ []) (hline : ∀ d ∈ line, isBreak d = false)
      (tail tail' : List Char) : ∃ d, (line ++ tail).head? = some d ∧
        (line ++ tail').head? = some d ∧ isBreak d = false := by
    cases line with
    | nil => exact absurd rfl hne
    | cons d line => exact ⟨d, rfl, rfl, hline d List.mem_cons_self⟩
  cases h with
  | last hne hline => simpa using hfirst hne hline [] (c :: empty)
  | more hne hline => exact hfirst hne hline _ _

/-- **The lines of a block are read back**, up to a line that is not indented as far. -/
theorem exists_gives_blockWithin (start : Mark) {c : Char} {empty text spelled : List Char}
    (h : SpellsLines n c empty text spelled) (hc : IsLineBreak c)
    (hempty : ∀ d ∈ empty, IsLineBreak d) {k : Nat} (hk : k < n) (hrest : EndsGap rest)
    (s : TokenReader) :
    ∀ (fuel : Nat) (t : BlockText) (mark : Mark), spelled.length < fuel → mark.column = n →
      ∃ mark' blank, mark'.column = k ∧ mark.line < mark'.line ∧
        Gives (blockWithin start true n fuel t) s (spelled ++ (List.replicate k ' ' ++ rest)) mark
          ⟨t.text ++ t.lastBreak ++ t.moreBreaks ++ text, [c], empty, blank⟩ rest mark' := by
  induction h with
  | @last line hne hline =>
    rintro (- | fuel) t mark hfuel hcolumn
    · omega
    obtain ⟨mark', blank, hcolumn', hline', hlead⟩ := exists_leads_blockWithin start hne
      hline hc hempty hk.le (fun d hd => ⟨(hrest d hd).2, fun _ => (hrest d hd).1⟩) hcolumn s fuel t
    refine ⟨mark', blank, hcolumn', hline', ?_⟩
    rw [List.append_assoc, List.cons_append]
    refine hlead.trans ?_
    cases fuel with
    | zero => exact gives_pure ..
    | succ fuel =>
      refine Gives.bind (gives_here ..) (Gives.bind (gives_peek ..) ?_)
      have hends : ((mark'.column : Int) == n && rest.head?.isSome) = false := by
        rw [hcolumn', beq_eq_false_iff_ne.2 (by omega), Bool.false_and]
      rw [hends, if_neg Bool.false_ne_true]
      exact gives_pure ..
  | @more line breaks text spelled d hne hline hd hbreaks htext ih =>
    rintro (- | fuel) t mark hfuel hcolumn
    · omega
    obtain ⟨e, -, he, hbreak⟩ := htext.head
    have hhead : ∀ c ∈ (spelled ++ (List.replicate k ' ' ++ rest)).head?,
        isBreak c = false ∧ (n < n → isBlank c = false) := by
      intro c hc
      rw [List.head?_append, he] at hc
      obtain rfl : e = c := Option.some.inj hc
      exact ⟨hbreak, fun h => absurd h (lt_irrefl n)⟩
    obtain ⟨mark₁, blank₁, hcolumn₁, hline₁, hlead⟩ := exists_leads_blockWithin start hne
      hline hd hbreaks le_rfl hhead hcolumn s fuel t
    obtain ⟨mark', blank, hcolumn', hline', hall⟩ := ih fuel _ mark₁
      (by simp only [List.length_append, List.length_cons] at hfuel; omega) hcolumn₁
    refine ⟨mark', blank, hcolumn', by omega, ?_⟩
    have h := hlead.trans hall
    simp only [List.append_assoc, List.cons_append, List.nil_append] at h ⊢
    exact h

/-! ### Blocks -/

/-- What a block is written as behind its head: the text up to its last line that is not empty, the
break behind it, and the empty lines behind that. -/
inductive SpellsBlock (n : Nat) : List Char → List Char → List Char → List Char → Prop
  | empty {breaks : List Char} : (∀ d ∈ breaks, IsLineBreak d) →
    SpellsBlock n [] [] breaks breaks
  | lines {breaks empty text spelled : List Char} {c : Char} : (∀ d ∈ breaks, IsLineBreak d) →
    IsLineBreak c → (∀ d ∈ empty, IsLineBreak d) → SpellsLines n c empty text spelled →
    SpellsBlock n (breaks ++ text) [c] empty (breaks ++ (List.replicate n ' ' ++ spelled))

/-- Whether the indentation of a block can be told from its head or from its first line. -/
def KnownIndent (n : Nat) (indent : Int) (known : Option Int) (text : List Char) : Prop :=
  known = some (n : Int) ∨ known = none ∧ indent < n ∧
    ∃ c cs, text = List.replicate n ' ' ++ c :: cs ∧ isBlank c = false ∧ isBreak c = false

theorem gives_blockBreaks_unknown (start : Mark) (hindent : s.indent < n) (hn : 0 < n) {c : Char}
    (hblank : isBlank c = false) (hbreak : isBreak c = false) (hcolumn : mark.column = 0)
    (fuel : Nat) (cs : List Char) :
    Gives (blockBreaks start none (fuel + 1) 0 []) s (List.replicate n ' ' ++ c :: cs) mark
      ((n : Int), []) (c :: cs) (mark.after n) := by
  have hblanks : ∀ c ∈ List.replicate n ' ', (c == ' ') = true := by simp
  have hspaces : ((List.replicate n ' ' ++ c :: cs).takeWhile (· == ' ')).length = n := by
    have hc : (c :: cs).head?.any (· == ' ') = false := by
      simp only [isBlank, Bool.or_eq_false_iff] at hblank
      exact hblank.1
    rw [takeWhile_append_eq hblanks (c :: cs) hc, List.length_replicate]
  have hskip := gives_skip n s (List.replicate n ' ' ++ c :: cs) mark
  rw [List.drop_left' List.length_replicate] at hskip
  refine leads_get_bind ?_
  dsimp only
  rw [hspaces]
  refine Gives.bind hskip (Gives.bind (gives_here ..) (Gives.bind (gives_sees ..) ?_))
  rw [Option.all_none, Bool.true_and]
  have htab : ((c :: cs).head? == some '\t') = false := by
    simp only [isBlank, Bool.or_eq_false_iff] at hblank
    exact hblank.2
  rw [htab, if_neg Bool.false_ne_true]
  refine Gives.bind (gives_peek ..) ?_
  rw [List.head?_cons, Option.any_some, hbreak, if_neg Bool.false_ne_true]
  have hvalue : max (max 0 ((mark.after n).column : Int)) (max (s.indent + 1) 1) = n := by
    rw [Mark.column_after, hcolumn]
    omega
  rw [hvalue]
  exact gives_pure ..

/-- **A block is read back**: first the empty lines at its front, then the others. -/
theorem exists_gives_blockLines (start : Mark) {text last more spelled : List Char}
    (h : SpellsBlock n text last more spelled) {known : Option Int}
    (hknown : KnownIndent n s.indent known spelled) {k : Nat} (hk : k < n) (hrest : EndsGap rest)
    (mark : Mark) (hcolumn : mark.column = 0) :
    ∃ breaks mid mark₁ mark' blank, mark'.column = k ∧ mark.line ≤ mark'.line ∧
      Gives (blockBreaks start known ((spelled ++ (List.replicate k ' ' ++ rest)).length + 1) 0 []) s
        (spelled ++ (List.replicate k ' ' ++ rest)) mark ((n : Int), breaks) mid mark₁ ∧
      Gives (blockWithin start true n ((spelled ++ (List.replicate k ' ' ++ rest)).length + 1)
        ⟨[], [], breaks, false⟩) s mid mark₁ ⟨text, last, more, blank⟩ rest mark' := by
  cases h with
  | empty hbreaks =>
    obtain rfl : known = some (n : Int) := by
      rcases hknown with h | ⟨-, -, c, cs, hspelled, -, hbreak⟩
      · exact h
      · exact absurd (hbreaks c (by simp [hspelled])).2 (Bool.eq_false_iff.1 hbreak)
    obtain ⟨mark', hcolumn', hline, hempty⟩ := exists_gives_blockBreaks start hk.le
      (fun d hd => ⟨(hrest d hd).2, fun _ => (hrest d hd).1⟩) hbreaks s
      ((more ++ (List.replicate k ' ' ++ rest)).length + 1) 0 [] mark
      (by simp only [List.length_append]; omega) hcolumn
    refine ⟨more, rest, mark', mark', false, hcolumn', hline, hempty, ?_⟩
    refine Gives.bind (gives_here ..) (Gives.bind (gives_peek ..) ?_)
    have hends : ((mark'.column : Int) == n && rest.head?.isSome) = false := by
      rw [hcolumn', beq_eq_false_iff_ne.2 (by omega), Bool.false_and]
    rw [hends, if_neg Bool.false_ne_true]
    exact gives_pure ..
  | @lines breaks empty text spelled c hbreaks hc hempty hlines =>
    obtain ⟨d, -, hd, hbreak⟩ := hlines.head
    have hfirst : ∃ mark₁, mark₁.column = n ∧ mark.line ≤ mark₁.line ∧
        Gives (blockBreaks start known ((breaks ++ (List.replicate n ' ' ++ spelled) ++
            (List.replicate k ' ' ++ rest)).length + 1) 0 []) s
          (breaks ++ (List.replicate n ' ' ++ spelled) ++ (List.replicate k ' ' ++ rest)) mark
          ((n : Int), breaks) (spelled ++ (List.replicate k ' ' ++ rest)) mark₁ := by
      rcases hknown with rfl | ⟨rfl, hindent, e, cs, hspelled, heblank, hebreak⟩
      · have hhead : ∀ c ∈ (spelled ++ (List.replicate k ' ' ++ rest)).head?,
            isBreak c = false ∧ (n < n → isBlank c = false) := by
          intro e he
          rw [List.head?_append, hd] at he
          obtain rfl : d = e := Option.some.inj he
          exact ⟨hbreak, fun h => absurd h (lt_irrefl n)⟩
        obtain ⟨mark₁, hcolumn₁, hline₁, h⟩ := exists_gives_blockBreaks start le_rfl hhead hbreaks s
          ((breaks ++ (List.replicate n ' ' ++ spelled) ++
            (List.replicate k ' ' ++ rest)).length + 1) 0 [] mark
          (by simp only [List.length_append]; omega) hcolumn
        refine ⟨mark₁, hcolumn₁, hline₁, ?_⟩
        simp only [List.append_assoc] at h ⊢
        exact h
      · -- the first line is not empty
        obtain rfl : breaks = [] := by
          cases breaks with
          | nil => rfl
          | cons b breaks =>
            obtain ⟨n, rfl⟩ := Nat.exists_eq_add_one_of_ne_zero (n := n) (by omega)
            rw [List.replicate_succ, List.cons_append, List.cons_append] at hspelled
            have hb := (hbreaks b List.mem_cons_self).2
            rw [(List.cons.inj hspelled).1, isBreak_space] at hb
            exact absurd hb Bool.false_ne_true
        obtain rfl : spelled = e :: cs := List.append_cancel_left hspelled
        refine ⟨mark.after n, by simp [hcolumn], by simp, ?_⟩
        have h := gives_blockBreaks_unknown start hindent (by omega) heblank hebreak hcolumn
          (([] ++ (List.replicate n ' ' ++ e :: cs) ++ (List.replicate k ' ' ++ rest)).length)
          (cs ++ (List.replicate k ' ' ++ rest))
        simpa only [List.nil_append, List.append_assoc, List.cons_append] using h
    obtain ⟨mark₁, hcolumn₁, hline₁, hfirst⟩ := hfirst
    obtain ⟨mark', blank, hcolumn', hline, hwithin⟩ := exists_gives_blockWithin start hlines hc hempty
      hk hrest s ((breaks ++ (List.replicate n ' ' ++ spelled) ++
        (List.replicate k ' ' ++ rest)).length + 1) ⟨[], [], breaks, false⟩ mark₁
      (by simp only [List.length_append]; omega) hcolumn₁
    exact ⟨breaks, _, mark₁, mark', blank, hcolumn', by omega, hfirst, hwithin⟩

/-! ### Heads -/

/-- The sign for what is kept of the breaks at the end of a block. -/
def signChars : Chomping → List Char
  | .strip => ['-']
  | .clip => []
  | .keep => ['+']

theorem gives_chompingSign (sign : Chomping) (hplus : rest.head? ≠ some '+')
    (hdash : rest.head? ≠ some '-') (s : TokenReader) (mark : Mark) :
    Gives chompingSign s (signChars sign ++ rest) mark sign rest
      (mark.after (signChars sign).length) := by
  refine Gives.bind (gives_sees ..) ?_
  cases sign with
  | keep => exact Gives.bind (gives_skip 1 ..) (gives_pure ..)
  | strip =>
    refine Gives.bind (gives_sees ..) ?_
    exact Gives.bind (gives_skip 1 ..) (gives_pure ..)
  | clip =>
    have hplus' : (rest.head? == some '+') = false := beq_eq_false_iff_ne.2 hplus
    have hdash' : (rest.head? == some '-') = false := beq_eq_false_iff_ne.2 hdash
    rw [signChars, List.nil_append, hplus', if_neg Bool.false_ne_true]
    refine Gives.bind (gives_sees ..) ?_
    rw [hdash', if_neg Bool.false_ne_true]
    exact gives_pure ..

/-- The head of a block. -/
def blockHead (hint : Bool) (sign : Chomping) : List Char :=
  '|' :: ((if hint then ['2'] else []) ++ signChars sign)

/-- What is kept of the breaks at the end of a block. -/
def BlockText.ending (t : BlockText) : Chomping → List Char
  | .strip => []
  | .clip => t.lastBreak
  | .keep => t.lastBreak ++ t.moreBreaks

/-- A block behind its head. -/
def blockBody (start : Mark) (sign : Chomping) (number : Option Nat) : Scan Token := do
  let _ ← takeWhile isBlank
  if ← sees '#' then
    let _ ← takeWhile fun c => !isBreak c
  if !isBreakOrGone (← peek) then
    fail (some ("while scanning a block scalar", start))
      "did not find expected comment or line break"
  else
    let _ ← takeBreak
    let s ← get
    let known := number.map fun (n : Nat) => if 0 ≤ s.indent then s.indent + n else (n : Int)
    let (indent, breaks) ← blockBreaks start known (s.rest.length + 1) 0 []
    let t ← blockWithin start true indent (s.rest.length + 1) ⟨[], [], breaks, false⟩
    pure ⟨.scalar (String.ofList (t.text ++ t.ending sign)) .literal, start, ← here⟩

/-- The number for the indentation in the head of a block. -/
def hintNumber (hint : Bool) : Option Nat := if hint then some 2 else none

/-- The head of a block is passed. -/
theorem exists_leads_blockScalar (hint : Bool) (sign : Chomping) (s : TokenReader)
    (text : List Char) (mark : Mark) :
    ∃ mark', mark'.line = mark.line ∧
      Leads (blockScalar true) s (blockHead hint sign ++ '\n' :: text) mark
        (blockBody mark sign (hintNumber hint)) ('\n' :: text) mark' := by
  cases hint with
  | false =>
    have hnumber (m : Mark) :
        Gives (indentationSign mark) s ('\n' :: text) m none ('\n' :: text) m :=
      Gives.bind (gives_peek ..) (gives_pure ..)
    refine ⟨(mark.after 1).after (signChars sign).length, rfl, ?_⟩
    refine Gives.bind (gives_here ..) (Gives.bind (gives_skip 1 ..) ?_)
    refine Gives.bind (gives_chompingSign sign (by simp) (by simp) ..)
      (Gives.bind (hnumber _) ?_)
    rw [Option.isSome_none, Bool.and_false, if_neg Bool.false_ne_true]
    exact Gives.bind (gives_pure ..) (.refl (blockBody mark sign none) ..)
  | true =>
    have hnumber (cs : List Char) (m : Mark) :
        Gives (indentationSign mark) s ('2' :: cs) m (some 2) cs (m.after 1) :=
      Gives.bind (gives_peek ..) (Gives.bind (gives_skip 1 ..) (gives_pure ..))
    refine ⟨(((mark.after 1).after 0).after 1).after (signChars sign).length, rfl, ?_⟩
    refine Gives.bind (gives_here ..) (Gives.bind (gives_skip 1 ..) ?_)
    refine Gives.bind (gives_chompingSign .clip (by simp) (by simp) ..)
      (Gives.bind (hnumber _ _) ?_)
    exact Gives.bind (gives_chompingSign sign (by simp) (by simp) ..)
      (.refl (blockBody mark sign (some 2)) ..)

/-- **A literal block is read** as its lines, with as much of the breaks at the end as its head
tells. -/
theorem exists_gives_blockScalar {text last more spelled : List Char} {hint : Bool}
    (h : SpellsBlock n text last more spelled) {k : Nat} (hk : k < n) (hrest : EndsGap rest)
    (hknown : KnownIndent n s.indent ((hintNumber hint).map fun (n : Nat) =>
      if 0 ≤ s.indent then s.indent + n else (n : Int)) spelled) (sign : Chomping) (mark : Mark) :
    ∃ mark' blank, mark'.column = k ∧ mark.line < mark'.line ∧
      Gives (blockScalar true) s
        (blockHead hint sign ++ '\n' :: (spelled ++ (List.replicate k ' ' ++ rest))) mark
        ⟨.scalar (String.ofList
          (text ++ BlockText.ending ⟨text, last, more, blank⟩ sign)) .literal, mark, mark'⟩
        rest mark' := by
  obtain ⟨mark₁, hline₁, hhead⟩ := exists_leads_blockScalar hint sign s
    (spelled ++ (List.replicate k ' ' ++ rest)) mark
  obtain ⟨breaks, mid, mark₂, mark', blank, hcolumn', hline, hbreaks, hwithin⟩ :=
    exists_gives_blockLines mark h hknown hk hrest mark₁.newLine rfl
  refine ⟨mark', blank, hcolumn', by rw [Mark.line_newLine] at hline; omega, hhead.trans ?_⟩
  have hend : Gives (takeWhile isBlank) s ('\n' :: (spelled ++ (List.replicate k ' ' ++ rest))) mark₁
      [] ('\n' :: (spelled ++ (List.replicate k ' ' ++ rest))) mark₁ :=
    gives_takeWhile (List.forall_mem_nil _) rfl s mark₁
  refine Gives.bind hend (Gives.bind (gives_sees ..) (Gives.bind (gives_peek ..) ?_))
  refine Gives.bind (gives_takeBreak isLineBreak_newline ..) (leads_get_bind ?_)
  exact Gives.bind hbreaks (Gives.bind hwithin (Gives.bind (gives_here ..) (gives_pure ..)))

/-! ### What is written -/

theorem literalBody_append_break (n : Nat) (after : Bool) (cs : List Char) {c : Char}
    (hc : isBreak c = true) :
    literalBody n after (cs ++ [c]) = literalBody n after cs ++ [c] := by
  induction cs generalizing after with
  | nil => simp [literalBody, hc]
  | cons d cs ih =>
    rw [List.cons_append, literalBody, literalBody]
    by_cases hd : isBreak d = true
    · rw [if_pos hd, if_pos hd, ih, List.cons_append]
    · rw [if_neg hd, if_neg hd, ih, List.append_assoc, List.cons_append]

theorem getLast?_literalBody (n : Nat) (after : Bool) (cs : List Char) :
    (literalBody n after cs).getLast? = cs.getLast? := by
  induction cs generalizing after with
  | nil => rfl
  | cons c cs ih =>
    rw [literalBody]
    split
    · rw [List.getLast?_cons, List.getLast?_cons, ih]
    · rw [List.getLast?_append, List.getLast?_cons, List.getLast?_cons, ih]
      rfl

/-- The line of a block is ended as the text is. -/
theorem endLine_literal (head : List Char) (n : Nat) {cs : List Char} (hne : cs ≠ []) :
    endLine (head ++ '\n' :: literalBody n true cs) =
      head ++ '\n' :: literalBody n true (endLine cs) := by
  have hlast : (head ++ '\n' :: literalBody n true cs).getLast? = cs.getLast? := by
    rw [List.getLast?_append, List.getLast?_cons, getLast?_literalBody]
    obtain ⟨c, hc⟩ := Option.ne_none_iff_exists'.1 (mt List.getLast?_eq_none_iff.1 hne)
    rw [hc]
    rfl
  rw [endLine, endLine, hlast]
  split
  · rfl
  · rw [literalBody_append_break n true cs isLineBreak_newline.2, List.append_assoc,
      List.cons_append]

theorem literalBody_line (n : Nat) {line : List Char} (h : ∀ c ∈ line, isBreak c = false)
    (tail : List Char) : literalBody n false (line ++ tail) = line ++ literalBody n false tail := by
  induction line with
  | nil => rfl
  | cons c line ih =>
    rw [List.forall_mem_cons] at h
    rw [List.cons_append, literalBody, if_neg (Bool.eq_false_iff.1 h.1), if_neg Bool.false_ne_true,
      ih h.2]
    rfl

theorem literalBody_breaks (n : Nat) {breaks : List Char} (h : ∀ c ∈ breaks, isBreak c = true)
    (tail : List Char) : literalBody n true (breaks ++ tail) = breaks ++ literalBody n true tail := by
  induction breaks with
  | nil => rfl
  | cons c breaks ih =>
    rw [List.forall_mem_cons] at h
    rw [List.cons_append, literalBody, if_pos h.1, ih h.2, List.cons_append]

theorem literalBody_indentation (n : Nat) {c : Char} (hc : isBreak c = false) (cs : List Char) :
    literalBody n true (c :: cs) = List.replicate n ' ' ++ literalBody n false (c :: cs) := by
  rw [literalBody, literalBody, if_neg (Bool.eq_false_iff.1 hc), if_neg (Bool.eq_false_iff.1 hc)]
  rfl

/-- **What is written for lines spells them.** -/
theorem exists_spellsLines (n : Nat) {cs : List Char} (hchars : ∀ c ∈ cs, isPrintable c = true)
    (hhead : ∃ c, cs.head? = some c ∧ isBreak c = false)
    (hlast : ∃ c, cs.getLast? = some c ∧ isBreak c = true) :
    ∃ text c empty, cs = text ++ c :: empty ∧ IsLineBreak c ∧ (∀ d ∈ empty, IsLineBreak d) ∧
      (∃ d, text.getLast? = some d ∧ isBreak d = false) ∧
      SpellsLines n c empty text (literalBody n false cs) := by
  induction hlength : cs.length using Nat.strong_induction_on generalizing cs with
  | h length ih =>
  subst hlength
  obtain ⟨line, back, rfl, hline, hback⟩ := exists_span (fun c => !isBreak c) cs
  have hline' : ∀ c ∈ line, isBreak c = false := fun c hc => by simpa using hline c hc
  have hne : line ≠ [] := by
    rintro rfl
    obtain ⟨c, hc, hbreak⟩ := hhead
    simpa [hbreak] using hback c hc
  cases back with
  | nil =>
    -- the last line has no break
    obtain ⟨c, hc, hbreak⟩ := hlast
    rw [List.append_nil] at hc
    rw [hline' c (List.mem_of_getLast? hc)] at hbreak
    cases hbreak
  | cons c back =>
    have hc : isBreak c = true := by simpa using hback c rfl
    obtain ⟨breaks, tail, rfl, hbreaks, htail⟩ := exists_span isBreak back
    have hmem {d : Char} (hd : d ∈ c :: (breaks ++ tail)) (hbreak : isBreak d = true) :
        IsLineBreak d := ⟨hchars d (List.mem_append_right _ hd), hbreak⟩
    have hc' := hmem List.mem_cons_self hc
    have hbreaks' : ∀ d ∈ breaks, IsLineBreak d := fun d hd =>
      hmem (List.mem_cons_of_mem _ (List.mem_append_left _ hd)) (hbreaks d hd)
    have hwrite : literalBody n false (line ++ c :: (breaks ++ tail)) =
        line ++ c :: (breaks ++ literalBody n true tail) := by
      rw [literalBody_line n hline', literalBody, if_pos hc, literalBody_breaks n hbreaks]
    rw [hwrite]
    cases tail with
    | nil =>
      refine ⟨line, c, breaks, by rw [List.append_nil], hc', hbreaks', ?_, ?_⟩
      · obtain ⟨d, hd⟩ := Option.ne_none_iff_exists'.1 (mt List.getLast?_eq_none_iff.1 hne)
        exact ⟨d, hd, hline' d (List.mem_of_getLast? hd)⟩
      · rw [literalBody, List.append_nil]
        exact .last hne hline'
    | cons d tail =>
      have hd := htail d rfl
      have hlast' : ∃ c, (d :: tail).getLast? = some c ∧ isBreak c = true := by
        obtain ⟨e, he, hbreak⟩ := hlast
        refine ⟨e, ?_, hbreak⟩
        rw [← List.cons_append, ← List.append_assoc, List.getLast?_append_of_ne_nil _ (by simp)] at he
        exact he
      obtain ⟨text, e, empty, htext, he, hempty, ⟨f, hf, hfbreak⟩, hspells⟩ := ih (d :: tail).length
        (by simp only [List.length_append, List.length_cons]; omega)
        (fun c hc => hchars c (by simp only [List.mem_append, List.mem_cons] at hc ⊢; tauto))
        ⟨d, rfl, hd⟩ hlast' rfl
      refine ⟨line ++ c :: (breaks ++ text), e, empty, ?_, he, hempty, ⟨f, ?_, hfbreak⟩, ?_⟩
      · rw [htext]
        simp
      · rw [← List.cons_append, ← List.append_assoc, List.getLast?_append, hf]
        rfl
      · rw [literalBody_indentation n hd]
        exact .more hne hline' hc' hbreaks' hspells

/-- The sign for the breaks at the end of a text. -/
def signOf (cs : List Char) : Chomping :=
  match cs.reverse with
  | [] => .strip
  | c :: rest =>
    if !isBreak c then .strip else if rest.isEmpty || rest.head?.any isBreak then .keep else .clip

theorem literalHead_eq (cs : List Char) :
    literalHead cs = blockHead (isBlankEnd cs.head?) (signOf cs) := by
  rw [literalHead, blockHead, chomping, signOf, List.cons_append]
  congr 2
  cases cs.reverse with
  | nil => rfl
  | cons c rest =>
    dsimp only
    split
    · rfl
    · split <;> rfl

theorem signOf_of_not_break (cs : List Char) {c : Char} (hc : isBreak c = false) :
    signOf (cs ++ [c]) = .strip := by
  rw [signOf, List.reverse_append]
  simp [hc]

theorem signOf_break {cs : List Char} {c d : Char} (hc : isBreak c = true)
    (hcs : cs.getLast? = some d) :
    signOf (cs ++ [c]) = if isBreak d then .keep else .clip := by
  have hne : cs ≠ [] := by
    rintro rfl
    cases hcs
  rw [signOf, List.reverse_append]
  simp [hc, hcs, hne]

theorem endLine_of_break (cs : List Char) {c : Char} (hc : isBreak c = true) :
    endLine (cs ++ [c]) = cs ++ [c] := by
  rw [endLine, List.getLast?_concat, Option.any_some, if_pos hc]

theorem endLine_of_not_break (cs : List Char) {c : Char} (hc : isBreak c = false) :
    endLine (cs ++ [c]) = cs ++ [c] ++ ['\n'] := by
  rw [endLine, List.getLast?_concat, Option.any_some, if_neg (Bool.eq_false_iff.1 hc)]

/-- The text of a block, ended as its head tells, is the text that was written. -/
theorem append_ending_signOf {cs text empty : List Char} {c : Char} (hc : isBreak c = true)
    (hempty : ∀ d ∈ empty, isBreak d = true)
    (htext : ∃ d, text.getLast? = some d ∧ isBreak d = false) (hne : cs ≠ [])
    (h : endLine cs = text ++ c :: empty) (blank : Bool) :
    text ++ BlockText.ending ⟨text, [c], empty, blank⟩ (signOf cs) = cs := by
  obtain ⟨d, hd, hdbreak⟩ := htext
  obtain ⟨init, e, rfl⟩ := (List.eq_nil_or_concat' cs).resolve_left hne
  have hlast (f : Char) (hf : isBreak f = true) (more : List Char)
      (hmore : ∀ d ∈ more, isBreak d = true) :
      ∃ g, (text ++ f :: more).getLast? = some g ∧ isBreak g = true := by
    obtain ⟨g, hg⟩ := Option.ne_none_iff_exists'.1
      (mt List.getLast?_eq_none_iff.1 (List.cons_ne_nil f more))
    refine ⟨g, by rw [List.getLast?_append_of_ne_nil _ (by simp), hg], ?_⟩
    rcases List.mem_cons.1 (List.mem_of_getLast? hg) with rfl | h
    · exact hf
    · exact hmore g h
  by_cases he : isBreak e = true
  · rw [endLine_of_break init he] at h
    rcases List.eq_nil_or_concat' empty with rfl | ⟨more, f, rfl⟩
    · obtain ⟨rfl, hec⟩ := List.append_inj' h rfl
      rw [signOf_break he hd, hdbreak, if_neg Bool.false_ne_true, hec]
      rfl
    · rw [← List.cons_append, ← List.append_assoc] at h
      obtain ⟨rfl, hec⟩ := List.append_inj' h rfl
      obtain ⟨g, hg, hgbreak⟩ := hlast c hc more fun d hd => hempty d (by simp [hd])
      rw [signOf_break he hg, hgbreak, if_pos rfl, hec]
      simp [BlockText.ending]
  · rw [endLine_of_not_break init (by simpa using he)] at h
    rw [signOf_of_not_break init (by simpa using he)]
    rcases List.eq_nil_or_concat' empty with rfl | ⟨more, f, rfl⟩
    · obtain ⟨htext, -⟩ := List.append_inj' h rfl
      rw [← htext]
      exact List.append_nil _
    · rw [← List.cons_append, ← List.append_assoc text] at h
      obtain ⟨htext, -⟩ := List.append_inj' h rfl
      obtain ⟨g, hg, hgbreak⟩ := hlast c hc more fun d hd => hempty d (by simp [hd])
      rw [← htext, List.getLast?_concat] at hg
      rw [Option.some.inj hg] at he
      exact absurd hgbreak he

theorem breaks_ending_signOf {cs : List Char} (hne : cs ≠ [])
    (hbreaks : ∀ d ∈ endLine cs, isBreak d = true) (blank : Bool) :
    BlockText.ending ⟨[], [], endLine cs, blank⟩ (signOf cs) = cs := by
  obtain ⟨init, e, rfl⟩ := (List.eq_nil_or_concat' cs).resolve_left hne
  by_cases he : isBreak e = true
  · rw [endLine_of_break init he] at hbreaks ⊢
    have hkeep : signOf (init ++ [e]) = .keep := by
      cases hlast : init.getLast? with
      | none =>
        rw [List.getLast?_eq_none_iff.1 hlast]
        simp [signOf, he]
      | some d =>
        rw [signOf_break he hlast, hbreaks d (List.mem_append_left _ (List.mem_of_getLast? hlast)),
          if_pos rfl]
    rw [hkeep]
    rfl
  · rw [endLine_of_not_break init (by simpa using he)] at hbreaks
    exact absurd (hbreaks e (by simp)) he

theorem isBreak_getLast?_endLine (cs : List Char) :
    ∃ c, (endLine cs).getLast? = some c ∧ isBreak c = true := by
  rw [endLine]
  split
  · rename_i h
    cases hlast : cs.getLast? with
    | none => simp [hlast] at h
    | some c => exact ⟨c, rfl, by simpa [hlast] using h⟩
  · exact ⟨'\n', List.getLast?_concat, rfl⟩

theorem head?_endLine {cs : List Char} (hne : cs ≠ []) : (endLine cs).head? = cs.head? := by
  rw [endLine]
  split
  · rfl
  · rw [List.head?_append_of_ne_nil _ hne]

/-- **A text with line feeds is read back** from a literal block. -/
theorem exists_gives_literal {cs : List Char} (hchars : ∀ c ∈ cs, isPrintable c = true)
    (hne : cs ≠ []) {i k : Nat} (hindent : s.indent = i) (hk : k < i + 2) (hrest : EndsGap rest)
    (mark : Mark) :
    ∃ mark', mark'.column = k ∧ mark.line < mark'.line ∧
      Gives (blockScalar true) s
        (endLine (literalHead cs ++ '\n' :: literalBody (i + 2) true cs) ++
          (List.replicate k ' ' ++ rest)) mark
        ⟨.scalar (String.ofList cs) .literal, mark, mark'⟩ rest mark' := by
  have hchars' : ∀ c ∈ endLine cs, isPrintable c = true := by
    rw [endLine]
    split
    · exact hchars
    · rw [List.forall_mem_append, List.forall_mem_singleton]
      exact ⟨hchars, rfl⟩
  obtain ⟨breaks, tail, hcs, hbreaks, htail⟩ := exists_span isBreak (endLine cs)
  have hbreaks' : ∀ c ∈ breaks, IsLineBreak c := fun c hc =>
    ⟨hchars' c (by rw [hcs]; exact List.mem_append_left _ hc), hbreaks c hc⟩
  have hhint (hint : Bool) (h : hint = true) : ((hintNumber hint).map fun (n : Nat) =>
      if 0 ≤ s.indent then s.indent + n else (n : Int)) = some ((i + 2 : Nat) : Int) := by
    subst h
    rw [hindent]
    simp [hintNumber]
  rw [endLine_literal _ _ hne, hcs, literalBody_breaks _ hbreaks, literalHead_eq]
  cases tail with
  | nil =>
    rw [List.append_nil] at hcs
    obtain ⟨c, hc⟩ := Option.ne_none_iff_exists'.1 (mt List.head?_eq_none_iff.1 hne)
    have hcbreak : isBreak c = true := by
      refine hbreaks c (List.mem_of_mem_head? ?_)
      rw [← hcs, head?_endLine hne, hc]
      rfl
    have hblank : isBlankEnd cs.head? = true := by
      rw [hc, isBlankEnd, hcbreak, Bool.or_true]
    obtain ⟨mark', blank, hcolumn, hline, h⟩ := exists_gives_blockScalar (s := s) (n := i + 2)
      (.empty hbreaks') hk hrest (.inl (hhint _ hblank)) (signOf cs) mark
    refine ⟨mark', hcolumn, hline, ?_⟩
    rw [literalBody, List.append_nil, List.append_assoc, List.cons_append]
    rw [← hcs] at hbreaks h ⊢
    rwa [List.nil_append, breaks_ending_signOf hne hbreaks] at h
  | cons c tail =>
    have hc := htail c rfl
    obtain ⟨text, d, empty, htext, hd, hempty, hlast, hspells⟩ := exists_spellsLines (i + 2)
      (fun e he => hchars' e (by rw [hcs]; exact List.mem_append_right _ he)) ⟨c, rfl, hc⟩ (by
        obtain ⟨e, he, hbreak⟩ := isBreak_getLast?_endLine cs
        rw [hcs, List.getLast?_append_of_ne_nil _ (by simp)] at he
        exact ⟨e, he, hbreak⟩)
    have hblock := SpellsBlock.lines hbreaks' hd hempty hspells
    have hknown : KnownIndent (i + 2) s.indent ((hintNumber (isBlankEnd cs.head?)).map
        fun (n : Nat) => if 0 ≤ s.indent then s.indent + n else (n : Int))
        (breaks ++ (List.replicate (i + 2) ' ' ++ literalBody (i + 2) false (c :: tail))) := by
      cases hblank : isBlankEnd cs.head? with
      | true => exact .inl (hhint true rfl)
      | false =>
        -- the first line is not empty and not indented any further
        rw [← head?_endLine hne, hcs] at hblank
        cases breaks with
        | cons b breaks => simp [isBlankEnd, hbreaks b] at hblank
        | nil =>
          have hspace : c ≠ ' ' := by
            rintro rfl
            cases hblank
          have hprintable : isPrintable c = true := hchars' c (by rw [hcs]; exact List.mem_cons_self)
          refine .inr ⟨rfl, by omega, c, literalBody (i + 2) false tail, ?_,
            isBlank_eq_false hprintable hspace, hc⟩
          rw [literalBody, if_neg (Bool.eq_false_iff.1 hc)]
          rfl
    obtain ⟨mark', blank, hcolumn, hline, h⟩ := exists_gives_blockScalar (s := s) hblock hk hrest
      hknown (signOf cs) mark
    refine ⟨mark', hcolumn, hline, ?_⟩
    have hlast' : ∃ e, (breaks ++ text).getLast? = some e ∧ isBreak e = false := by
      obtain ⟨e, he, hbreak⟩ := hlast
      exact ⟨e, by rw [List.getLast?_append, he]; rfl, hbreak⟩
    rw [append_ending_signOf hd.2 (fun e he => (hempty e he).2) hlast' hne
      (by rw [hcs, htext, List.append_assoc]) blank] at h
    rw [literalBody_indentation _ hc, List.append_assoc, List.cons_append]
    exact h

end Scan

end DocBlocks.Yaml
