import DocBlocks.Format.Yaml.Stream
import DocBlocks.Proofs.Number.Text
import Mathlib

/-!
# Steps of the token reader

A step `Gives` a value on a text if it passes the front of the text and changes nothing else about
the token reader. Each of the small steps has one lemma here that says what it does to a text of the
kind that is written, with the place it comes to: further right on the same line (`Mark.after`), or
at the front of the next line (`Mark.newLine`).

The layout in front of a token is a line break with an indentation, or a blank
(`run_skipLayout_newLine`, `gives_skipLayout`).
-/

namespace DocBlocks.Yaml

namespace Mark

/-- The place behind characters of the same line. -/
def after (m : Mark) (n : Nat) : Mark := ⟨m.index + n, m.line, m.column + n⟩

/-- The place behind a line break. -/
def newLine (m : Mark) : Mark := ⟨m.index + 1, m.line + 1, 0⟩

@[simp] theorem index_after (m : Mark) (n : Nat) : (m.after n).index = m.index + n := rfl

@[simp] theorem line_after (m : Mark) (n : Nat) : (m.after n).line = m.line := rfl

@[simp] theorem column_after (m : Mark) (n : Nat) : (m.after n).column = m.column + n := rfl

@[simp] theorem line_newLine (m : Mark) : m.newLine.line = m.line + 1 := rfl

@[simp] theorem column_newLine (m : Mark) : m.newLine.column = 0 := rfl

@[simp] theorem after_zero (m : Mark) : m.after 0 = m := rfl

theorem after_after (m : Mark) (a b : Nat) : (m.after a).after b = m.after (a + b) := by
  simp [after, Nat.add_assoc]

end Mark

/-! ### Characters -/

/-- A text is split where a property first fails. -/
theorem exists_span (p : Char → Bool) (cs : List Char) :
    ∃ front back, cs = front ++ back ∧ (∀ c ∈ front, p c = true) ∧
      ∀ c ∈ back.head?, p c = false := by
  refine ⟨cs.takeWhile p, cs.dropWhile p, List.takeWhile_append_dropWhile.symm,
    fun c hc => List.mem_takeWhile_imp hc, fun c hc => ?_⟩
  have := List.head?_dropWhile_not p cs
  rw [Option.mem_def.1 hc] at this
  simpa using this

theorem isBlank_space : isBlank ' ' = true := rfl

theorem ne_tab_of_isPrintable {c : Char} (h : isPrintable c = true) : c ≠ '\t' := by
  rintro rfl
  cases h

/-- Among printable characters only the space is a blank. -/
theorem isBlank_eq_false {c : Char} (h : isPrintable c = true) (hspace : c ≠ ' ') :
    isBlank c = false := by
  simp [isBlank, hspace, ne_tab_of_isPrintable h]

theorem isBreak_space : isBreak ' ' = false := rfl

/-- A line break that is read as it is written. -/
def IsLineBreak (c : Char) : Prop := isPrintable c = true ∧ isBreak c = true

theorem isLineBreak_newline : IsLineBreak '\n' := ⟨rfl, rfl⟩

theorem IsLineBreak.isBlank_eq_false {c : Char} (hc : IsLineBreak c) : isBlank c = false := by
  refine Yaml.isBlank_eq_false hc.1 ?_
  rintro rfl
  cases hc.2

namespace Scan

/-! ### Putting steps together -/

/-- Whether a step on a text at a place goes on like another step on what is left of the text. -/
structure Leads {α : Type} (p : Scan α) (s : TokenReader) (text : List Char) (mark : Mark)
    (q : Scan α) (rest : List Char) (mark' : Mark) : Prop where
  run : p.run { s with rest := text, mark := mark } = q.run { s with rest := rest, mark := mark' }

/-- Whether a step gives a value on a text at a place, and where it comes to. -/
def Gives {α : Type} (p : Scan α) (s : TokenReader) (text : List Char) (mark : Mark) (a : α)
    (rest : List Char) (mark' : Mark) : Prop :=
  Leads p s text mark (pure a) rest mark'

section

variable {α β : Type} {p q : Scan α} {a : α} {b : β} {s : TokenReader} {c : Char}
  {text mid rest : List Char} {mark mark' mark'' : Mark}

theorem run_bind (p : Scan α) (f : α → Scan β) (s : TokenReader) :
    (p >>= f).run s = (p.run s).bind fun r => (f r.1).run r.2 := rfl

theorem run_bind_of_ok {f : α → Scan β} {s' : TokenReader} (h : p.run s = .ok (a, s')) :
    (p >>= f).run s = (f a).run s' := by
  rw [run_bind, h]
  rfl

theorem Gives.run (h : Gives p s text mark a rest mark') :
    p.run { s with rest := text, mark := mark } =
      .ok (a, { s with rest := rest, mark := mark' }) := Leads.run h

theorem Leads.refl (p : Scan α) (s : TokenReader) (text : List Char) (mark : Mark) :
    Leads p s text mark p text mark := ⟨rfl⟩

theorem Leads.trans {r : Scan α} (h : Leads p s text mark q mid mark')
    (h' : Leads q s mid mark' r rest mark'') : Leads p s text mark r rest mark'' :=
  ⟨h.run.trans h'.run⟩

/-- A step that gives a value hands it on. -/
theorem Gives.bind {f : α → Scan β} {r : Scan β} (h : Gives p s text mark a mid mark')
    (h' : Leads (f a) s mid mark' r rest mark'') : Leads (p >>= f) s text mark r rest mark'' :=
  ⟨by rw [run_bind_of_ok h.run]; exact h'.run⟩

theorem gives_pure (a : α) (s : TokenReader) (text : List Char) (mark : Mark) :
    Gives (pure a) s text mark a text mark := Leads.refl ..

/-- A step may look at where it stands. -/
theorem leads_get_bind {f : TokenReader → Scan β} {r : Scan β}
    (h : Leads (f { s with rest := text, mark := mark }) s text mark r rest mark') :
    Leads (get >>= f) s text mark r rest mark' := ⟨h.run⟩

/-! ### Characters -/

theorem gives_peekAt (i : Nat) (s : TokenReader) (text : List Char) (mark : Mark) :
    Gives (peekAt i) s text mark (text.drop i).head? text mark := ⟨rfl⟩

theorem gives_peek (s : TokenReader) (text : List Char) (mark : Mark) :
    Gives peek s text mark text.head? text mark := ⟨rfl⟩

theorem gives_sees (c : Char) (s : TokenReader) (text : List Char) (mark : Mark) :
    Gives (sees c) s text mark (text.head? == some c) text mark := ⟨rfl⟩

theorem gives_here (s : TokenReader) (text : List Char) (mark : Mark) :
    Gives here s text mark mark text mark := ⟨rfl⟩

theorem gives_inFlow (s : TokenReader) (text : List Char) (mark : Mark) :
    Gives inFlow s text mark (flowLevel s != 0) text mark := ⟨rfl⟩

theorem gives_skip (n : Nat) (s : TokenReader) (text : List Char) (mark : Mark) :
    Gives (skip n) s text mark () (text.drop n) (mark.after n) := ⟨rfl⟩

theorem gives_takeWhile {p : Char → Bool} {front : List Char} (hfront : ∀ c ∈ front, p c = true)
    (hrest : rest.head?.any p = false) (s : TokenReader) (mark : Mark) :
    Gives (takeWhile p) s (front ++ rest) mark front rest (mark.after front.length) := by
  refine leads_get_bind ?_
  dsimp only
  rw [takeWhile_append_eq hfront rest hrest]
  have h := gives_skip front.length s (front ++ rest) mark
  rw [List.drop_left] at h
  exact h.bind (gives_pure ..)

theorem gives_takeBreak (hc : IsLineBreak c) (s : TokenReader) (text : List Char) (mark : Mark) :
    Gives takeBreak s (c :: text) mark [c] text mark.newLine := by
  obtain ⟨hprintable, hbreak⟩ := hc
  have hvalue : (if c.toNat == 0x2028 || c.toNat == 0x2029 then c else '\n') = c := by
    have hr : c ≠ '\r' := by
      rintro rfl
      cases hprintable
    have hnext : c.toNat ≠ 0x85 := by
      intro h
      simp [isPrintable, h] at hprintable
    simp only [isBreak, beq_eq_false_iff_ne.2 hr, beq_eq_false_iff_ne.2 hnext, Bool.false_or,
      Bool.or_false, Bool.or_eq_true, beq_iff_eq] at hbreak
    rcases hbreak with (rfl | h) | h
    · rfl
    · simp [h]
    · simp [h]
  refine leads_get_bind ?_
  dsimp only
  split
  · rename_i heq
    cases heq
    cases hprintable
  · rename_i heq
    cases heq
    rw [if_pos hbreak]
    refine ⟨?_⟩
    rw [hvalue]
    rfl
  · rename_i heq
    cases heq

/-- In the middle of a line, or in front of other characters, stands no mark of a document. -/
theorem gives_documentMarkAhead (h : mark.column ≠ 0 ∨ [c, c, c].isPrefixOf text = false)
    (s : TokenReader) : Gives (documentMarkAhead c) s text mark false text mark := by
  refine leads_get_bind ?_
  have hfalse : (mark.column == 0 && [c, c, c].isPrefixOf text &&
      isBlankOrGone (text.drop 3).head?) = false := by
    rcases h with h | h <;> simp [h]
  dsimp only
  rw [hfalse]
  exact gives_pure ..

/-! ### Gaps -/

/-- Whether a text goes on with neither a blank nor a break. -/
def EndsGap (rest : List Char) : Prop :=
  ∀ c ∈ rest.head?, isBlank c = false ∧ isBreak c = false

/-- Blanks inside a line are kept. -/
theorem gives_takeGapWithin_blanks (check : Scan Unit) (hrest : EndsGap rest) (s : TokenReader) :
    ∀ (fuel n : Nat) (blanks : List Char) (mark : Mark), n < fuel →
      Gives (takeGapWithin check fuel ⟨blanks, [], [], false⟩) s (List.replicate n ' ' ++ rest) mark
        ⟨blanks ++ List.replicate n ' ', [], [], false⟩ rest (mark.after n) := by
  intro fuel
  induction fuel with
  | zero => omega
  | succ fuel ih =>
    intro n blanks mark hfuel
    refine Gives.bind (gives_peek ..) ?_
    cases n with
    | zero =>
      simp only [List.replicate_zero, List.nil_append, List.append_nil, Mark.after_zero]
      cases hhead : rest.head? with
      | none => exact gives_pure ..
      | some c =>
        obtain ⟨hblank, hbreak⟩ := hrest c hhead
        simp only [hblank, hbreak, Bool.false_eq_true, if_false]
        exact gives_pure ..
    | succ n =>
      have h := ih n (blanks ++ [' ']) (mark.after 1) (by omega)
      rw [Mark.after_after, Nat.add_comm, List.append_assoc, List.singleton_append,
        ← List.replicate_succ] at h
      simp only [List.replicate_succ, List.cons_append, List.head?_cons, isBlank_space, if_true,
        Bool.false_eq_true, if_false]
      exact Gives.bind (gives_skip 1 ..) h

/-- Blanks behind a break are passed. -/
theorem gives_takeGapWithin_indentation {check : Scan Unit} (hrest : EndsGap rest)
    (hcheck : ∀ text mark, text.head? = some ' ' → Gives check s text mark () text mark)
    (first more : List Char) :
    ∀ (fuel n : Nat) (mark : Mark), n < fuel →
      Gives (takeGapWithin check fuel ⟨[], first, more, true⟩) s (List.replicate n ' ' ++ rest) mark
        ⟨[], first, more, true⟩ rest (mark.after n) := by
  intro fuel
  induction fuel with
  | zero => omega
  | succ fuel ih =>
    intro n mark hfuel
    refine Gives.bind (gives_peek ..) ?_
    cases n with
    | zero =>
      simp only [List.replicate_zero, List.nil_append]
      cases hhead : rest.head? with
      | none => exact gives_pure ..
      | some c =>
        obtain ⟨hblank, hbreak⟩ := hrest c hhead
        simp only [hblank, hbreak, Bool.false_eq_true, if_false]
        exact gives_pure ..
    | succ n =>
      have h := ih n (mark.after 1) (by omega)
      rw [Mark.after_after, Nat.add_comm] at h
      simp only [List.replicate_succ, List.cons_append, List.head?_cons, isBlank_space, if_true]
      exact Gives.bind (hcheck _ _ rfl) (Gives.bind (gives_skip 1 ..) h)

/-- Further breaks are kept, and the indentation behind them is passed. -/
theorem exists_gives_takeGapWithin_broken {check : Scan Unit} (hrest : EndsGap rest)
    (hcheck : ∀ text mark, text.head? = some ' ' → Gives check s text mark () text mark)
    (first : List Char) (n : Nat) {breaks : List Char} (hbreaks : ∀ c ∈ breaks, IsLineBreak c) :
    ∀ (fuel : Nat) (more : List Char) (mark : Mark), breaks.length + n < fuel → mark.column = 0 →
      ∃ mark', mark'.column = n ∧ mark.line ≤ mark'.line ∧
        Gives (takeGapWithin check fuel ⟨[], first, more, true⟩) s
          (breaks ++ (List.replicate n ' ' ++ rest)) mark ⟨[], first, more ++ breaks, true⟩ rest
          mark' := by
  induction breaks with
  | nil =>
    intro fuel more mark hfuel hcolumn
    refine ⟨mark.after n, by simp [hcolumn], by simp, ?_⟩
    rw [List.append_nil]
    exact gives_takeGapWithin_indentation hrest hcheck first more fuel n mark (by simpa using hfuel)
  | cons c breaks ih =>
    rintro (- | fuel) more mark hfuel hcolumn
    · omega
    rw [List.forall_mem_cons] at hbreaks
    obtain ⟨mark', hcolumn', hline, h⟩ := ih hbreaks.2 fuel (more ++ [c]) mark.newLine
      (by rw [List.length_cons] at hfuel; omega) rfl
    rw [List.append_assoc, List.singleton_append] at h
    rw [Mark.line_newLine] at hline
    refine ⟨mark', hcolumn', by omega, Gives.bind (gives_peek ..) ?_⟩
    simp only [List.cons_append, List.head?_cons, hbreaks.1.isBlank_eq_false, hbreaks.1.2,
      Bool.false_eq_true, if_false, if_true]
    exact Gives.bind (gives_takeBreak hbreaks.1 ..) h

/-- Blanks inside a line make a gap that stands for themselves. -/
theorem gives_takeGap_blanks (check : Scan Unit) (hrest : EndsGap rest) (s : TokenReader)
    (n : Nat) (mark : Mark) :
    Gives (takeGap check .empty) s (List.replicate n ' ' ++ rest) mark
      ⟨List.replicate n ' ', [], [], false⟩ rest (mark.after n) := by
  refine leads_get_bind ?_
  exact gives_takeGapWithin_blanks check hrest s _ n [] mark (by simp)

/-- Line breaks with an indentation behind them make a gap that stands for the breaks. -/
theorem exists_gives_takeGap_breaks {check : Scan Unit} (hrest : EndsGap rest)
    (hcheck : ∀ text mark, text.head? = some ' ' → Gives check s text mark () text mark) (n : Nat)
    {breaks : List Char} (hc : IsLineBreak c) (hbreaks : ∀ c ∈ breaks, IsLineBreak c)
    (mark : Mark) :
    ∃ mark', mark'.column = n ∧ mark.line < mark'.line ∧
      Gives (takeGap check .empty) s (c :: (breaks ++ (List.replicate n ' ' ++ rest))) mark
        ⟨[], [c], breaks, true⟩ rest mark' := by
  obtain ⟨mark', hcolumn, hline, h⟩ := exists_gives_takeGapWithin_broken (s := s) hrest hcheck [c] n
    hbreaks (c :: (breaks ++ (List.replicate n ' ' ++ rest))).length [] mark.newLine
    (by simp only [List.length_cons, List.length_append, List.length_replicate]; omega) rfl
  refine ⟨mark', hcolumn, hline, leads_get_bind (Gives.bind (gives_peek ..) ?_)⟩
  simp only [List.head?_cons, hc.isBlank_eq_false, hc.2, Bool.false_eq_true, if_false, if_true,
    Gap.empty]
  exact Gives.bind (gives_takeBreak hc ..) h

/-! ### Layout -/

/-- Whether a text goes on like a line behind its indentation, with no comment. -/
def StartsLine (rest : List Char) : Prop :=
  ∀ c ∈ rest.head?, isBlank c = false ∧ isBreak c = false ∧ c ≠ '#' ∧ c.toNat ≠ 0xFEFF

theorem startsLine_nil : StartsLine [] := fun _ hc => absurd hc (Option.not_mem_none _)

theorem startsLine_cons {c : Char}
    (h : isBlank c = false ∧ isBreak c = false ∧ c ≠ '#' ∧ c.toNat ≠ 0xFEFF) (rest : List Char) :
    StartsLine (c :: rest) := by
  rintro d ⟨⟩
  exact h

/-- Blanks are layout. -/
theorem gives_skipLayoutWithin_blanks (hrest : StartsLine rest) (s : TokenReader) (fuel n : Nat)
    (mark : Mark) :
    Gives (skipLayoutWithin (fuel + 1)) s (List.replicate n ' ' ++ rest) mark () rest
      (mark.after n) := by
  have hmark : (List.replicate n ' ' ++ rest).head?.any (·.toNat == 0xFEFF) = false := by
    cases n with
    | zero =>
      cases hhead : rest.head? with
      | none => simp [hhead]
      | some c => simpa [hhead] using (hrest c hhead).2.2.2
    | succ n => rfl
  have htake (tabs : Bool) : Gives (takeWhile fun c => c == ' ' || (tabs && c == '\t')) s
      (List.replicate n ' ' ++ rest) mark (List.replicate n ' ') rest (mark.after n) := by
    have hends : rest.head?.any (fun c => c == ' ' || (tabs && c == '\t')) = false := by
      cases hhead : rest.head? with
      | none => rfl
      | some c =>
        have hblank := (hrest c hhead).1
        simp only [isBlank, Bool.or_eq_false_iff] at hblank
        simp [hblank.1, hblank.2]
    have hblanks : ∀ c ∈ List.replicate n ' ', (c == ' ' || (tabs && c == '\t')) = true := by simp
    have h := gives_takeWhile hblanks hends s mark
    rwa [List.length_replicate] at h
  have hcomment : (rest.head? == some '#') = false :=
    beq_eq_false_iff_ne.2 fun h => (hrest '#' h).2.2.1 rfl
  have hbreak : rest.head?.any isBreak = false := by
    cases hhead : rest.head? with
    | none => rfl
    | some c => exact (hrest c hhead).2.1
  refine Gives.bind (gives_here ..) (Gives.bind (gives_peek ..) ?_)
  rw [hmark, Bool.and_false, if_neg Bool.false_ne_true]
  refine leads_get_bind (Gives.bind (htake _) (Gives.bind (gives_sees ..) ?_))
  rw [hcomment, if_neg Bool.false_ne_true]
  refine Gives.bind (gives_peek ..) ?_
  rw [hbreak, if_neg Bool.false_ne_true]
  exact gives_pure ..

theorem gives_skipLayout (hrest : StartsLine rest) (s : TokenReader) (n : Nat) (mark : Mark) :
    Gives skipLayout s (List.replicate n ' ' ++ rest) mark () rest (mark.after n) :=
  leads_get_bind (gives_skipLayoutWithin_blanks hrest ..)

/-- Behind a line break a key may stand. -/
theorem run_skipLayout_newLine (hrest : StartsLine rest) {s : TokenReader} (hflow : flowLevel s = 0)
    (n : Nat) (mark : Mark) :
    skipLayout.run { s with rest := '\n' :: (List.replicate n ' ' ++ rest), mark := mark } =
      .ok ((), { s with rest := rest, mark := mark.newLine.after n, keyAllowed := true }) := by
  have htake (tabs : Bool) : Gives (takeWhile fun c => c == ' ' || (tabs && c == '\t')) s
      ('\n' :: (List.replicate n ' ' ++ rest)) mark [] ('\n' :: (List.replicate n ' ' ++ rest))
      mark :=
    gives_takeWhile (List.forall_mem_nil _) (by simp) s mark
  have hfirst : Leads skipLayout s ('\n' :: (List.replicate n ' ' ++ rest)) mark
      (do allowKey true; skipLayoutWithin ((List.replicate n ' ' ++ rest).length + 1))
      (List.replicate n ' ' ++ rest) mark.newLine := by
    have hmark : ('\n'.toNat == 0xFEFF) = false := rfl
    refine leads_get_bind (Gives.bind (gives_here ..) (Gives.bind (gives_peek ..) ?_))
    rw [List.head?_cons, Option.any_some, hmark, Bool.and_false, if_neg Bool.false_ne_true]
    refine leads_get_bind (Gives.bind (htake _) (Gives.bind (gives_sees ..) ?_))
    rw [List.head?_cons, if_neg (by decide)]
    refine Gives.bind (gives_peek ..) ?_
    rw [List.head?_cons, Option.any_some, if_pos isLineBreak_newline.2]
    refine Gives.bind (gives_takeBreak isLineBreak_newline ..) (Gives.bind (gives_inFlow ..) ?_)
    rw [hflow]
    exact .refl ..
  rw [hfirst.run]
  exact (gives_skipLayoutWithin_blanks hrest { s with keyAllowed := true } _ n mark.newLine).run

end

end Scan

end DocBlocks.Yaml
