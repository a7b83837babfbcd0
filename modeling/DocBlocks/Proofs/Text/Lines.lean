import DocBlocks.Source.Slice
import DocBlocks.Text.Blank
import DocBlocks.Text.Lines
import Mathlib.Data.List.Chain
import Mathlib.Data.List.Infix
import Mathlib.Data.List.TakeWhile

/-!
# Lines, blanks, runs and pairs of characters

* `Apart x y cs`: nowhere in a text does `x` stand right before `y`. A comment that must not end
  early and a text without a certain line break are both of this kind; `apart_intercalate` says when
  lines put together are.
* `exists_linesOf_between`: characters in front of a text go to its first line, and characters
  behind it to its last one.
* `lastLine_append_of_mem` and `lastLine_append_of_not_mem`: what becomes of the last line of a text
  if more text follows.
* `isInfix_of_mem_linesOf`, `trimChars_isInfix`: lines and trimmed texts are pieces of the text.
-/

namespace DocBlocks

/-! ### Runs of characters -/

/-- A run of characters ends at the first one that does not belong to it. -/
theorem takeWhile_append_eq {p : Char → Bool} {cs : List Char} (h : ∀ c ∈ cs, p c = true)
    (rest : List Char) (hrest : rest.head?.any p = false) : (cs ++ rest).takeWhile p = cs := by
  rw [List.takeWhile_append_of_pos h]
  cases rest with
  | nil => simp
  | cons c rest =>
    rw [List.takeWhile_cons_of_neg (by simpa using hrest), List.append_nil]

theorem forall_bne_of_not_mem {d : Char} {cs : List Char} (h : d ∉ cs) :
    ∀ c ∈ cs, (c != d) = true := by
  intro c hc
  rw [bne_iff_ne]
  rintro rfl
  exact h hc

/-- What stands in front of a character is all up to the first one like it. -/
theorem takeWhile_until {d : Char} {cs : List Char} (h : d ∉ cs) (rest : List Char) :
    (cs ++ d :: rest).takeWhile (· != d) = cs :=
  takeWhile_append_eq (forall_bne_of_not_mem h) _ (by simp)

/-- A run of characters of one class and what stands behind it. -/
theorem takeWhile_append_drop (p : Char → Bool) (cs : List Char) :
    cs.takeWhile p ++ cs.drop (cs.takeWhile p).length = cs := by
  have h : cs.takeWhile p <+: cs := List.takeWhile_prefix p
  exact (List.prefix_iff_eq_append.1 h).symm ▸ rfl

theorem drop_takeWhile (p : Char → Bool) (cs : List Char) :
    cs.drop (cs.takeWhile p).length = cs.dropWhile p := by
  have h : cs.takeWhile p ++ cs.drop (cs.takeWhile p).length =
      cs.takeWhile p ++ cs.dropWhile p := by
    rw [takeWhile_append_drop, List.takeWhile_append_dropWhile]
  exact List.append_cancel_left h

/-! ### Pairs of characters -/

/-- Whether one character never stands right before another one. -/
def Apart (x y : Char) (cs : List Char) : Prop := cs.IsChain fun a b => ¬ (a = x ∧ b = y)

variable {x y : Char}

theorem Apart.nil : Apart x y [] := List.IsChain.nil

theorem Apart.singleton (a : Char) : Apart x y [a] := List.IsChain.singleton a

theorem Apart.of_isInfix {as bs : List Char} (h : Apart x y bs) (hi : as <:+: bs) :
    Apart x y as := by
  obtain ⟨front, back, rfl⟩ := hi
  exact List.IsChain.right_of_append (List.IsChain.left_of_append h)

theorem apart_append {as bs : List Char} :
    Apart x y (as ++ bs) ↔ Apart x y as ∧ Apart x y bs ∧
      ∀ a ∈ as.getLast?, ∀ b ∈ bs.head?, ¬ (a = x ∧ b = y) :=
  List.isChain_append

/-- **Two characters are apart if they are no piece of the text.** -/
theorem apart_iff_not_isInfix {cs : List Char} : Apart x y cs ↔ ¬ [x, y] <:+: cs := by
  rw [Apart, List.isChain_iff_forall_rel_of_append_cons_cons]
  constructor
  · rintro h ⟨front, back, rfl⟩
    exact h (List.append_assoc _ _ _) ⟨rfl, rfl⟩
  · rintro h a b front back rfl ⟨rfl, rfl⟩
    exact h ⟨front, back, List.append_assoc _ _ _⟩

theorem Apart.append_of_head {as bs : List Char} (ha : Apart x y as) (hb : Apart x y bs)
    (h : bs.head? ≠ some y) : Apart x y (as ++ bs) :=
  apart_append.2 ⟨ha, hb, fun _ _ _ hb hab => h (hab.2 ▸ hb)⟩

theorem Apart.append_of_last {as bs : List Char} (ha : Apart x y as) (hb : Apart x y bs)
    (h : as.getLast? ≠ some x) : Apart x y (as ++ bs) :=
  apart_append.2 ⟨ha, hb, fun _ ha _ _ hab => h (hab.1 ▸ ha)⟩

theorem apart_of_not_mem {cs : List Char} (h : y ∉ cs) : Apart x y cs := by
  refine apart_iff_not_isInfix.2 fun hi => h ?_
  exact hi.subset (by simp)

theorem apart_of_not_mem_left {cs : List Char} (h : x ∉ cs) : Apart x y cs := by
  refine apart_iff_not_isInfix.2 fun hi => h ?_
  exact hi.subset (by simp)

/-- **Lines put together keep two characters apart**, if each line does and the break between two
lines does not bring them together. -/
theorem apart_intercalate {sep : List Char} {lines : List (List Char)} (hsep : Apart x y sep)
    (hlines : ∀ l ∈ lines, Apart x y l) (hne : sep ≠ []) (hlast : sep.getLast? ≠ some x)
    (hjoin : sep.head? ≠ some y ∨ ∀ l ∈ lines, l.getLast? ≠ some x) :
    Apart x y (sep.intercalate lines) := by
  induction lines with
  | nil => exact .nil
  | cons l ls ih =>
    have hl := hlines l List.mem_cons_self
    cases ls with
    | nil => simpa using hl
    | cons l' ls =>
      have hrest := ih (fun k hk => hlines k (List.mem_cons_of_mem _ hk))
        (hjoin.imp_right fun h k hk => h k (List.mem_cons_of_mem _ hk))
      rw [List.intercalate_cons_cons, List.append_assoc]
      have hback : Apart x y (sep ++ sep.intercalate (l' :: ls)) := hsep.append_of_last hrest hlast
      rcases hjoin with h | h
      · refine hl.append_of_head hback ?_
        rwa [List.head?_append_of_ne_nil _ hne]
      · exact hl.append_of_last hback (h l List.mem_cons_self)

theorem intercalate_concat_append (sep : List Char) (init : List (List Char)) (a b : List Char) :
    sep.intercalate (init ++ [a ++ b]) = sep.intercalate (init ++ [a]) ++ b := by
  induction init with
  | nil => simp
  | cons l ls ih =>
    cases ls with
    | nil => simp [List.intercalate_cons_cons]
    | cons l' ls =>
      simp only [List.cons_append, List.intercalate_cons_cons] at ih ⊢
      rw [ih]
      simp

/-- Of two lines or more the break is a piece of what they make together. -/
theorem isInfix_intercalate (sep l l' : List Char) (ls : List (List Char)) :
    sep <:+: sep.intercalate (l :: l' :: ls) := by
  rw [List.intercalate_cons_cons]
  exact ⟨l, sep.intercalate (l' :: ls), rfl⟩

/-! ### Lines -/

/-- Lines with a character in front of the first one. -/
def ontoFirst (c : Char) : List (List Char) → List (List Char)
  | [] => [[c]]
  | l :: ls => (c :: l) :: ls

/-- A character that ends no line goes to the front of the first line behind it. -/
theorem linesOf_cons {c : Char} {cs : List Char} (hc : c ≠ '\n')
    (hpair : ∀ rest, c = '\r' → cs ≠ '\n' :: rest) :
    linesOf (c :: cs) = ontoFirst c (linesOf cs) := by
  rw [linesOf.eq_def (c :: cs)]
  split
  case h_1 heq => simp at heq
  case h_2 rest heq =>
    obtain ⟨rfl, rfl⟩ := List.cons.inj heq
    exact absurd rfl (hpair rest rfl)
  case h_3 heq => exact absurd (List.cons.inj heq).1 hc
  case h_4 heq =>
    obtain ⟨rfl, rfl⟩ := List.cons.inj heq
    cases linesOf cs <;> rfl

theorem linesOf_of_not_mem {cs : List Char} (hne : cs ≠ []) (h : '\n' ∉ cs) :
    linesOf cs = [cs] := by
  induction cs with
  | nil => exact absurd rfl hne
  | cons c cs ih =>
    have hc : c ≠ '\n' := fun hc => h (by simp [hc])
    have hcs : '\n' ∉ cs := fun hm => h (List.mem_cons_of_mem _ hm)
    rw [linesOf_cons hc fun rest _ hrest => hcs (by simp [hrest])]
    cases cs with
    | nil => rfl
    | cons d cs =>
      rw [ih (by simp) hcs]
      rfl

theorem exists_linesOf_cons {c : Char} {cs : List Char} (hc : c ≠ '\n')
    (hpair : ∀ rest, c = '\r' → cs ≠ '\n' :: rest) {init : List (List Char)} {last : List Char}
    (h : ∀ bs, bs ≠ [] → '\n' ∉ bs → linesOf (cs ++ bs) = init ++ [last ++ bs]) :
    ∃ init' last', ∀ bs, bs ≠ [] → '\n' ∉ bs →
      linesOf (c :: cs ++ bs) = init' ++ [last' ++ bs] := by
  have hcons : ∀ bs : List Char, '\n' ∉ bs →
      linesOf (c :: cs ++ bs) = ontoFirst c (linesOf (cs ++ bs)) := by
    intro bs hbs
    refine linesOf_cons hc fun rest hr hrest => ?_
    cases cs with
    | nil => exact hbs (by simp [show bs = _ from hrest])
    | cons d cs =>
      obtain rfl : d = '\n' := (List.cons.inj hrest).1
      exact hpair cs hr rfl
  cases init with
  | nil =>
    refine ⟨[], c :: last, fun bs hne hbs => ?_⟩
    rw [hcons bs hbs, h bs hne hbs]
    rfl
  | cons l init =>
    refine ⟨(c :: l) :: init, last, fun bs hne hbs => ?_⟩
    rw [hcons bs hbs, h bs hne hbs]
    rfl

/-- Characters behind a text go to its last line. -/
theorem exists_linesOf_append (as : List Char) :
    ∃ init last, ∀ bs, bs ≠ [] → '\n' ∉ bs → linesOf (as ++ bs) = init ++ [last ++ bs] := by
  fun_induction linesOf as with
  | case1 => exact ⟨[], [], fun bs hne h => by simpa using linesOf_of_not_mem hne h⟩
  | case2 cs ih =>
    obtain ⟨init, last, h⟩ := ih
    exact ⟨[] :: init, last, fun bs hne hbs => by simp [linesOf, h bs hne hbs]⟩
  | case3 cs ih =>
    obtain ⟨init, last, h⟩ := ih
    exact ⟨[] :: init, last, fun bs hne hbs => by simp [linesOf, h bs hne hbs]⟩
  | case4 c cs hr hc hl ih =>
    obtain ⟨init, last, h⟩ := ih
    exact exists_linesOf_cons hc hr h
  | case5 c cs hr hc l ls hl ih =>
    obtain ⟨init, last, h⟩ := ih
    exact exists_linesOf_cons hc hr h

/-- **Characters in front of a text go to its first line and those behind it to its last line.** -/
theorem exists_linesOf_between {front : List Char} (hfront : '\n' ∉ front ∧ '\r' ∉ front)
    (as : List Char) :
    ∃ init last, (∃ l ls, init ++ [last] = (front ++ l) :: ls) ∧
      ∀ bs, bs ≠ [] → '\n' ∉ bs → linesOf (front ++ as ++ bs) = init ++ [last ++ bs] := by
  induction front with
  | nil =>
    obtain ⟨init, last, h⟩ := exists_linesOf_append as
    refine ⟨init, last, ?_, h⟩
    cases init <;> simp
  | cons c front ih =>
    simp only [List.mem_cons, not_or] at hfront
    obtain ⟨init, last, ⟨l, ls, hhead⟩, h⟩ := ih ⟨hfront.1.2, hfront.2.2⟩
    have hcons : ∀ bs, linesOf (c :: front ++ as ++ bs) =
        ontoFirst c (linesOf (front ++ as ++ bs)) :=
      fun bs => linesOf_cons (Ne.symm hfront.1.1) fun _ hc => absurd hc (Ne.symm hfront.2.1)
    cases init with
    | nil =>
      refine ⟨[], c :: last, ⟨l, ls, ?_⟩, fun bs hne hbs => ?_⟩
      · obtain ⟨rfl, rfl⟩ := List.cons.inj hhead
        rfl
      · rw [hcons, h bs hne hbs]
        rfl
    | cons l' init =>
      refine ⟨(c :: l') :: init, last, ⟨l, ls, ?_⟩, fun bs hne hbs => ?_⟩
      · obtain ⟨rfl, rfl⟩ := List.cons.inj hhead
        rfl
      · rw [hcons, h bs hne hbs]
        rfl

/-- A line is a piece of the text. -/
theorem isInfix_of_mem_linesOf {cs l : List Char} (h : l ∈ linesOf cs) : l <:+: cs := by
  -- a character is put in front of the first line, so that one has to be a front of the text
  suffices hsplit : ∀ l ∈ linesOf cs, l <:+: cs ∧ (l ∈ (linesOf cs).head? → l <+: cs) from
    (hsplit l h).1
  clear h l
  fun_induction linesOf cs with
  | case1 => simp
  | case2 cs ih =>
    intro l hl
    rcases List.mem_cons.1 hl with rfl | hl
    · exact ⟨List.nil_suffix.isInfix, fun _ => List.nil_prefix⟩
    · refine ⟨(ih l hl).1.trans (List.suffix_append ['\r', '\n'] cs).isInfix, fun hhead => ?_⟩
      obtain rfl := Option.some.inj hhead
      exact List.nil_prefix
  | case3 cs ih =>
    intro l hl
    rcases List.mem_cons.1 hl with rfl | hl
    · exact ⟨List.nil_suffix.isInfix, fun _ => List.nil_prefix⟩
    · refine ⟨(ih l hl).1.trans (List.suffix_cons _ _).isInfix, fun hhead => ?_⟩
      obtain rfl := Option.some.inj hhead
      exact List.nil_prefix
  | case4 c cs hr hc hl ih =>
    intro l hl'
    obtain rfl := List.mem_singleton.1 hl'
    have hp : [c] <+: c :: cs := ⟨cs, rfl⟩
    exact ⟨hp.isInfix, fun _ => hp⟩
  | case5 c cs hr hc l₀ ls hl ih =>
    intro l hl'
    rcases List.mem_cons.1 hl' with rfl | hl'
    · have hp : c :: l₀ <+: c :: cs :=
        List.cons_prefix_cons.2 ⟨rfl, (ih l₀ (by simp [hl])).2 (by simp [hl])⟩
      exact ⟨hp.isInfix, fun _ => hp⟩
    · refine ⟨(ih l (by simp [hl, hl'])).1.trans (List.suffix_cons _ _).isInfix, fun hhead => ?_⟩
      obtain rfl := Option.some.inj hhead
      exact List.cons_prefix_cons.2 ⟨rfl, (ih l₀ (by simp [hl])).2 (by simp [hl])⟩

/-! ### The last line -/

theorem lastLine_suffix (cs : List Char) : lastLine cs <:+ cs := by
  have h := List.reverse_suffix.2 (List.takeWhile_prefix (l := cs.reverse) (· != '\n'))
  rwa [List.reverse_reverse] at h

theorem lastLine_append_of_not_mem {xs ys : List Char} (h : '\n' ∉ ys) :
    lastLine (xs ++ ys) = lastLine xs ++ ys := by
  have hys : ∀ c ∈ ys.reverse, (c != '\n') = true := by
    intro c hc
    rw [List.mem_reverse] at hc
    simpa using fun hc' : c = '\n' => h (hc' ▸ hc)
  simp only [lastLine, List.reverse_append]
  rw [List.takeWhile_append_of_pos hys, List.reverse_append, List.reverse_reverse]

theorem lastLine_concat_newline (xs : List Char) : lastLine (xs ++ ['\n']) = [] := by
  simp [lastLine]

theorem lastLine_append_of_mem {xs ys : List Char} (h : '\n' ∈ ys) :
    lastLine (xs ++ ys) = lastLine ys := by
  -- the line begins behind the last line feed, wherever the text begins
  obtain ⟨as, bs, rfl, hbs⟩ : ∃ as bs, ys = as ++ '\n' :: bs ∧ '\n' ∉ bs := by
    obtain ⟨bs, as, hys, hbs⟩ := List.eq_append_cons_of_mem (List.mem_reverse.2 h)
    refine ⟨as.reverse, bs.reverse, ?_, by simpa using hbs⟩
    rw [← List.reverse_reverse ys, hys]
    simp
  have hcut : ∀ front : List Char, lastLine (front ++ '\n' :: bs) = bs := by
    intro front
    rw [List.append_cons, lastLine_append_of_not_mem hbs, lastLine_concat_newline, List.nil_append]
  rw [hcut, ← List.append_assoc, hcut]

/-! ### Blanks -/

theorem trimFront_isSuffix (cs : List Char) : trimFront cs <:+ cs :=
  List.dropWhile_suffix _

theorem trimBack_isPrefix (cs : List Char) : trimBack cs <+: cs :=
  ⟨_, trimBack_append cs⟩

/-- A trimmed text is a piece of the text. -/
theorem trimChars_isInfix (cs : List Char) : trimChars cs <:+: cs :=
  (trimBack_isPrefix _).isInfix.trans (trimFront_isSuffix cs).isInfix

/-- What stands in front of a character that is not blank stays. -/
theorem trimBack_append_cons {c : Char} (hc : isBlank c = false) (as bs : List Char) :
    trimBack (as ++ c :: bs) = as ++ c :: trimBack bs := by
  have h : (bs.reverse ++ c :: as.reverse).dropWhile isBlank =
      bs.reverse.dropWhile isBlank ++ c :: as.reverse := by
    rw [List.dropWhile_append]
    split
    · rename_i hempty
      rw [List.isEmpty_iff] at hempty
      rw [hempty, List.nil_append, List.dropWhile_cons_of_neg (by simp [hc])]
    · rfl
  simp [trimBack, h]

theorem trimFront_append_cons {c : Char} (hc : isBlank c = false) (as bs : List Char) :
    trimFront (as ++ c :: bs) = trimFront as ++ c :: bs := by
  rw [trimFront, List.dropWhile_append]
  split
  · rename_i hempty
    rw [List.isEmpty_iff] at hempty
    rw [trimFront, hempty, List.nil_append, List.dropWhile_cons_of_neg (by simp [hc])]
  · rfl

theorem trimChars_append_cons {c : Char} (hc : isBlank c = false) (as bs : List Char) :
    trimChars (as ++ c :: bs) = trimFront as ++ c :: trimBack bs := by
  rw [trimChars, trimFront_append_cons hc, trimBack_append_cons hc]

/-- The last character of a trimmed text is not blank. -/
theorem getLast?_trimBack {cs : List Char} {c : Char} (h : (trimBack cs).getLast? = some c) :
    isBlank c = false := by
  rw [trimBack, List.getLast?_reverse] at h
  have := List.head?_dropWhile_not isBlank cs.reverse
  rw [h] at this
  simpa using this

end DocBlocks
