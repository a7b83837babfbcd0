import DocBlocks.Proofs.Token.Spelling
import Mathlib.Data.List.DropRight

/-!
# What comments and islands are made of

`nextLexeme?_isToken_or_extra`: what is found in a text and is no token is a comment or an island.

* A comment is a block up to its terminator, or a mark with a line behind it (`CommentText`). A line
  holds no line feed, but a question mark at its end takes the line break into the comment.
* Behind an island code goes on right behind a tag, or it does not go on at all (`EndsMarkup`).
-/

namespace DocBlocks

/-! ### Comments -/

/-- The texts of comments. The tail of a line is what its question mark takes along. -/
inductive CommentText : List Char → Prop where
  | block (body : List Char) : CommentText ('/' :: '*' :: body ++ ['*', '/'])
  | line {mark body tail : List Char} (opens : mark = ['#'] ∨ mark = ['/', '/'])
      (unbroken : '\n' ∉ body) (closes : tail ∈ [[], ['?', '\n'], ['?', '\r', '\n']]) :
      CommentText (mark ++ body ++ tail)

/-- A line comment runs up to a line break, or with it behind a question mark. -/
theorem exists_takeLineComment (cs : List Char) :
    ∃ body tail, (takeLineComment cs).1 = body ++ tail ∧ '\n' ∉ body ∧
      tail ∈ [[], ['?', '\n'], ['?', '\r', '\n']] := by
  fun_induction takeLineComment cs with
  | case1 => exact ⟨[], [], by simp⟩
  | case2 cs => exact ⟨[], ['?', '\n'], by simp⟩
  | case3 cs => exact ⟨[], ['?', '\r', '\n'], by simp⟩
  | case4 c cs hnewline hreturn hends => exact ⟨[], [], by simp⟩
  | case5 c cs hnewline hreturn hends t rest htake ih =>
    obtain ⟨body, tail, htext, hbody, htail⟩ := ih
    refine ⟨'?' :: c :: body, tail, by simpa [htake] using htext, ?_, htail⟩
    have hc : c ≠ '\n' := by
      rintro rfl
      exact hnewline rfl
    simpa [hbody] using Ne.symm hc
  | case6 c cs _ _ _ hends => exact ⟨[], [], by simp⟩
  | case7 c cs _ _ _ hends t rest htake ih =>
    obtain ⟨body, tail, htext, hbody, htail⟩ := ih
    refine ⟨c :: body, tail, by simpa [htake] using htext, ?_, htail⟩
    have hc : c ≠ '\n' := by
      rintro rfl
      simp at hends
    simpa [hbody] using Ne.symm hc

/-- **Nothing of a line comment is lost.** -/
theorem takeLineComment_append (cs : List Char) :
    (takeLineComment cs).1 ++ (takeLineComment cs).2 = cs := by
  fun_induction takeLineComment cs with
  | case1 => rfl
  | case2 cs => rfl
  | case3 cs => rfl
  | case4 => rfl
  | case5 c cs _ _ _ t rest h ih => simpa [h] using ih
  | case6 => rfl
  | case7 c cs _ _ _ _ t rest h ih => simpa [h] using ih

theorem commentText_line {mark : List Char} (hmark : mark = ['#'] ∨ mark = ['/', '/'])
    (cs : List Char) : CommentText (mark ++ (takeLineComment cs).1) := by
  obtain ⟨body, tail, htext, hbody, htail⟩ := exists_takeLineComment cs
  rw [htext, ← List.append_assoc]
  exact .line hmark hbody htail

theorem exists_takeBlockComment? {cs t rest : List Char}
    (h : takeBlockComment? cs = some (t, rest)) : ∃ body, t = body ++ ['*', '/'] := by
  fun_induction takeBlockComment? cs generalizing t rest with
  | case1 => simp at h
  | case2 cs =>
    obtain ⟨rfl, rfl⟩ := by simpa using h
    exact ⟨[], rfl⟩
  | case3 => simp at h
  | case4 c cs _ _ ih =>
    obtain ⟨⟨u, r⟩, hu, he⟩ := Option.map_eq_some_iff.1 h
    obtain ⟨rfl, rfl⟩ := by simpa using he
    obtain ⟨body, rfl⟩ := ih hu
    exact ⟨c :: body, rfl⟩

/-- What is taken off the front of a text is as long as it is counted. -/
theorem take_length_of_append {t rest cs : List Char} (h : t ++ rest = cs) :
    cs.take t.length = t := by
  rw [← h, List.take_left]

namespace Alternative

theorem commentText_of_mem_comments {cs : List Char} {a : Alternative} (h : a ∈ comments cs) :
    CommentText (cs.take a.length) := by
  unfold comments at h
  split at h
  · rename_i cs
    obtain rfl := List.mem_singleton.1 h
    rw [Nat.add_comm, List.take_succ_cons, List.take_succ_cons,
      take_length_of_append (takeLineComment_append cs)]
    exact commentText_line (.inr rfl) cs
  · rename_i cs
    split at h
    · rename_i t rest htake
      obtain rfl := List.mem_singleton.1 h
      rw [Nat.add_comm, List.take_succ_cons, List.take_succ_cons,
        take_length_of_append (takeBlockComment?_append htake)]
      obtain ⟨body, rfl⟩ := exists_takeBlockComment? htake
      exact .block body
    · simp at h
  · rename_i cs
    split at h
    · obtain rfl := List.mem_singleton.1 h
      rw [Nat.add_comm, List.take_succ_cons, take_length_of_append (takeLineComment_append cs)]
      exact commentText_line (.inl rfl) cs
    · obtain rfl := List.mem_singleton.1 h
      have hmark : CommentText (['#'] ++ [] ++ []) := .line (.inl rfl) (by simp) (by simp)
      exact hmark
  · simp at h

/-- A way to read that offers no terminal is a comment. -/
theorem mem_comments_of_mem_all {cs : List Char} {a : Alternative} (h : a ∈ all cs)
    (hnone : a.terminals? = none) : a ∈ comments cs := by
  have htoken : ∀ n ts, a ≠ token n ts := by
    rintro n ts rfl
    simp [token] at hnone
  have hfloats : a ∉ floats cs := by
    unfold floats
    split <;> simp [htoken]
  have hintegers : a ∉ integers cs := by
    unfold integers
    split <;> simp [htoken]
  have hmarks : a ∉ marks cs := by
    intro hm
    simp only [marks, List.mem_append, List.mem_map] at hm
    rcases hm with ⟨t, -, rfl⟩ | hm
    · exact htoken _ _ rfl
    · split at hm <;> simp [mark, htoken] at hm
  have hwords : a ∉ words cs := by
    intro hm
    simp only [words, List.mem_append, List.mem_singleton] at hm
    rcases hm with hm | rfl
    · repeat' split at hm
      all_goals simp [htoken] at hm
    · exact htoken _ _ rfl
  simp only [all, List.mem_mergeSort] at h
  split at h
  · simp at h
  · split at h
    · simp [hfloats, hwords] at h
    split at h
    · simp [hfloats, hintegers] at h
    · simpa [hfloats, hmarks] using h

end Alternative

/-- Whether a lexeme is a token. -/
def Lexeme.IsToken (l : Lexeme) : Prop := ∃ t ts text, l.find = .token t ts text

theorem Lexeme.isToken_soleToken {labels : List (List Char)} {gap : List Char} {t : Terminal}
    {text rest : List Char} : (soleToken labels gap t text rest).IsToken :=
  ⟨t, [], text, rfl⟩

theorem pickAlternative?_comment {accepts : Accepts} {labels : List (List Char)}
    {gap cs : List Char} {as : List Alternative} {l : Lexeme}
    (has : ∀ a ∈ as, a.terminals? = none → CommentText (cs.take a.length))
    (h : pickAlternative? accepts labels gap cs as = some l) :
    l.IsToken ∨ ∃ text, l.find = .comment text ∧ CommentText text := by
  induction as with
  | nil => simp [pickAlternative?] at h
  | cons a as ih =>
    simp only [pickAlternative?] at h
    split at h
    · rename_i hnone
      obtain rfl := Option.some.inj h
      exact .inr ⟨_, rfl, has a List.mem_cons_self hnone⟩
    · split at h
      · obtain rfl := Option.some.inj h
        exact .inl ⟨_, _, _, rfl⟩
      · exact ih (fun b hb => has b (List.mem_cons_of_mem _ hb)) h

/-! ### Islands -/

/-- Whether markup has come to an end in front of a text: a tag is there, or no code at all. -/
def StopsMarkup (cs : List Char) : Prop :=
  (takeTag? cs).isSome = true ∨ ∀ c ∈ cs.head?, isNull c = true

theorem dropWhile_append_of_all {p : Char → Bool} {xs ys : List Char} (h : xs.all p = true) :
    (xs ++ ys).dropWhile p = ys.dropWhile p := by
  have hxs : xs.dropWhile p = [] := by simpa [List.dropWhile_eq_nil_iff] using h
  simp [List.dropWhile_append, hxs]

/-- Behind the blanks that follow markup there is a tag, or no code at all. -/
theorem stopsMarkup_takeMarkup (cs : List Char) :
    StopsMarkup ((takeMarkup cs).2.dropWhile isAsciiBlank) := by
  fun_induction takeMarkup cs with
  | case1 => exact .inr (by simp)
  | case2 cs htag =>
    obtain ⟨rest, rfl⟩ := List.head?_eq_some_iff.1 (beq_iff_eq.1 htag)
    left
    rw [List.dropWhile_cons_of_neg (by decide)]
    unfold takeTag?
    split
    · rfl
    · split <;> rfl
    · rfl
    · rename_i hnot
      exact absurd rfl (hnot rest)
  | case3 cs htag t rest htake hblank ih =>
    have happend := takeMarkup_append cs
    rw [htake] at happend ih
    rw [← happend, dropWhile_append_of_all hblank]
    exact ih
  | case4 cs htag t rest htake hblank ih => simpa [htake] using ih
  | case5 c cs hc hnull =>
    have hblank : isAsciiBlank c = false := by
      have hzero : c.toNat = 0 := by simpa [isNull] using hnull
      have hne : c ≠ ' ' := by
        rintro rfl
        simp at hzero
      simp [isAsciiBlank, hzero, hne]
    rw [List.dropWhile_cons_of_neg (by simp [hblank])]
    exact .inr (by simpa using hnull)
  | case6 c cs hc hnull t rest htake ih => simpa [htake] using ih

/-- Whether code goes on right behind the markup of a text, or not at all: the text ends with a tag,
or what stands behind it holds nothing in front of its end. -/
def EndsMarkup (text rest : List Char) : Prop :=
  (∃ front c, text = front ++ [c] ∧ isAsciiBlank c = false) ∨
    ∀ c ∈ (rest.dropWhile isAsciiBlank).head?, isNull c = true

/-- A tag ends with a letter or a sign. -/
theorem exists_takeTag? {cs tag rest : List Char} (h : takeTag? cs = some (tag, rest)) :
    ∃ front c, tag = front ++ [c] ∧ isAsciiBlank c = false := by
  have hletter : ∀ c : Char, c.toLower = 'p' → isAsciiBlank c = false := by
    intro c hc
    by_contra hblank
    have hle : c.toNat ≤ 32 := by
      simp only [Bool.not_eq_false, isAsciiBlank, Bool.or_eq_true, Bool.and_eq_true,
        decide_eq_true_eq, beq_iff_eq] at hblank
      rcases hblank with hblank | rfl
      · omega
      · decide
    -- a blank is no capital letter
    have hall : ∀ n < 33, (Char.ofNat n).toLower = Char.ofNat n := by decide
    have hlower : c.toLower = c := by
      have := hall c.toNat (by omega)
      rwa [Char.ofNat_toNat] at this
    rw [hlower] at hc
    subst hc
    exact absurd hle (by decide)
  unfold takeTag? at h
  split at h
  · obtain ⟨rfl, rfl⟩ := by simpa using h
    exact ⟨['<', '?'], '=', rfl, by decide⟩
  · rename_i p h' p' cs _
    split at h
    · rename_i hword
      obtain ⟨rfl, rfl⟩ := by simpa using h
      simp only [Bool.and_eq_true, beq_iff_eq] at hword
      exact ⟨['<', '?', p, h'], p', rfl, hletter p' hword.2⟩
    · obtain ⟨rfl, rfl⟩ := by simpa using h
      exact ⟨['<'], '?', rfl, by decide⟩
  · obtain ⟨rfl, rfl⟩ := by simpa using h
    exact ⟨['<'], '?', rfl, by decide⟩
  · simp at h

theorem Island.exists_last_of_tag {i : Island} {cs tag rest : List Char}
    (hi : i.tag = String.ofList tag) (htag : takeTag? cs = some (tag, rest)) :
    ∃ front c, i.source.toList = front ++ [c] ∧ isAsciiBlank c = false := by
  obtain ⟨front, c, rfl, hc⟩ := exists_takeTag? htag
  refine ⟨(closingTag ++ i.gap ++ i.text ++ i.gapAfter).toList ++ front, c, ?_, hc⟩
  rw [Island.source, String.toList_append, hi, String.toList_ofList, List.append_assoc]

/-- **Behind an island code goes on right behind its tag, or not at all.** -/
theorem endsMarkup_takeIsland (cs : List Char) :
    EndsMarkup (takeIsland cs).1.source.toList (takeIsland cs).2 := by
  have hstops := stopsMarkup_takeMarkup (cs.dropWhile isAsciiBlank)
  have happend := takeMarkup_append (cs.dropWhile isAsciiBlank)
  simp only [takeIsland, drop_takeWhile]
  -- without a tag there is no code behind the blanks
  have hnone : ∀ r : List Char, takeTag? r = none → StopsMarkup r →
      ∀ c ∈ r.head?, isNull c = true := by
    intro r hr hstops
    exact hstops.resolve_left (by simp [hr])
  split
  · rename_i hempty
    have hempty : (takeMarkup (cs.dropWhile isAsciiBlank)).1 = [] := by simpa using hempty
    rw [hempty, List.nil_append] at happend
    rw [happend] at hstops ⊢
    split
    · rename_i tag rest htag
      exact .inl (Island.exists_last_of_tag rfl htag)
    · rename_i htag
      rw [List.dropWhile_idempotent] at hstops
      exact .inr (hnone _ htag hstops)
  · split
    · rename_i tag rest htag
      exact .inl (Island.exists_last_of_tag rfl htag)
    · rename_i htag
      exact .inr (hnone _ htag hstops)

/-! ### The finders -/

/-- What is known of a lexeme that is no token. -/
inductive Lexeme.Extra (l : Lexeme) : Prop where
  | comment {text : List Char} (find : l.find = .comment text) (shape : CommentText text)
  | island {i : Island} (find : l.find = .island i) (ends : EndsMarkup i.source.toList l.rest)

theorem findInCode?_isToken_or_extra {accepts : Accepts} {labels : List (List Char)}
    {gap cs : List Char} {l : Lexeme} (h : findInCode? accepts labels gap cs = some l) :
    l.IsToken ∨ l.Extra := by
  unfold findInCode? at h
  split at h
  · split at h
    · obtain rfl := Option.some.inj h
      exact .inl Lexeme.isToken_soleToken
    · simp at h
  · rename_i cs
    obtain rfl := Option.some.inj h
    exact .inr (.island rfl (endsMarkup_takeIsland cs))
  · have hcomments : ∀ a ∈ Alternative.all cs, a.terminals? = none →
        CommentText (cs.take a.length) :=
      fun a ha hnone =>
        Alternative.commentText_of_mem_comments (Alternative.mem_comments_of_mem_all ha hnone)
    rcases pickAlternative?_comment hcomments h with h | ⟨text, hfind, hshape⟩
    · exact .inl h
    · exact .inr (.comment hfind hshape)

theorem findFirst?_isToken {accepts : Accepts} {labels : List (List Char)} {cs : List Char}
    {l : Lexeme} (h : findFirst? accepts labels cs = some l) : l.IsToken := by
  unfold findFirst? at h
  split at h
  · rename_i frame behind _
    unfold findChunk? at h
    cases frame <;> simp only [Option.bind_eq_bind, Option.bind_eq_some_iff] at h
    all_goals obtain ⟨_, -, _, -, h⟩ := h
    all_goals split at h
    all_goals try simp at h
    all_goals subst h; exact Lexeme.isToken_soleToken
  split at h
  · unfold findRawLine? at h
    simp only [Option.bind_eq_bind, Option.bind_eq_some_iff] at h
    obtain ⟨_, -, _, -, h⟩ := h
    split at h
    · simp at h
    · obtain rfl := Option.some.inj h
      exact Lexeme.isToken_soleToken
  split at h
  · simp only [findEndLabel?] at h
    split at h
    · obtain rfl := Option.some.inj h
      exact Lexeme.isToken_soleToken
    · simp at h
  split at h
  · simp only [findLabel?] at h
    split at h
    · simp at h
    · obtain rfl := Option.some.inj h
      exact Lexeme.isToken_soleToken
  split at h
  · obtain rfl := Option.some.inj h
    exact Lexeme.isToken_soleToken
  · simp at h

theorem findPlain?_isToken {labels : List (List Char)} {cs : List Char} {l : Lexeme}
    (h : findPlain? labels cs = some l) : l.IsToken := by
  unfold findPlain? at h
  repeat' split at h
  all_goals first
    | (obtain rfl := Option.some.inj h; exact Lexeme.isToken_soleToken)
    | simp at h

theorem findMarkup?_isToken {accepts : Accepts} {labels : List (List Char)} {cs : List Char}
    {l : Lexeme} (h : findMarkup? accepts labels cs = some l) : l.IsToken := by
  simp only [findMarkup?] at h
  repeat' split at h
  all_goals first
    | (obtain rfl := Option.some.inj h; exact Lexeme.isToken_soleToken)
    | simp at h

theorem findEscape?_isToken {accepts : Accepts} {labels : List (List Char)} {gap cs : List Char}
    {l : Lexeme} (h : findEscape? accepts labels gap cs = some l) : l.IsToken := by
  unfold findEscape? at h
  repeat' split at h
  all_goals first
    | (obtain rfl := Option.some.inj h; exact Lexeme.isToken_soleToken)
    | simp at h

/-- **What is found is a token, a comment in its shape, or an island with code right behind it.** -/
theorem nextLexeme?_isToken_or_extra {accepts : Accepts} {labels : List (List Char)}
    {cs : List Char} {l : Lexeme} (h : nextLexeme? accepts labels cs = some l) :
    l.IsToken ∨ l.Extra := by
  rcases Option.or_eq_some_iff.1 h with h | ⟨-, h⟩
  · exact .inl (findFirst?_isToken h)
  unfold findNext? at h
  split at h
  · exact .inl (findPlain?_isToken h)
  split at h
  · exact .inl (findMarkup?_isToken h)
  rcases Option.or_eq_some_iff.1 h with h | ⟨-, h⟩
  · split at h
    · obtain ⟨_, -, rfl⟩ := Option.map_eq_some_iff.1 h
      exact .inl Lexeme.isToken_soleToken
    · simp at h
  rcases Option.or_eq_some_iff.1 h with h | ⟨-, h⟩
  · exact .inl (findEscape?_isToken h)
  · exact findInCode?_isToken_or_extra h

end DocBlocks
