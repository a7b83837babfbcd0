import DocBlocks.Proofs.Annotation.Block
import DocBlocks.Token.Comment

/-!
# Where blocks end

`terminator_renderBlock`: a block opens and closes as it should, and the terminator at its end is
the first one behind the two characters that open a comment, exactly if the text does not close
early. Whoever reads a source takes such a block for one comment, whatever stands behind it.

That a text is one comment is said in two ways that have to be brought together: by the places where
a terminator stands (`isBlockComment_iff`), and by what the reader of comments takes
(`IsBlockComment.takeBlockComment?_eq`).
-/

namespace DocBlocks

/-- Whether a terminator of comments stands at a place of a text. -/
def TerminatorAt (cs : List Char) (i : Nat) : Prop := ['*', '/'] <+: cs.drop i

/-- **Only the last terminator of a comment stands behind its opening.** -/
theorem isBlockComment_iff {text : String} :
    IsBlockComment text ↔
      (∃ body, text.toList = '/' :: '*' :: body ++ ['*', '/']) ∧
        ∀ i, 2 ≤ i → TerminatorAt text.toList i → i + 2 = text.toList.length := by
  constructor
  · rintro ⟨body, htext, hend⟩
    refine ⟨⟨body, htext⟩, fun i hi ⟨rest, hrest⟩ => ?_⟩
    obtain ⟨j, rfl⟩ := Nat.exists_eq_add_of_le hi
    obtain ⟨front, hsplit⟩ : ∃ front, body ++ ['*', '/'] = front ++ (['*', '/'] ++ rest) := by
      refine ⟨(body ++ ['*', '/']).take j, ?_⟩
      rw [hrest, htext, ← List.drop_drop]
      exact (List.take_append_drop j _).symm
    -- a terminator with something behind it would be an end of its own
    obtain rfl | ⟨rest, c, rfl⟩ := List.eq_nil_or_concat rest
    · have hlen := congrArg List.length hrest
      simp only [List.append_nil, List.length_drop, List.length_cons, List.length_nil] at hlen
      omega
    · refine absurd ⟨front, rest, ?_⟩ hend
      have hlast : (body ++ ['*']) ++ ['/'] = (front ++ ['*', '/'] ++ rest) ++ [c] := by
        rw [← List.append_cons, hsplit]
        simp
      exact (List.append_inj_left' hlast rfl).symm
  · rintro ⟨⟨body, htext⟩, honly⟩
    refine ⟨body, htext, ?_⟩
    rintro ⟨front, back, hinfix⟩
    have hwhole : text.toList.drop (2 + front.length) = ['*', '/'] ++ (back ++ ['/']) := by
      have h : body ++ ['*', '/'] = front ++ (['*', '/'] ++ (back ++ ['/'])) := by
        rw [List.append_cons, ← hinfix]
        simp
      rw [htext, ← List.drop_drop]
      show (body ++ ['*', '/']).drop front.length = _
      rw [h, List.drop_left]
    have hlen := congrArg List.length hwhole
    have hi := honly (2 + front.length) (by omega) ⟨_, hwhole.symm⟩
    simp only [List.length_drop, List.length_append, List.length_cons, List.length_nil] at hlen
    omega

/-- A comment is taken as a whole, and nothing of what stands behind it. -/
theorem takeBlockComment?_append_closing {body : List Char} (hnull : body.any isNull = false)
    (hend : ¬ ['*', '/'] <:+: body ++ ['*']) (rest : List Char) :
    takeBlockComment? (body ++ '*' :: '/' :: rest) = some (body ++ ['*', '/'], rest) := by
  induction body with
  | nil => rfl
  | cons c body ih =>
    rw [List.any_cons, Bool.or_eq_false_iff] at hnull
    have ih := ih hnull.2 fun h => hend (h.trans (List.suffix_cons c _).isInfix)
    rw [List.cons_append, takeBlockComment?, ih, hnull.1]
    · rfl
    · rintro cs rfl hcs
      -- a slash behind an asterisk can only be the first character of the rest of the body
      cases body with
      | nil => simp at hcs
      | cons d body =>
        obtain ⟨rfl, -⟩ := List.cons.inj hcs
        exact hend ⟨[], body ++ ['*'], rfl⟩

/-- **One comment is one comment to the reader of comments**, if it holds no null character. -/
theorem IsBlockComment.takeBlockComment?_eq {text : String} (h : IsBlockComment text)
    (hnull : text.toList.any isNull = false) (rest : List Char) :
    takeBlockComment? (text.toList.drop 2 ++ rest) = some (text.toList.drop 2, rest) := by
  obtain ⟨body, htext, hend⟩ := h
  have hbody : body.any isNull = false := by
    rw [htext] at hnull
    simp only [List.cons_append, List.any_cons, List.any_append, Bool.or_eq_false_iff] at hnull
    exact hnull.2.2.1
  have htake := takeBlockComment?_append_closing hbody hend rest
  rw [htext]
  simpa using htake

/-- **A block ends where it should exactly if its text does not close early.** Every block has the
opening in front and the closing behind; the first terminator behind the two characters that open a
comment is the last one, exactly if the text does not close early, and then the block is read as one
comment. -/
theorem terminator_renderBlock {doc indent newline : String} (hi : IsIndentation indent.toList)
    (hn : IsNewline newline) :
    blockOpening <+: (renderBlock doc indent newline).toList ∧
      blockClosing <:+ (renderBlock doc indent newline).toList ∧
      ((∀ i, 2 ≤ i → TerminatorAt (renderBlock doc indent newline).toList i →
          i + 2 = (renderBlock doc indent newline).toList.length) ↔ ¬ ClosesEarly doc) ∧
      (¬ ClosesEarly doc → (renderBlock doc indent newline).toList.any isNull = false →
        ∀ rest, takeBlockComment? ((renderBlock doc indent newline).toList.drop 2 ++ rest) =
          some ((renderBlock doc indent newline).toList.drop 2, rest)) := by
  obtain ⟨inside, hinside⟩ := exists_toList_renderBlock hi doc newline
  have hopened : ∃ body, (renderBlock doc indent newline).toList =
      '/' :: '*' :: body ++ ['*', '/'] := ⟨'*' :: inside, hinside⟩
  have hcomment : IsBlockComment (renderBlock doc indent newline) ↔ ¬ ClosesEarly doc :=
    isBlockComment_renderBlock_iff hi hn
  refine ⟨⟨inside ++ blockClosing, by rw [hinside, List.append_assoc]⟩,
    ⟨blockOpening ++ inside, hinside.symm⟩, ?_, fun h => (hcomment.2 h).takeBlockComment?_eq⟩
  rw [← hcomment, isBlockComment_iff, and_iff_right hopened]

/-- A text with terminators of its own, on a line that is indented by a tab. -/
theorem terminator_renderBlock_sample :
    IsIndentation "\t".toList ∧ IsNewline "\r\n" ∧ ¬ ClosesEarly "/** a */ b\n * c */" ∧
      ∀ i, 2 ≤ i → TerminatorAt (renderBlock "/** a */ b\n * c */" "\t" "\r\n").toList i →
        i + 2 = (renderBlock "/** a */ b\n * c */" "\t" "\r\n").toList.length := by
  have hi : IsIndentation "\t".toList := by simp [IsIndentation]
  have hn : IsNewline "\r\n" := .inr rfl
  have hopen : ¬ ClosesEarly "/** a */ b\n * c */" := by decide
  exact ⟨hi, hn, hopen, (terminator_renderBlock hi hn).2.2.1.2 hopen⟩

end DocBlocks
