import DocBlocks.Controller.Describe
import DocBlocks.Proofs.Text.Lines
import DocBlocks.Proofs.Token.Spelling

/-!
# How the texts of members begin and end

A member of a class ends with ink, or else a closing tag is in sight behind it (`Ended`), and a
method begins with an attribute or a word besides (`Framed`). So the layout between two of them
belongs to neither: a method whose line begins with nothing but spaces and tabs does not begin in
the line of the member before it (`Ended.not_all_isIndent`), and its indentation stands behind that
member (`Ended.lastLine_suffix`).
-/

namespace DocBlocks

variable {before text between text' after : List Char}

/-- Whether a text ends with ink, or in front of a closing tag. -/
def Ended (text after : List Char) : Prop :=
  (∃ cs c, text = cs ++ [c] ∧ isIndent c = false ∧ c ≠ '\n') ∨ seesClosingTag after = true

/-- Whether a text begins with an attribute or a word and does not end in the middle of layout. -/
structure Framed (text after : List Char) : Prop where
  front : ∃ c cs, text = c :: cs ∧ (c = '#' ∨ isNameStart c = true)
  back : Ended text after

theorem isAsciiBlank_of_isIndent {c : Char} (h : isIndent c = true) : isAsciiBlank c = true := by
  simp only [isIndent, Bool.or_eq_true, beq_iff_eq] at h
  rcases h with rfl | rfl <;> decide

/-- If a line is an indentation, so is either half of it. -/
theorem all_isIndent_append (hbetween : '\n' ∉ between)
    (hline : (lastLine (text ++ between)).all isIndent = true) :
    (∀ c ∈ lastLine text, isIndent c = true) ∧ ∀ c ∈ between, isIndent c = true := by
  rw [lastLine_append_of_not_mem hbetween, List.all_append, Bool.and_eq_true, List.all_eq_true,
    List.all_eq_true] at hline
  exact hline

/-- **Behind ink a line is no mere indentation.** -/
theorem not_all_isIndent_of_ink {cs : List Char} {c : Char} (hc : isIndent c = false)
    (hne : c ≠ '\n') (hbetween : '\n' ∉ between) :
    ¬(lastLine (before ++ (cs ++ [c]) ++ between)).all isIndent = true := by
  intro hline
  have hmem : c ∈ lastLine (before ++ (cs ++ [c])) := by
    have hsingle : '\n' ∉ [c] := by simpa [eq_comm] using hne
    rw [← List.append_assoc, lastLine_append_of_not_mem hsingle]
    simp
  have hindent := (all_isIndent_append hbetween hline).1 c hmem
  simp [hc] at hindent

/-- **No indentation of a method begins behind a member** in its line. -/
theorem Ended.not_all_isIndent (h : Ended text (between ++ text' ++ after))
    (h' : Framed text' after) (hbetween : '\n' ∉ between) :
    ¬(lastLine (before ++ text ++ between)).all isIndent = true := by
  rcases h with ⟨cs, c, rfl, hc, hne⟩ | hclosing
  · exact not_all_isIndent_of_ink hc hne hbetween
  · -- a closing tag that is in sight behind blanks is no declaration
    intro hline
    obtain ⟨d, ds, rfl, hd⟩ := h'.front
    have hblank : ∀ c ∈ between, isAsciiBlank c = true :=
      fun c hc => isAsciiBlank_of_isIndent ((all_isIndent_append hbetween hline).2 c hc)
    rw [List.append_assoc, seesClosingTag_append hblank, List.cons_append,
      seesClosingTag_cons _ hd] at hclosing
    simp at hclosing

/-- **The indentation of a method stands behind the member in front of it.** -/
theorem Ended.lastLine_suffix (h : Ended text (between ++ text' ++ after)) (h' : Framed text' after)
    (hline : (lastLine (before ++ text ++ between)).all isIndent = true) :
    lastLine (before ++ text ++ between) <:+ between := by
  by_cases hmem : '\n' ∈ between
  · rw [lastLine_append_of_mem hmem]
    exact DocBlocks.lastLine_suffix between
  · exact absurd hline (h.not_all_isIndent h' hmem)

end DocBlocks
