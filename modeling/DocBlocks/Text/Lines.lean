/-
  Lines of a text.

  A line ends at a line feed, and a carriage return right before that line feed belongs to the
  ending. The last line needs no ending, and an ending at the very back opens no further line.
-/

namespace DocBlocks

/-- The lines of a text, without their endings. -/
def linesOf : List Char → List (List Char)
  | [] => []
  | '\r' :: '\n' :: cs => [] :: linesOf cs
  | '\n' :: cs => [] :: linesOf cs
  | c :: cs =>
    match linesOf cs with
    | [] => [[c]]
    | l :: ls => (c :: l) :: ls

/-- No line holds a line feed. -/
theorem not_mem_of_mem_linesOf {cs l : List Char} (h : l ∈ linesOf cs) : '\n' ∉ l := by
  fun_induction linesOf cs generalizing l with
  | case1 => simp at h
  | case2 cs ih =>
    rcases List.mem_cons.1 h with rfl | h
    · simp
    · exact ih h
  | case3 cs ih =>
    rcases List.mem_cons.1 h with rfl | h
    · simp
    · exact ih h
  | case4 c cs _ hc hl ih =>
    rcases List.mem_singleton.1 h with rfl
    simpa using fun h => hc h.symm
  | case5 c cs _ hc l' ls hl ih =>
    rcases List.mem_cons.1 h with rfl | h
    · have := ih (l := l') (by simp [hl])
      simp only [List.mem_cons, not_or]
      exact ⟨fun h => hc h.symm, this⟩
    · exact ih (by simp [hl, h])

end DocBlocks
