import DocBlocks.Token.Character

/-
  Comments.

  A line comment ends before a line break or a closing tag. A question mark right before a line
  break takes the break into the comment; a question mark before any other character but `>` is an
  ordinary pair of characters. A block comment ends at its first terminator.
-/

namespace DocBlocks

/-- The rest of a line comment. -/
def takeLineComment : List Char → List Char × List Char
  | [] => ([], [])
  | '?' :: '\n' :: cs => (['?', '\n'], cs)
  | '?' :: '\r' :: '\n' :: cs => (['?', '\r', '\n'], cs)
  | '?' :: c :: cs =>
    if c == '>' || c == '\r' || isNull c then ([], '?' :: c :: cs)
    else
      let (t, rest) := takeLineComment cs
      ('?' :: c :: t, rest)
  | c :: cs =>
    if c == '?' || c == '\r' || c == '\n' || isNull c then ([], c :: cs)
    else
      let (t, rest) := takeLineComment cs
      (c :: t, rest)

/-- The rest of a block comment up to its terminator, if it has one. -/
def takeBlockComment? : List Char → Option (List Char × List Char)
  | [] => none
  | '*' :: '/' :: cs => some (['*', '/'], cs)
  | c :: cs =>
    if isNull c then none
    else (takeBlockComment? cs).map fun (t, rest) => (c :: t, rest)

/-- **Nothing of a block comment is lost.** -/
theorem takeBlockComment?_append {cs t rest : List Char}
    (h : takeBlockComment? cs = some (t, rest)) : t ++ rest = cs := by
  fun_induction takeBlockComment? cs generalizing t rest with
  | case1 => simp at h
  | case2 cs =>
    obtain ⟨rfl, rfl⟩ := by simpa using h
    rfl
  | case3 => simp at h
  | case4 c cs _ _ ih =>
    obtain ⟨⟨u, r⟩, hu, he⟩ := Option.map_eq_some_iff.1 h
    obtain ⟨rfl, rfl⟩ := by simpa using he
    simp [ih hu]

/-- Whether a number sign before these characters opens a comment that runs to the end of the
line; otherwise it is a comment by itself, or opens an attribute. -/
def opensNumberComment : List Char → Bool
  | c :: _ => !(c == '?' || c == '[' || c == '\r' || c == '\n' || isNull c)
  | [] => false

end DocBlocks
