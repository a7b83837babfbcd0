import DocBlocks.Source.Span

/-
  Slices of a text by byte offsets.
-/

namespace DocBlocks

/-- Splits a text behind its first bytes. A character that the cut would divide goes to the
front. -/
def splitBytes : Nat → List Char → List Char × List Char
  | 0, cs => ([], cs)
  | _ + 1, [] => ([], [])
  | n + 1, c :: cs =>
    let (front, back) := splitBytes (n + 1 - c.utf8Size) cs
    (c :: front, back)

/-- **Nothing is lost in a split.** -/
theorem splitBytes_append (n : Nat) (cs : List Char) :
    (splitBytes n cs).1 ++ (splitBytes n cs).2 = cs := by
  induction cs generalizing n with
  | nil => cases n <;> rfl
  | cons c cs ih =>
    cases n with
    | zero => rfl
    | succ n => simp [splitBytes, ih]

/-- **A split at the length of a first part gives this part.** -/
theorem splitBytes_byteLength (front back : List Char) :
    splitBytes (byteLength front) (front ++ back) = (front, back) := by
  induction front with
  | nil => simp [byteLength, splitBytes]
  | cons c cs ih =>
    obtain ⟨k, hk⟩ : ∃ k, c.utf8Size + byteLength cs = k + 1 :=
      ⟨c.utf8Size + byteLength cs - 1, by have := c.utf8Size_pos; omega⟩
    have h : k + 1 - c.utf8Size = byteLength cs := by omega
    simp [byteLength, hk, splitBytes, h, ih]

/-- The part of a line that stands at the end of a text. -/
def lastLine (cs : List Char) : List Char :=
  (cs.reverse.takeWhile (· != '\n')).reverse

end DocBlocks
