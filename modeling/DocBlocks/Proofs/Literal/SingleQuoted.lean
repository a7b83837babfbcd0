import DocBlocks.Proofs.Literal.Quoted

/-!
# Single-quoted literals

`decodeSingleQuoted_pairs`: every text is what is read back from it once each backslash and each
quote in it has a backslash in front, and of the inside of any literal exactly the pairs of a
backslash with a backslash or a quote are replaced by their second character. Which pairs these are
depends on where reading begins: in a run of backslashes the first belongs to the second, the third
to the fourth, and so on, and only what is left of the run can belong to the quote behind it.

So the inside is taken apart into pieces, pairs and characters that are copied. What makes them the
pieces of a reader that goes from left to right is a condition on neighbours alone (`LeftToRight`),
and there is one way to take a text apart like that (`readPieces_flatMap_chars`).
-/

namespace DocBlocks

/-! ### Pieces -/

/-- Whether a backslash protects a character between single quotes. -/
def IsProtected (c : Char) : Prop := c = '\\' ∨ c = '\''

instance (c : Char) : Decidable (IsProtected c) := inferInstanceAs (Decidable (_ ∨ _))

/-- A piece of the inside of a single-quoted literal: a backslash with the character that it
protects, or a character that is copied. -/
inductive SinglePiece where
  | pair (c : Char) (isProtected : IsProtected c)
  | copy (c : Char)

namespace SinglePiece

/-- How a piece is written. -/
def chars : SinglePiece → List Char
  | pair c _ => ['\\', c]
  | copy c => [c]

/-- The character that a piece stands for. -/
def char : SinglePiece → Char
  | pair c _ => c
  | copy c => c

/-- The piece that a character is written by: a pair if a backslash protects it. -/
def ofChar (c : Char) : SinglePiece :=
  if h : IsProtected c then pair c h else copy c

theorem char_ofChar (c : Char) : (ofChar c).char = c := by
  rw [ofChar]
  split <;> rfl

theorem ofChar_ne_copy (c : Char) : ofChar c ≠ copy '\\' := by
  rw [ofChar]
  split
  · exact nofun
  · next h =>
    rintro ⟨⟩
    exact h (.inl rfl)

end SinglePiece

/-- Whether pieces are read from left to right: no backslash is copied in front of a character that
it protects. -/
def LeftToRight (ps : List SinglePiece) : Prop :=
  ps.IsChain fun p q => p = .copy '\\' → ∀ c ∈ q.chars.head?, ¬ IsProtected c

/-- The pieces of a text, read from left to right. -/
def readPieces : List Char → List SinglePiece
  | '\\' :: '\\' :: cs => .pair '\\' (.inl rfl) :: readPieces cs
  | '\\' :: '\'' :: cs => .pair '\'' (.inr rfl) :: readPieces cs
  | c :: cs => .copy c :: readPieces cs
  | [] => []

/-- A piece stands rightly in front of others unless it is a backslash that would protect the first
character of their text. -/
theorem leftToRight_cons {p : SinglePiece} {ps : List SinglePiece} :
    LeftToRight (p :: ps) ↔
      (p = .copy '\\' → ∀ c ∈ (ps.flatMap SinglePiece.chars).head?, ¬ IsProtected c) ∧
        LeftToRight ps := by
  rw [LeftToRight, List.isChain_cons]
  cases ps with
  | nil => simp [LeftToRight]
  | cons q ps =>
    have hhead : ((q :: ps).flatMap SinglePiece.chars).head? = q.chars.head? := by
      cases q <;> rfl
    rw [hhead]
    simp [LeftToRight]

/-- Pieces of characters are read from left to right, since no backslash is copied. -/
theorem leftToRight_map_ofChar (cs : List Char) : LeftToRight (cs.map SinglePiece.ofChar) := by
  induction cs with
  | nil => exact .nil
  | cons c cs ih =>
    rw [List.map_cons, leftToRight_cons]
    exact ⟨fun h => absurd h (SinglePiece.ofChar_ne_copy c), ih⟩

/-! ### Reading -/

theorem readPieces_pair {c : Char} (h : IsProtected c) (cs : List Char) :
    readPieces ('\\' :: c :: cs) = .pair c h :: readPieces cs := by
  rcases h with rfl | rfl <;> rw [readPieces]

/-- A character is copied unless it is a backslash in front of one that it protects. -/
theorem readPieces_copy {c : Char} {cs : List Char}
    (h : c = '\\' → ∀ d ∈ cs.head?, ¬ IsProtected d) :
    readPieces (c :: cs) = .copy c :: readPieces cs := by
  rw [readPieces]
  · rintro ds rfl rfl
    exact h rfl '\\' rfl (.inl rfl)
  · rintro ds rfl rfl
    exact h rfl '\'' rfl (.inr rfl)

/-- **The pieces that are read make up the text.** -/
theorem flatMap_chars_readPieces (cs : List Char) :
    (readPieces cs).flatMap SinglePiece.chars = cs := by
  fun_induction readPieces cs with
  | case1 cs ih => rw [List.flatMap_cons, ih]; rfl
  | case2 cs ih => rw [List.flatMap_cons, ih]; rfl
  | case3 c cs hbackslash hquote ih => rw [List.flatMap_cons, ih]; rfl
  | case4 => rfl

theorem leftToRight_readPieces (cs : List Char) : LeftToRight (readPieces cs) := by
  fun_induction readPieces cs with
  | case1 cs ih => exact leftToRight_cons.2 ⟨nofun, ih⟩
  | case2 cs ih => exact leftToRight_cons.2 ⟨nofun, ih⟩
  | case3 c cs hbackslash hquote ih =>
    refine leftToRight_cons.2 ⟨?_, ih⟩
    rintro ⟨⟩ d hd
    rw [flatMap_chars_readPieces] at hd
    obtain ⟨ds, rfl⟩ := List.head?_eq_some_iff.1 hd
    -- such a backslash would have been read as a pair
    rintro (rfl | rfl)
    · exact hbackslash ds rfl rfl
    · exact hquote ds rfl rfl
  | case4 => exact .nil

/-- **There is one way to read a text from left to right.** -/
theorem readPieces_flatMap_chars {ps : List SinglePiece} (h : LeftToRight ps) :
    readPieces (ps.flatMap SinglePiece.chars) = ps := by
  induction ps with
  | nil => rfl
  | cons p ps ih =>
    obtain ⟨hcopy, hps⟩ := leftToRight_cons.1 h
    rw [List.flatMap_cons]
    cases p with
    | pair c hc =>
      show readPieces ('\\' :: c :: ps.flatMap SinglePiece.chars) = _
      rw [readPieces_pair hc, ih hps]
    | copy c =>
      show readPieces (c :: ps.flatMap SinglePiece.chars) = _
      have hnone : c = '\\' → ∀ d ∈ (ps.flatMap SinglePiece.chars).head?, ¬ IsProtected d := by
        rintro rfl
        exact hcopy rfl
      rw [readPieces_copy hnone, ih hps]

/-- **A text stands for the characters of its pieces.** -/
theorem unescapeSingle_eq_map_char (cs : List Char) :
    unescapeSingle cs = (readPieces cs).map SinglePiece.char := by
  fun_induction readPieces cs with
  | case1 cs ih => rw [unescapeSingle, ih]; rfl
  | case2 cs ih => rw [unescapeSingle, ih]; rfl
  | case3 c cs hbackslash hquote ih =>
    rw [unescapeSingle, ih]
    · rfl
    · exact hbackslash
    · exact hquote
  | case4 => rw [unescapeSingle]; rfl

theorem unescapeSingle_flatMap_chars {ps : List SinglePiece} (h : LeftToRight ps) :
    unescapeSingle (ps.flatMap SinglePiece.chars) = ps.map SinglePiece.char := by
  rw [unescapeSingle_eq_map_char, readPieces_flatMap_chars h]

/-! ### Literals -/

/-- A text with a backslash put in front of every backslash and every quote. -/
def escapeSingle (cs : List Char) : List Char :=
  cs.flatMap fun c => if IsProtected c then ['\\', c] else [c]

theorem escapeSingle_eq_flatMap_chars (cs : List Char) :
    escapeSingle cs = (cs.map SinglePiece.ofChar).flatMap SinglePiece.chars := by
  rw [escapeSingle, List.flatMap_map]
  congr 1
  funext c
  rw [SinglePiece.ofChar]
  split <;> rfl

/-- **Reading undoes escaping.** -/
theorem unescapeSingle_escapeSingle (cs : List Char) : unescapeSingle (escapeSingle cs) = cs := by
  have hchars : (cs.map SinglePiece.ofChar).map SinglePiece.char = cs := by
    rw [List.map_map]
    exact List.map_id'' SinglePiece.char_ofChar cs
  rw [escapeSingle_eq_flatMap_chars, unescapeSingle_flatMap_chars (leftToRight_map_ofChar cs), hchars]

theorem decodeSingleQuoted_quotedLiteral (mark : ByteMark) (inside : List Char) :
    decodeSingleQuoted (quotedLiteral mark '\'' inside) = String.ofList (unescapeSingle inside) := by
  rw [decodeSingleQuoted, unquote_quotedLiteral mark (by decide) (by decide)]

/-- **Single-quoted literals are read pair by pair.** A text with a backslash in front of each of
its backslashes and quotes is read back, and what any inside of a literal stands for is what its
pieces stand for, taken from left to right in the one way there is: pairs their second character,
and all other characters themselves. -/
theorem decodeSingleQuoted_pairs (mark : ByteMark) :
    (∀ s : String, decodeSingleQuoted (quotedLiteral mark '\'' (escapeSingle s.toList)) = s) ∧
      ∀ (inside : List Char) (s : String),
        decodeSingleQuoted (quotedLiteral mark '\'' inside) = s ↔
          ∃! ps : List SinglePiece, LeftToRight ps ∧ ps.flatMap SinglePiece.chars = inside ∧
            ps.map SinglePiece.char = s.toList := by
  refine ⟨fun s => ?_, fun inside s => ?_⟩
  · rw [decodeSingleQuoted_quotedLiteral, unescapeSingle_escapeSingle, String.ofList_toList]
  · rw [decodeSingleQuoted_quotedLiteral]
    constructor
    · rintro rfl
      refine ⟨readPieces inside, ⟨leftToRight_readPieces inside, flatMap_chars_readPieces inside, ?_⟩,
        ?_⟩
      · rw [String.toList_ofList, unescapeSingle_eq_map_char]
      · rintro ps ⟨hps, rfl, -⟩
        exact (readPieces_flatMap_chars hps).symm
    · rintro ⟨ps, ⟨hps, rfl, hchars⟩, -⟩
      rw [unescapeSingle_flatMap_chars hps, hchars, String.ofList_toList]

/-- Of three backslashes the first two are a pair. The third makes one with a quote behind it, and
stays in front of a letter. -/
example : decodeSingleQuoted "'\\\\\\''" = "\\'" ∧ decodeSingleQuoted "b'\\\\\\a'" = "\\\\a" := by
  decide +kernel

end DocBlocks
