import DocBlocks.Token.Find

/-
  Places in a source that is being read.
-/

namespace DocBlocks

/-- A place in a source, by the bytes and the line feeds in front of it. -/
structure Spot where
  byte : Nat
  row : Nat
  deriving DecidableEq, Repr

namespace Spot

/-- The front of a source. -/
def front : Spot := ⟨0, 0⟩

/-- The place behind a text. -/
def behind (s : Spot) (text : List Char) : Spot :=
  text.foldl (fun s c => ⟨s.byte + c.utf8Size, if c == '\n' then s.row + 1 else s.row⟩) s

end Spot

/-- A place with what stands behind it, and the labels of the heredocs that are open there,
innermost first. -/
structure Site where
  spot : Spot
  rest : List Char
  labels : List (List Char)
  deriving DecidableEq, Repr

namespace Site

/-- The front of a source. -/
def front (source : String) : Site := ⟨.front, source.toList, []⟩

/-- The place behind the next characters. -/
def behind (s : Site) (n : Nat) : Site :=
  ⟨s.spot.behind (s.rest.take n), s.rest.drop n, s.labels⟩

/-- The place in front of what a lexeme found. -/
def beforeFind (s : Site) (l : Lexeme) : Site := s.behind l.gap.length

/-- The place behind a lexeme. -/
def behindLexeme (s : Site) (l : Lexeme) : Site :=
  let n := l.gap.length + l.find.length
  ⟨s.spot.behind (s.rest.take n), l.rest, l.labels⟩

end Site

end DocBlocks
