import DocBlocks.Token.Character

/-
  Markup around code.

  A source is markup until the first opening tag. Inside code a closing tag begins an island of
  markup, which lasts until the next opening tag or the end of the source.
-/

namespace DocBlocks

/-- A stretch of markup inside code: a closing tag, markup, and a tag that opens code again unless
the source ends. -/
structure Island where
  gap : String
  text : String
  gapAfter : String
  tag : String
  deriving DecidableEq, Repr

/-- The closing tag in front of an island. -/
def closingTag : String := "?>"

/-- The text of an island, its tags included. -/
def Island.source (i : Island) : String :=
  closingTag ++ i.gap ++ i.text ++ i.gapAfter ++ i.tag

/-- The tag that opens code at the front of a text: `<?`, `<?=` or `<?php` in any case. -/
def takeTag? : List Char → Option (List Char × List Char)
  | '<' :: '?' :: '=' :: cs => some (['<', '?', '='], cs)
  | '<' :: '?' :: p :: h :: p' :: cs =>
    if p.toLower == 'p' && h.toLower == 'h' && p'.toLower == 'p' then
      some (['<', '?', p, h, p'], cs)
    else some (['<', '?'], p :: h :: p' :: cs)
  | '<' :: '?' :: cs => some (['<', '?'], cs)
  | _ => none

/-- Takes markup. Blanks behind an angle bracket belong to it only if more markup follows. -/
def takeMarkup : List Char → List Char × List Char
  | [] => ([], [])
  | '<' :: cs =>
    if cs.head? == some '?' then ([], '<' :: cs)
    else
      let (t, rest) := takeMarkup cs
      if t.all isAsciiBlank then (['<'], cs) else ('<' :: t, rest)
  | c :: cs =>
    if isNull c then ([], c :: cs)
    else
      let (t, rest) := takeMarkup cs
      (c :: t, rest)

/-- The island behind a closing tag, and the rest. -/
def takeIsland (cs : List Char) : Island × List Char :=
  let gap := cs.takeWhile isAsciiBlank
  let (text, rest) := takeMarkup (cs.drop gap.length)
  if text.isEmpty then
    match takeTag? rest with
    | some (tag, rest) => (⟨String.ofList gap, "", "", String.ofList tag⟩, rest)
    | none => (⟨"", "", "", ""⟩, cs)
  else
    let gap' := rest.takeWhile isAsciiBlank
    match takeTag? (rest.drop gap'.length) with
    | some (tag, rest') =>
      (⟨String.ofList gap, String.ofList text, String.ofList gap', String.ofList tag⟩, rest')
    | none => (⟨String.ofList gap, String.ofList text, "", ""⟩, rest)

/-- Whether blanks and line comments are all that comes before a closing tag. -/
def seesClosingTag : List Char → Bool
  | [] => false
  | c :: cs =>
    if isAsciiBlank c then seesClosingTag cs
    else if c == '?' then cs.head? == some '>'
    else if c == '/' && cs.head? == some '/' then
      seesClosingTag (cs.dropWhile fun c => !(c == '\n' || isNull c))
    else false
  termination_by cs => cs.length
  decreasing_by
    · simp
    · have := (List.dropWhile_sublist (l := cs) fun c => !(c == '\n' || isNull c)).length_le
      simp only [List.length_cons]
      omega

end DocBlocks
