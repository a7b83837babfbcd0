import DocBlocks.Token.Character
import DocBlocks.Token.Terminal

/-
  Words.

  Some words are reserved: where a rule asks for the name of something new, like a class, they are
  no names. Everywhere else a word that no rule takes for a keyword is a name.
-/

namespace DocBlocks

/-- The words that are reserved in upper and lower case. -/
def reservedKeywords : List String :=
  ["abstract", "and", "array", "as", "break", "callable", "case", "catch", "class", "clone",
   "const", "continue", "declare", "default", "do", "echo", "else", "elseif", "enddeclare",
   "endfor", "endforeach", "endif", "endswitch", "endwhile", "exit", "extends", "false", "final",
   "finally", "fn", "for", "foreach", "function", "global", "goto", "if", "implements", "include",
   "include_once", "instanceof", "insteadof", "interface", "list", "match", "namespace", "never",
   "new", "null", "or", "print", "private", "protected", "public", "readonly", "require",
   "require_once", "return", "static", "switch", "throw", "trait", "true", "try", "use",
   "var", "void", "while", "xor", "yield"]

/-- The words that are reserved in lower case only. -/
def reservedTypes : List String :=
  ["bool", "float", "int", "iterable", "mixed", "object", "string", "unset"]

/-- A letter without its case. The long s and the sign for kelvin are letters like any other. -/
def foldCase (c : Char) : Char :=
  if c == '\u017F' then 's' else if c == '\u212A' then 'k' else c.toLower

/-- Whether a word is reserved. -/
def isReserved (text : String) : Bool :=
  reservedTypes.contains text || reservedKeywords.contains (text.map foldCase)

/-- The terminals that a word can stand for, the more special ones first. -/
def wordTerminals (text : String) : List Terminal :=
  let lower := text.map foldCase
  let truth := if lower == "true" || lower == "false" then [Terminal.boolean] else []
  let given := if isReserved text then [] else [Terminal.given]
  [.word text, .keyword lower] ++ truth ++ [.name] ++ given

/-- Takes the second half of `yield from`, blanks included. -/
def takeFrom? (cs : List Char) : Option (List Char × List Char) :=
  let blanks := cs.takeWhile isAsciiBlank
  let rest := cs.drop blanks.length
  let word := rest.take 4
  if !blanks.isEmpty && word.map Char.toLower == "from".toList then
    some (blanks ++ word, rest.drop 4)
  else none

end DocBlocks
