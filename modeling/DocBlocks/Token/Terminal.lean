/-
  Terminals: what the rules of the grammar see of a token.

  A word can stand for several terminals. `static` is a keyword where a rule asks for the keyword
  and a name everywhere else, so a word has a list of terminals, the more special ones first, and
  the rule at hand picks the first one it can use.
-/

namespace DocBlocks

/-- The frames a template can stand in. -/
inductive Frame where
  | doubleQuotes
  | backquotes
  | heredoc
  deriving DecidableEq, Hashable, Repr

/-- The terminals of the grammar. -/
inductive Terminal where
  /-- The end of the source. -/
  | finish
  /-- Any word used as a name. -/
  | name
  /-- A word used as a name that is not reserved. -/
  | given
  /-- The end of a statement that a closing tag brings about; it has no text. -/
  | pause
  /-- Punctuation, an operator or a quote. -/
  | mark (text : String)
  /-- A mark with nothing between it and the token before it. -/
  | tight (text : String)
  /-- A word in upper or lower case. -/
  | keyword (word : String)
  /-- A word in exactly this case. -/
  | word (word : String)
  /-- One of the two words for truth values. -/
  | boolean
  /-- The two words that delegate a generator. -/
  | yieldFrom
  | integer
  | float
  /-- The quote that opens a text, with the letter of a byte string in front of it. -/
  | byteQuote (quote : Char)
  /-- Characters between single quotes that stand for themselves. -/
  | plainChunk
  /-- An escape between single quotes. -/
  | plainEscape
  /-- Characters of a template that stand for themselves, right behind a variable or not. -/
  | chunk (frame : Frame) (behindVariable : Bool)
  /-- An escape of a template. -/
  | escape
  /-- A backslash and the letter `u` that open no escape. -/
  | bareEscape
  /-- The label that opens a heredoc. -/
  | label
  /-- The label that closes a heredoc. -/
  | endLabel
  /-- A line of a heredoc without interpolation. -/
  | rawLine
  /-- A line break that belongs to the frame of a heredoc. -/
  | newline
  /-- A tag that opens code. -/
  | tag
  /-- Markup in front of the first tag. -/
  | markup
  deriving DecidableEq, Repr

instance : Hashable Terminal where
  hash t :=
    let sort := hash t.ctorIdx
    match t with
    | .mark text | .tight text | .keyword text | .word text => mixHash sort (hash text)
    | .byteQuote quote => mixHash sort (hash quote.val)
    | .chunk frame behind => mixHash (mixHash sort (hash frame)) (hash behind)
    | _ => sort

/-- How a token or a phrase shows in a tree. -/
inductive Guise where
  /-- Not at all. -/
  | hidden
  /-- As a bare token. -/
  | bare (kind : String)
  /-- As a node with a name. -/
  | named (kind : String)
  deriving DecidableEq, Hashable, Repr

namespace Terminal

/-- How a terminal shows in a tree unless a rule says otherwise. -/
def guise : Terminal → Guise
  | finish => .hidden
  | name => .named "name"
  | given => .named "name"
  | pause => .hidden
  | mark t => .bare t
  | tight t => .bare t
  | keyword w => .bare w
  | word w => .bare w
  | boolean => .hidden
  | yieldFrom => .bare "yield from"
  | integer => .named "integer"
  | float => .named "float"
  | byteQuote _ => .hidden
  | plainChunk => .named "string_content"
  | plainEscape => .named "escape_sequence"
  | chunk _ _ => .named "string_content"
  | escape => .named "escape_sequence"
  | bareEscape => .named "string_content"
  | label => .named "heredoc_start"
  | endLabel => .named "heredoc_end"
  | rawLine => .named "nowdoc_string"
  | newline => .hidden
  | tag => .named "php_tag"
  | markup => .named "text"

/-- What a terminal is called when it is missing. -/
def title (t : Terminal) : String :=
  match t with
  | finish => "end"
  | pause => "_automatic_semicolon"
  | newline => "_new_line"
  | boolean => "boolean"
  | t => match t.guise with
    | .hidden => ""
    | .bare k => k
    | .named k => k

/-- Whether telling a terminal takes knowledge of what stands around it. Such terminals come last
when a missing one is looked for. -/
def needsContext : Terminal → Bool
  | pause | chunk _ _ | label | endLabel | rawLine => true
  | _ => false

/-- Whether a terminal is a tight mark. -/
def isTight : Terminal → Bool
  | tight _ => true
  | _ => false

/-- Whether a terminal is a name. -/
def isName : Terminal → Bool
  | name | given => true
  | _ => false

end Terminal

end DocBlocks
