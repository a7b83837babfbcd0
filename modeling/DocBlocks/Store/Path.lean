/-
  Paths as written.

  A path is a text with slashes between its pieces. Empty pieces and dots say nothing, apart from a
  dot in front of a relative path. `parentPath?` and `extensionOf?` look at the text only; what a
  path leads to is the business of the file system.
-/

namespace DocBlocks

/-- The pieces between the slashes of a text. -/
def splitSlashes : List Char → List (List Char)
  | [] => [[]]
  | c :: cs =>
    if c = '/' then [] :: splitSlashes cs
    else match splitSlashes cs with
      | [] => [[c]]
      | p :: ps => (c :: p) :: ps

/-- The pieces between the slashes of a path. -/
def pathPieces (path : String) : List String :=
  (splitSlashes path.toList).map String.ofList

/-- Whether a path starts at the top of the file system. -/
def isAbsolute (path : String) : Bool :=
  path.toList.head? == some '/'

/-- Whether a piece leads nowhere else. -/
def staysPut (piece : String) : Bool :=
  piece == "" || piece == "."

/-- Drops the pieces at the end of a path that say nothing. The pieces are given last first. -/
def trimPieces : List String → List String
  | [] => []
  | p :: ps => if staysPut p then trimPieces ps else p :: ps

/-- As `trimPieces`, for a relative path, where a dot in front is kept. -/
def trimRelative : List String → List String
  | [] => []
  | [p] => if p == "" then [] else [p]
  | p :: q :: ps => if staysPut p then trimRelative (q :: ps) else p :: q :: ps

/-- The pieces of a path that say something at its end, last first. Those of an absolute path
stand behind its first slash. -/
def lastPieces (path : String) : List String :=
  if isAbsolute path then trimPieces (pathPieces path).tail.reverse
  else trimRelative (pathPieces path).reverse

/-- The path without its last piece. -/
def parentPath? (path : String) : Option String :=
  match lastPieces path with
  | [] => none
  | _ :: rest =>
    if isAbsolute path then some ("/" ++ "/".intercalate (trimPieces rest).reverse)
    else some ("/".intercalate (trimRelative rest).reverse)

/-- The directory that a path lies in. -/
def directoryOf (path : String) : String :=
  match parentPath? path with
  | some parent => if parent = "" then "." else parent
  | none => "."

/-- The name at the end of a path. -/
def fileName? (path : String) : Option String :=
  match lastPieces path with
  | [] => none
  | p :: _ => if p = "." ∨ p = ".." then none else some p

/-- The extension of a name: what stands behind its last dot, unless that dot is the first
character. -/
def extensionOfName? (name : String) : Option String :=
  let cs := name.toList.reverse
  let extension := cs.takeWhile (· != '.')
  match cs.drop extension.length with
  | [] => none
  | [_] => none
  | _ => some (String.ofList extension.reverse)

/-- The extension of the name at the end of a path. -/
def extensionOf? (path : String) : Option String :=
  (fileName? path).bind extensionOfName?

/-- A name below a directory. -/
def joinPath (dir name : String) : String :=
  if dir.toList.getLast? == some '/' then dir ++ name else dir ++ "/" ++ name

end DocBlocks
