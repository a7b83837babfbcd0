import DocBlocks.Store.Entry
import DocBlocks.Store.Path

/-
  What a path leads to.

  A path is walked piece by piece from the current directory, or from the top if it is absolute.
  Links on the way are followed, at most `linkLimit` of them; whether one at the end is followed is
  up to the caller. The last piece may name nothing yet, which is where new entries go.
-/

namespace DocBlocks

/-- The reasons why the file system refuses. -/
inductive IoFault where
  | notFound
  | busy
  | alreadyThere
  | notDirectory
  | isDirectory
  | tooManyLinks
  /-- The bytes of a file are no text. -/
  | notText
  /-- A reason given by somebody else. -/
  | stated (reason : String)
  deriving DecidableEq, Repr

/-- A refusal in words. -/
def IoFault.message : IoFault → String
  | notFound => "No such file or directory (os error 2)"
  | busy => "Device or resource busy (os error 16)"
  | alreadyThere => "File exists (os error 17)"
  | notDirectory => "Not a directory (os error 20)"
  | isDirectory => "Is a directory (os error 21)"
  | tooManyLinks => "Too many levels of symbolic links (os error 40)"
  | notText => "stream did not contain valid UTF-8"
  | stated reason => reason

/-- A file system with the current directory. -/
structure FileSystem where
  root : Entry
  here : Location

instance : Inhabited FileSystem := ⟨⟨default, []⟩⟩

/-- Where a path leads. -/
inductive Target where
  | there (location : Location)
  /-- A name that the directory does not hold. -/
  | vacant (dir : Location) (name : String)
  deriving DecidableEq, Repr

/-- The number of links that one path may lead through. -/
def linkLimit : Nat := 40

namespace FileSystem

/-- Walks pieces from a directory. `links` tells how many links may still be followed. -/
def walk (root : Entry) (followLast : Bool) (links : Nat) (dir : Location) :
    List String → Except IoFault Target
  | [] => .ok (.there dir)
  | p :: ps =>
    if staysPut p then walk root followLast links dir ps
    else if p = ".." then walk root followLast links dir.dropLast ps
    else match (root.at? dir).bind fun d => d.entries.lookup p with
      | none => if ps.isEmpty then .ok (.vacant dir p) else .error .notFound
      | some (.directory _ _) => walk root followLast links (dir ++ [p]) ps
      | some (.file _ _) =>
        if ps.isEmpty then .ok (.there (dir ++ [p])) else .error .notDirectory
      | some (.link target) =>
        if ps.isEmpty && !followLast then .ok (.there (dir ++ [p]))
        else match links with
          | 0 => .error .tooManyLinks
          | links + 1 =>
            walk root followLast links (if isAbsolute target then [] else dir)
              (pathPieces target ++ ps)
  termination_by ps => (links, ps.length)

/-- Whether a path ends in a slash. -/
def endsInSlash (path : String) : Bool := path.toList.getLast? == some '/'

/-- The pieces of a path without the slashes at its end. -/
def stepsOf (path : String) : List String :=
  ((pathPieces path).reverse.dropWhile (· == "")).reverse

/-- Where a path leads, a slash at its end left aside. -/
def targetOf (fs : FileSystem) (followLast : Bool) (path : String) : Except IoFault Target :=
  if path = "" then .error .notFound
  else
    let start := if isAbsolute path then [] else fs.here
    walk fs.root followLast linkLimit start (stepsOf path)

/-- The location that a path leads to, links followed. A slash at the end asks for a directory. -/
def locate (fs : FileSystem) (path : String) : Except IoFault Location :=
  let start := if isAbsolute path then [] else fs.here
  let steps := stepsOf path ++ if endsInSlash path then ["."] else []
  if path = "" then .error .notFound
  else match walk fs.root true linkLimit start steps with
    | .ok (.there l) => .ok l
    | .ok (.vacant _ _) => .error .notFound
    | .error e => .error e

/-- The entry that a path leads to, links followed. -/
def find (fs : FileSystem) (path : String) : Except IoFault Entry :=
  match fs.locate path with
  | .ok l => (fs.root.at? l).elim (.error .notFound) .ok
  | .error e => .error e

/-- The entry that a path leads to, which may be a link. -/
def findLink (fs : FileSystem) (path : String) : Except IoFault Entry :=
  if endsInSlash path then fs.find path
  else match fs.targetOf false path with
    | .ok (.there l) => (fs.root.at? l).elim (.error .notFound) .ok
    | .ok (.vacant _ _) => .error .notFound
    | .error e => .error e

/-! ### Looking -/

/-- Whether a path leads to something. -/
def holds (fs : FileSystem) (path : String) : Bool := (fs.find path).isOk

/-- Whether a path leads to a file. -/
def isFile (fs : FileSystem) (path : String) : Bool :=
  match fs.find path with
  | .ok e => e.isFile
  | .error _ => false

/-- Whether a path leads to a directory. -/
def isDirectory (fs : FileSystem) (path : String) : Bool :=
  match fs.find path with
  | .ok e => e.isDirectory
  | .error _ => false

/-- The text of a file. -/
def readText (fs : FileSystem) (path : String) : Except IoFault String :=
  match fs.find path with
  | .error e => .error e
  | .ok (.file _ content) => (String.fromUTF8? content).elim (.error .notText) .ok
  | .ok _ => .error .isDirectory

end FileSystem

end DocBlocks
