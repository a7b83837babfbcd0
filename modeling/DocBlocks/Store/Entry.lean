/-
  Files, links and directories.

  A file system is a tree of entries. A location names an entry by the names on the way to it from
  the top, without links, dots and slashes, so that two locations are the same entry only if they
  are equal.

  Names and the targets of links are Unicode texts. A disk may also hold names of bytes that are no
  text; entries with such names have no place in these trees, and nothing is said about them.
-/

namespace DocBlocks

/-- A file, a link or a directory. The entries of a directory are sorted by name. -/
inductive Entry where
  | file (mode : Nat) (content : ByteArray)
  | link (target : String)
  | directory (mode : Nat) (entries : List (String × Entry))

/-- The names on the way from the top to an entry. -/
abbrev Location := List String

namespace Entry

instance : Inhabited Entry := ⟨directory 0 []⟩

/-- The permissions of an entry. Links have none of their own. -/
def mode : Entry → Nat
  | file m _ => m
  | link _ => 0o777
  | directory m _ => m

/-- An entry with other permissions. -/
def withMode (m : Nat) : Entry → Entry
  | file _ content => file m content
  | link target => link target
  | directory _ es => directory m es

/-- Whether an entry is a file. -/
def isFile : Entry → Bool
  | file _ _ => true
  | _ => false

/-- Whether an entry is a directory. -/
def isDirectory : Entry → Bool
  | directory _ _ => true
  | _ => false

/-- The entries of a directory. -/
def entries : Entry → List (String × Entry)
  | directory _ es => es
  | _ => []

/-- The entry at a location below an entry. -/
def at? : Entry → Location → Option Entry
  | e, [] => some e
  | e, n :: ns => (e.entries.lookup n).bind fun c => c.at? ns

/-- Puts an entry at its place among others, instead of the one with the same name. -/
def insertEntry (name : String) (e : Entry) : List (String × Entry) → List (String × Entry)
  | [] => [(name, e)]
  | (n, c) :: es =>
    if name < n then (name, e) :: (n, c) :: es
    else if name = n then (name, e) :: es
    else (n, c) :: insertEntry name e es

/-- Leaves out the entries with a name. -/
def eraseEntry (name : String) (es : List (String × Entry)) : List (String × Entry) :=
  es.filter fun (n, _) => n != name

/-- Changes what a directory holds under the last name of a location. Without a directory at the
rest of the location nothing changes. -/
def changeAt (change : String → List (String × Entry) → List (String × Entry)) :
    Location → Entry → Entry
  | [n], directory m es => directory m (change n es)
  | n :: ns, directory m es =>
    match es.lookup n with
    | some c => directory m (insertEntry n (changeAt change ns c) es)
    | none => directory m es
  | _, e => e

/-- Puts an entry at a location. -/
def put (new : Entry) (l : Location) (root : Entry) : Entry :=
  if l.isEmpty then new else changeAt (fun n es => insertEntry n new es) l root

/-- Takes the entry at a location away. -/
def remove (l : Location) (root : Entry) : Entry :=
  changeAt eraseEntry l root

end Entry

end DocBlocks
