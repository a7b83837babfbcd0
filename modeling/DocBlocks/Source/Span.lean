/-
  Positions in a source text.

  A span is a half-open range of byte offsets together with the one-based lines it starts and ends
  on. `LineIndex` answers which line an offset lies on: it searches the line starts, which ascend,
  for the last one that is not behind the offset.
-/

namespace DocBlocks

/-- A range of a source text: bytes `start` up to `stop`, on lines `startLine` to `endLine`. -/
structure Span where
  start : Nat
  stop : Nat
  startLine : Nat
  endLine : Nat
  deriving DecidableEq, Repr

namespace Span

/-- The span of a node that belongs to no source. -/
def nowhere : Span := ⟨0, 0, 0, 0⟩

instance : Inhabited Span := ⟨nowhere⟩

/-- The empty span at the front of another one. -/
def before (s : Span) : Span := ⟨s.start, s.start, s.startLine, s.startLine⟩

/-- The number of bytes covered. -/
def length (s : Span) : Nat := s.stop - s.start

/-- Whether no byte is covered. -/
def isEmpty (s : Span) : Bool := s.start == s.stop

theorem isEmpty_before (s : Span) : s.before.isEmpty = true := by
  simp [before, isEmpty]

end Span

/-- The number of bytes that a list of characters takes in UTF-8. -/
def byteLength : List Char → Nat
  | [] => 0
  | c :: cs => c.utf8Size + byteLength cs

theorem byteLength_append (xs ys : List Char) :
    byteLength (xs ++ ys) = byteLength xs + byteLength ys := by
  induction xs with
  | nil => simp [byteLength]
  | cons c cs ih => simp [byteLength, ih, Nat.add_assoc]

/-! ### Searching -/

/-- What a search for a number among ascending ones finds: its position, or else the position that
it would have to be put in at. -/
inductive Sought where
  | found (position : Nat)
  | missing (position : Nat)
  deriving DecidableEq, Repr

/-- Searches ascending numbers between two positions by halving the stretch that is left. -/
def searchBetween (xs : Array Nat) (x low high : Nat) (h : high ≤ xs.size) : Sought :=
  if hlt : low < high then
    let middle := low + (high - low) / 2
    have hmiddle : middle < xs.size := by omega
    if xs[middle] = x then .found middle
    else if xs[middle] < x then searchBetween xs x (middle + 1) high h
    else searchBetween xs x low middle (by omega)
  else .missing low
  termination_by high - low

/-- Searches ascending numbers. -/
def search (xs : Array Nat) (x : Nat) : Sought :=
  searchBetween xs x 0 xs.size (Nat.le_refl _)

/-! ### Line numbers -/

/-- The byte offsets at which lines start, in order. -/
structure LineIndex where
  starts : Array Nat
  ascending : starts.toList.Pairwise (· < ·)

namespace LineIndex

/-- The offsets right behind the line feeds of a text whose first byte has the given offset. -/
def breaksFrom (offset : Nat) : List Char → List Nat
  | [] => []
  | c :: cs =>
    let next := offset + c.utf8Size
    if c = '\n' then next :: breaksFrom next cs else breaksFrom next cs

theorem lt_of_mem_breaksFrom {offset b : Nat} {cs : List Char} (h : b ∈ breaksFrom offset cs) :
    offset < b := by
  induction cs generalizing offset with
  | nil => simp [breaksFrom] at h
  | cons c cs ih =>
    have hpos := c.utf8Size_pos
    simp only [breaksFrom] at h
    split at h
    · rcases List.mem_cons.1 h with rfl | h
      · omega
      · have := ih h
        omega
    · have := ih h
      omega

theorem pairwise_breaksFrom (offset : Nat) (cs : List Char) :
    (breaksFrom offset cs).Pairwise (· < ·) := by
  induction cs generalizing offset with
  | nil => exact .nil
  | cons c cs ih =>
    simp only [breaksFrom]
    split
    · exact .cons (fun b hb => lt_of_mem_breaksFrom hb) (ih _)
    · exact ih _

/-- The line starts of a text: its front, and what follows each line feed. -/
def ofChars (cs : List Char) : LineIndex where
  starts := (0 :: breaksFrom 0 cs).toArray
  ascending := .cons (fun _ hb => lt_of_mem_breaksFrom hb) (pairwise_breaksFrom 0 cs)

/-- The line starts of a text. -/
def ofText (s : String) : LineIndex := ofChars s.toList

/-- The one-based line of a byte offset: the line that starts there, or else the one before the next
line start. -/
def lineOf (index : LineIndex) (offset : Nat) : Nat :=
  match search index.starts offset with
  | .found i => i + 1
  | .missing i => i

/-- The span between two offsets. It ends on the line of its last byte. -/
def span (index : LineIndex) (start stop : Nat) : Span :=
  let startLine := index.lineOf start
  ⟨start, stop, startLine, if start < stop then index.lineOf (stop - 1) else startLine⟩

end LineIndex

end DocBlocks
