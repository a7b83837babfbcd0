import DocBlocks.Reading.Bundle
import DocBlocks.Reading.Site

/-
  Reading a source.

  A reader is a bundle of piles and a place. Several readers go through a source side by side as
  long as it is open which phrases there are, and those that meet in the same state become one. They
  go on in rounds, the ones that lag behind first. A reader that cannot go on is dropped.
-/

namespace DocBlocks

/-- What a source was read as: trees in order, and the text behind the last one. -/
structure Parsed where
  trees : List Concrete
  tail : String
  deriving Repr

/-- The source text of what was read. -/
def Parsed.text (p : Parsed) : String := Concrete.textAll p.trees ++ p.tail

/-- Ways to read a source as far as it has been read. -/
structure Reader where
  bundle : Bundle
  site : Site
  /-- The number of characters that are left. -/
  left : Nat
  /-- Whether the last lexeme was without text. -/
  hasPaused : Bool
  /-- The number of tokens that have been taken in. -/
  tokens : Nat

namespace RuleBook

/-- The terminals that a state accepts. -/
def accepts (book : RuleBook) (s : State) : Accepts := fun t =>
  (book.number? t).any (book.canMove s)

end RuleBook

/-- The concrete tree of what a lexeme found. -/
def Lexeme.tree (book : RuleBook) (l : Lexeme) : Concrete :=
  let gap := String.ofList l.gap
  match l.find with
  | .token t _ text => .token ((book.number? t).getD 0) gap (String.ofList text)
  | .comment text => .comment gap (String.ofList text)
  | .island i => .island gap i

namespace Reader

/-- The reader in front of a source. -/
def front (source : String) : Reader := ⟨.ground, .front source, source.length, false, 0⟩

/-- The rounds that a reader may go on for: two for each character that is left, as a lexeme without
text may stand in front of it, and those at the end of the source. -/
def rounds (r : Reader) : Nat := 2 * r.left + if r.hasPaused then 1 else 2

/-- What becomes of a reader with the next lexeme: the readers behind it, or what was read if the
source is complete. -/
structure Progress where
  readers : List Reader
  parsed : List Parsed

/-- The bundles behind a token or an extra. -/
def behind (book : RuleBook) (r : Reader) (l : Lexeme) (back : Nat) : List Bundle :=
  match l.find with
  | .token t _ _ =>
    Bundle.takeIn book ((book.number? t).getD 0) (l.tree book) r.site.spot.byte back
      (Bundle.fuel book r.tokens) [r.bundle]
  | _ => [r.bundle.push (l.tree book) r.bundle.state back]

/-- Lets a reader go on by one lexeme. No two lexemes without text stand behind each other. -/
def advance (book : RuleBook) (r : Reader) : Progress :=
  match nextLexeme? (book.accepts r.bundle.state) r.site.labels r.site.rest with
  | none => ⟨[], []⟩
  | some l =>
    match l.find with
    | .token .finish _ _ =>
      let done := Bundle.complete book r.site.spot.byte (Bundle.fuel book r.tokens) [r.bundle]
      ⟨[], done.flatMap fun b => b.piles.map fun p => ⟨p.trees, String.ofList l.gap⟩⟩
    | _ =>
      let left := r.left - (l.gap.length + l.find.length)
      let site := r.site.behindLexeme l
      if left == r.left && r.hasPaused then ⟨[], []⟩
      else
        let bundles := r.behind book l site.spot.byte
        ⟨bundles.map fun b => ⟨b, site, left, left == r.left, r.tokens + 1⟩, []⟩

/-- Whether two readers can only go on in the same way. -/
def isParallel (r s : Reader) : Bool :=
  r.left == s.left && r.hasPaused == s.hasPaused && r.site.labels == s.site.labels &&
    r.bundle.state == s.bundle.state

/-- Two readers as one. -/
def join (book : RuleBook) (r s : Reader) : Reader :=
  { s with bundle := r.bundle.join book s.bundle, tokens := max r.tokens s.tokens }

/-- Adds a reader to others. Those that can only go on in the same way become one. -/
def insert (book : RuleBook) (r : Reader) : List Reader → List Reader
  | [] => [r]
  | s :: ss => if r.isParallel s then r.join book s :: ss else s :: insert book r ss

/-- The better one of two results. -/
def better (book : RuleBook) (best? : Option Parsed) (p : Parsed) : Option Parsed :=
  match best? with
  | none => some p
  | some best => if Concrete.outdoes book p.trees best.trees then some p else some best

/-! ### Rounds -/

/-- The most rounds that any of some readers has left. -/
def mostRounds : List Reader → Nat
  | [] => 0
  | r :: rs => max r.rounds (mostRounds rs)

theorem rounds_pos (r : Reader) : 0 < r.rounds := by
  unfold rounds
  split <;> omega

theorem rounds_le_mostRounds {r : Reader} {rs : List Reader} (h : r ∈ rs) :
    r.rounds ≤ mostRounds rs := by
  induction rs with
  | nil => cases h
  | cons s rs ih =>
    rw [mostRounds]
    rcases List.mem_cons.1 h with rfl | h
    · exact Nat.le_max_left ..
    · exact Nat.le_trans (ih h) (Nat.le_max_right ..)

theorem mostRounds_lt {rs : List Reader} {n : Nat} (hn : 0 < n) (h : ∀ r ∈ rs, r.rounds < n) :
    mostRounds rs < n := by
  induction rs with
  | nil => exact hn
  | cons r rs ih =>
    rw [mostRounds, Nat.max_lt]
    exact ⟨h r List.mem_cons_self, ih fun s hs => h s (List.mem_cons_of_mem _ hs)⟩

theorem rounds_lt_of_mem_insert {book : RuleBook} {r s : Reader} {rs : List Reader} {n : Nat}
    (hr : r.rounds < n) (hrs : ∀ s ∈ rs, s.rounds < n) (h : s ∈ insert book r rs) :
    s.rounds < n := by
  induction rs with
  | nil =>
    obtain rfl := List.mem_singleton.1 h
    exact hr
  | cons t rs ih =>
    have ht := hrs t List.mem_cons_self
    replace hrs := fun s hs => hrs s (List.mem_cons_of_mem t hs)
    rw [insert] at h
    split at h
    · rcases List.mem_cons.1 h with rfl | h
      · exact ht
      · exact hrs s h
    · rcases List.mem_cons.1 h with rfl | h
      · exact ht
      · exact ih hrs h

theorem rounds_lt_of_mem_foldl_insert {book : RuleBook} {s : Reader} {new rs : List Reader}
    {n : Nat} (hnew : ∀ r ∈ new, r.rounds < n) (hrs : ∀ s ∈ rs, s.rounds < n)
    (h : s ∈ new.foldl (fun rs r => insert book r rs) rs) : s.rounds < n := by
  induction new generalizing rs with
  | nil => exact hrs s h
  | cons r new ih =>
    refine ih (fun s hs => hnew s (List.mem_cons_of_mem _ hs)) (fun s hs => ?_) h
    exact rounds_lt_of_mem_insert (hnew r List.mem_cons_self) hrs hs

/-- **A reader that goes on has fewer rounds left.** -/
theorem rounds_lt_of_mem_advance {book : RuleBook} {r s : Reader}
    (h : s ∈ (r.advance book).readers) : s.rounds < r.rounds := by
  unfold advance at h
  split at h
  · cases h
  · rename_i l hl
    split at h
    · cases h
    · dsimp only at h
      split at h
      · cases h
      · rename_i hpause
        obtain ⟨b, -, rfl⟩ := List.mem_map.1 h
        -- either some text is behind the reader now, or it has paused for the first time
        simp only [Bool.and_eq_true, beq_iff_eq, not_and, Bool.not_eq_true] at hpause
        unfold rounds
        by_cases hleft : r.left - (l.gap.length + l.find.length) = r.left
        · simp [hleft, hpause hleft]
        · simp only [hleft, beq_iff_eq, if_false]
          split <;> omega

/-- Lets those readers go on that have the most rounds left. -/
def round (book : RuleBook) (rs : List Reader) : Progress :=
  let (now, later) := rs.partition (·.rounds == mostRounds rs)
  let progress := now.map (advance book)
  ⟨(progress.flatMap Progress.readers).foldl (fun rs r => insert book r rs) later,
    progress.flatMap Progress.parsed⟩

/-- **In each round there are fewer rounds left.** -/
theorem mostRounds_round_lt {book : RuleBook} {rs : List Reader} (h : rs ≠ []) :
    mostRounds (round book rs).readers < mostRounds rs := by
  obtain ⟨r, hr⟩ := List.exists_mem_of_ne_nil rs h
  have hpos : 0 < mostRounds rs := Nat.lt_of_lt_of_le r.rounds_pos (rounds_le_mostRounds hr)
  refine mostRounds_lt hpos fun s hs => ?_
  simp only [round, List.partition_eq_filter_filter] at hs
  refine rounds_lt_of_mem_foldl_insert (fun t ht => ?_) (fun t ht => ?_) hs
  · obtain ⟨progress, hprogress, ht⟩ := List.mem_flatMap.1 ht
    obtain ⟨u, hu, rfl⟩ := List.mem_map.1 hprogress
    have hmem := (List.mem_filter.1 hu).1
    exact Nat.lt_of_lt_of_le (rounds_lt_of_mem_advance ht) (rounds_le_mostRounds hmem)
  · obtain ⟨hmem, hne⟩ := List.mem_filter.1 ht
    have hle := rounds_le_mostRounds hmem
    simp only [Function.comp_apply, Bool.not_eq_true', beq_eq_false_iff_ne] at hne
    omega

/-- Lets readers go on until none is left. -/
def run (book : RuleBook) (rs : List Reader) (best? : Option Parsed) : Option Parsed :=
  if _h : rs = [] then best?
  else
    let progress := round book rs
    run book progress.readers (progress.parsed.foldl (better book) best?)
  termination_by mostRounds rs
  decreasing_by exact mostRounds_round_lt _h

end Reader

/-- Whether a source holds nothing but a byte order mark and blanks. -/
def isBarren (source : String) : Bool :=
  match source.toList with
  | '\uFEFF' :: cs => cs.all isAsciiBlank
  | cs => cs.all isAsciiBlank

/-- The concrete trees of a source, or nothing if it follows no rule. -/
def parse? (book : RuleBook) (source : String) : Option Parsed :=
  if isBarren source then some ⟨[], source⟩
  else Reader.run book [.front source] none

end DocBlocks
