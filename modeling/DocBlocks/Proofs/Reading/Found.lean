import DocBlocks.Proofs.Reading.Reader

/-!
# Where tokens were found

`parse?_read`: every token and every extra of the trees of a source is the lexeme that was found at
its place in the source, in front of all that stands behind it there, and no phrase begins or ends
with an extra. `Concrete.Read` says so of a tree and the text behind it. Putting a phrase together
keeps it (`Pile.readAll_reduce?`), as what stands behind a tree does not depend on how the trees
behind it are grouped; a lexeme that goes on the pile brings it along.
-/

namespace DocBlocks

namespace Concrete

/-- Whether a tree is what was found in front of a text. -/
def FoundBefore (book : RuleBook) (after : List Char) (c : Concrete) : Prop :=
  ∃ accepts labels l, nextLexeme? accepts labels (c.text.toList ++ after) = some l ∧
    l.tree book = c ∧ l.rest = after

mutual

/-- Whether the tokens and extras of a tree were found where they stand, given the text behind the
tree, and its phrases are trimmed. -/
def Read (book : RuleBook) (after : List Char) : Concrete → Prop
  | token t gap text => (token t gap text).FoundBefore book after
  | comment gap text => (comment gap text).FoundBefore book after
  | island gap i => (island gap i).FoundBefore book after
  | phrase _ parts => Trimmed parts ∧ ReadAll book after parts

/-- Whether those of neighbouring trees were. -/
def ReadAll (book : RuleBook) (after : List Char) : List Concrete → Prop
  | [] => True
  | c :: cs => c.Read book ((textAll cs).toList ++ after) ∧ ReadAll book after cs

end

theorem readAll_append {book : RuleBook} {after : List Char} {xs ys : List Concrete} :
    ReadAll book after (xs ++ ys) ↔
      ReadAll book ((textAll ys).toList ++ after) xs ∧ ReadAll book after ys := by
  induction xs with
  | nil => simp [ReadAll]
  | cons x xs ih => simp [ReadAll, ih, textAll_append, and_assoc]

/-- Trees that are put together are read if they were read one by one. -/
theorem readAll_phrase {book : RuleBook} {after : List Char} {q : Nat} {xs : List Concrete}
    (hx : Trimmed xs) (h : ReadAll book after xs) : ReadAll book after [phrase q xs] := by
  simpa [ReadAll, Read, textAll] using And.intro hx h

theorem exists_read_of_mem {book : RuleBook} {after : List Char} {c : Concrete}
    {cs : List Concrete} (h : ReadAll book after cs) (hc : c ∈ cs) :
    ∃ after', c.Read book after' := by
  obtain ⟨xs, ys, rfl⟩ := List.append_of_mem hc
  exact ⟨_, (readAll_append.1 h).2.1⟩

theorem textAll_phrase (q : Nat) (xs : List Concrete) : textAll [phrase q xs] = textAll xs := by
  simp [textAll, text]

end Concrete

/-- The tree of a lexeme is what was found in front of the rest. -/
theorem Lexeme.foundBefore_tree (book : RuleBook) {accepts : Accepts} {labels : List (List Char)}
    {cs : List Char} {l : Lexeme} (h : nextLexeme? accepts labels cs = some l) :
    (l.tree book).FoundBefore book l.rest := by
  have hchars : (l.tree book).text.toList ++ l.rest = cs := by
    rw [l.toList_text_tree book, ← nextLexeme?_chars h, Lexeme.chars]
  exact ⟨accepts, labels, l, by rw [hchars, h], rfl, rfl⟩

theorem Lexeme.read_tree (book : RuleBook) {accepts : Accepts} {labels : List (List Char)}
    {cs : List Char} {l : Lexeme} (h : nextLexeme? accepts labels cs = some l) :
    (l.tree book).Read book l.rest := by
  have hfound := l.foundBefore_tree book h
  -- no lexeme is a phrase
  rw [Lexeme.tree] at hfound ⊢
  cases hfind : l.find <;> simpa [hfind, Concrete.Read] using hfound

namespace Pile

/-- **Putting a phrase together leaves everything where it was found.** -/
theorem readAll_reduce? {book : RuleBook} {p p' : Pile} {q t : Nat} {after : List Char}
    (hf : Formed book p) (hq : q ∈ (book.moves (state p) t).reductions)
    (h : Concrete.ReadAll book after (trees p)) (hp : reduce? book p q = some p') :
    Concrete.ReadAll book after (trees p') := by
  obtain ⟨r, popped, rest, front, extras, s, hr, rfl, ht, -, hn, -, rfl⟩ := reduce?_eq_some hp
  have htrimmed := (hn (hf.fits_of_mem_reductions hq hr).1).2
  rw [trees_append, ht, Concrete.readAll_append, Concrete.readAll_append] at h
  obtain ⟨hrest, hfront, hextras⟩ := h
  rw [trees_pushAll, trees_cons, List.append_assoc, Concrete.readAll_append,
    Concrete.readAll_append]
  -- the phrase has the text of its parts, so nothing changes for the trees in front of it
  refine ⟨?_, Concrete.readAll_phrase htrimmed hfront, hextras⟩
  rwa [Concrete.textAll_append, Concrete.textAll_phrase, ← Concrete.textAll_append]

theorem Rebuilt.readAll {book : RuleBook} (hb : book.BegunRight) {t : Nat} {p p' : Pile}
    {after : List Char} (h : Rebuilt book t p p') (hf : Formed book p)
    (hp : Concrete.ReadAll book after (trees p)) : Concrete.ReadAll book after (trees p') := by
  induction h with
  | refl => exact hp
  | step hrebuilt hq hreduce ih => exact readAll_reduce? (hrebuilt.formed hb hf) hq ih hreduce

/-- What is on a pile was found where it stands in a source, in front of what is left. -/
structure Anchored (book : RuleBook) (source : String) (p : Pile) (rest : List Char) : Prop
    extends Sound book source p rest where
  readAll : Concrete.ReadAll book rest p.trees

/-- **One lexeme keeps trees where they were found**, and its own tree was found where it stands. -/
theorem Anchored.follows {book : RuleBook} (hb : book.BegunRight) {source : String}
    {accepts : Accepts} {labels : List (List Char)} {rest : List Char} {l : Lexeme} {p p' : Pile}
    (hl : nextLexeme? accepts labels rest = some l) (h : Anchored book source p rest)
    (hfollows : p.Follows book l p') : Anchored book source p' l.rest := by
  refine ⟨h.toSound.follows hb hl hfollows, ?_⟩
  have htext : (l.tree book).text.toList ++ l.rest = rest := by
    rw [l.toList_text_tree, ← nextLexeme?_chars hl, Lexeme.chars]
  -- whatever has been put together, the tree of the lexeme is put on trees with the same text
  have hpush : ∀ {q : Pile} {s : State}, Concrete.ReadAll book rest q.trees →
      Concrete.ReadAll book l.rest (trees (⟨l.tree book, s⟩ :: q)) := by
    intro q s hq
    rw [trees_cons, Concrete.readAll_append]
    refine ⟨by simpa [Concrete.textAll, htext] using hq, ?_, trivial⟩
    simpa [Concrete.textAll] using l.read_tree book hl
  cases hfollows with
  | token hfind hrebuilt hs => exact hpush (hrebuilt.readAll hb h.formed h.readAll)
  | extra hextra => exact hpush h.readAll

end Pile

/-- **The tokens and extras of a source were found where they stand.** -/
theorem parse?_read {book : RuleBook} (hb : book.BegunRight) {source : String} {p : Parsed}
    (h : parse? book source = some p) : Concrete.ReadAll book p.tail.toList p.trees := by
  have hend : ∀ {accepts : Accepts} {labels : List (List Char)} {rest : List Char} {l : Lexeme}
      {p q : Pile}, nextLexeme? accepts labels rest = some l → Pile.Anchored book source p rest →
        p.Ends book l q → Concrete.ReadAll book (String.ofList l.gap).toList q.trees := by
    intro accepts labels rest l p q hl hp hends
    obtain ⟨ts, text, hfind⟩ := hends.find_eq
    -- at the end nothing but the gap is left
    obtain ⟨rfl, hrest⟩ := nextLexeme?_endsText hl ts text hfind
    have hgap : rest = (String.ofList l.gap).toList := by
      rw [← nextLexeme?_chars hl, Lexeme.chars, hrest, hfind]
      simp [Find.text]
    rw [← hgap]
    exact hends.rebuilt.readAll hb hp.formed hp.readAll
  have hfront : Pile.Anchored book source [] source.toList :=
    ⟨⟨by simp [Pile.trees, Concrete.textAll], .nil⟩, trivial⟩
  rcases parse?_induction (Q := fun p => Concrete.ReadAll book p.tail.toList p.trees) hfront
    (Pile.Anchored.follows hb) hend h with rfl | h
  · trivial
  · exact h

end DocBlocks
