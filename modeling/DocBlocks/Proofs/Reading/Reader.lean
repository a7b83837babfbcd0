import DocBlocks.Proofs.Reading.Bundle
import DocBlocks.Proofs.Token.Lossless
import DocBlocks.Reading.Reader

/-!
# Reading keeps the source

What one lexeme makes of a pile is `Pile.Follows`. `parse?_induction` is what all proofs about
reading go through: what holds of the pile without trees in front of the source, and is kept by each
lexeme, holds of all piles of all readers.

`parse?_sound`: the trees of a source that has been read give back the source (`Parsed.text`), and
every phrase in them is put together by the rules of the book (`Parsed.Formed`). What is on a pile
and what is left to read are the source (`Pile.Sound`).
-/

namespace DocBlocks

/-- Whether all trees of what was read are formed. -/
def Parsed.Formed (book : RuleBook) (p : Parsed) : Prop := ∀ c ∈ p.trees, c.Formed book

namespace Lexeme

theorem toList_text_tree (book : RuleBook) (l : Lexeme) :
    (l.tree book).text.toList = l.gap ++ l.find.text.toList := by
  simp only [tree]
  cases l.find <;> simp [Concrete.text, Find.text]

/-- A token shows as itself. -/
theorem tree_of_find_eq {book : RuleBook} {l : Lexeme} {t : Terminal} {ts : List Terminal}
    {text : List Char} (h : l.find = .token t ts text) :
    l.tree book = .token ((book.number? t).getD 0) (String.ofList l.gap) (String.ofList text) := by
  simp [tree, h]

theorem formed_tree (book : RuleBook) (l : Lexeme) : (l.tree book).Formed book := by
  rw [tree]
  cases l.find <;> trivial

end Lexeme

theorem Find.length_eq (f : Find) : f.length = f.text.toList.length := by
  cases f with
  | token t ts text => simp [Find.length, Find.text]
  | comment text => simp [Find.length, Find.text]
  | island i => exact (String.length_toList).symm

/-! ### One lexeme on one pile -/

namespace Pile

/-- What a lexeme makes of a pile, if it is not the end: a token goes on top of what phrases have
made of it, and an extra goes on top of it as it is. -/
inductive Follows (book : RuleBook) (l : Lexeme) (p : Pile) : Pile → Prop where
  | token {t : Terminal} {ts : List Terminal} {text : List Char} {q : Pile} {s : State} :
      l.find = .token t ts text → Rebuilt book ((book.number? t).getD 0) p q →
      book.next? q.state ((book.number? t).getD 0) = some s →
        Follows book l p (⟨l.tree book, s⟩ :: q)
  | extra : (l.tree book).isExtra = true → Follows book l p (⟨l.tree book, p.state⟩ :: p)

/-- Whether a pile is a complete source with a lexeme ahead. -/
structure Ends (book : RuleBook) (l : Lexeme) (p q : Pile) : Prop where
  find_eq : ∃ ts text, l.find = .token .finish ts text
  rebuilt : Rebuilt book 0 p q
  accepts : (book.moves q.state 0).accepts = true

end Pile

namespace Reader

variable {book : RuleBook} {r : Reader}

/-- **What a lexeme does to a reader it does to each of its piles.** -/
theorem exists_of_mem_readers {r' : Reader} (h : r' ∈ (r.advance book).readers) :
    ∃ l, nextLexeme? (book.accepts r.bundle.state) r.site.labels r.site.rest = some l ∧
      r'.site.rest = l.rest ∧ r'.left = r.left - (l.gap.length + l.find.length) ∧
      r'.tokens = r.tokens + 1 ∧
      ∀ p' ∈ r'.bundle.piles, ∃ p ∈ r.bundle.piles, p.Follows book l p' := by
  unfold advance at h
  split at h
  · cases h
  · rename_i l hl
    split at h
    · cases h
    · dsimp only at h
      split at h
      · cases h
      · obtain ⟨b, hb, rfl⟩ := List.mem_map.1 h
        refine ⟨l, hl, rfl, rfl, rfl, fun p' hp' => ?_⟩
        unfold behind at hb
        split at hb
        · rename_i hfind
          obtain ⟨b', hb', p, hp, q, s, hrebuilt, hs, rfl⟩ :=
            Bundle.exists_rebuilt_of_mem_takeIn hb hp'
          obtain rfl := List.mem_singleton.1 hb'
          exact ⟨p, hp, .token hfind hrebuilt hs⟩
        · rename_i hnot
          obtain rfl := List.mem_singleton.1 hb
          obtain ⟨p, hp, rfl⟩ := Bundle.mem_piles_push.1 hp'
          have hextra : (l.tree book).isExtra = true := by
            rw [Lexeme.tree]
            cases hfind : l.find with
            | token t ts text => exact absurd hfind (hnot t ts text)
            | comment text => rfl
            | island i => rfl
          rw [← Bundle.state_of_mem_piles hp]
          exact ⟨p, hp, .extra hextra⟩

/-- What was read has been a pile of the reader, with the gap at the end behind it. -/
theorem exists_of_mem_parsed {x : Parsed} (h : x ∈ (r.advance book).parsed) :
    ∃ l, nextLexeme? (book.accepts r.bundle.state) r.site.labels r.site.rest = some l ∧
      ∃ p ∈ r.bundle.piles, ∃ q, p.Ends book l q ∧ x = ⟨q.trees, String.ofList l.gap⟩ := by
  unfold advance at h
  split at h
  · cases h
  · rename_i l hl
    split at h
    · rename_i ts text hfind
      obtain ⟨b, hb, hx⟩ := List.mem_flatMap.1 h
      obtain ⟨q, hq, rfl⟩ := List.mem_map.1 hx
      obtain ⟨b', hb', p, hp, hrebuilt, haccepts⟩ := Bundle.exists_rebuilt_of_mem_complete hb hq
      obtain rfl := List.mem_singleton.1 hb'
      exact ⟨l, hl, p, hp, q, ⟨⟨ts, text, hfind⟩, hrebuilt, haccepts⟩, rfl⟩
    · dsimp only at h
      split at h <;> cases h

/-! ### Runs -/

theorem mem_foldl_insert {R : Reader → Prop}
    (hjoin : ∀ r s, R r → R s → r.isParallel s = true → R (r.join book s)) {new rs : List Reader}
    (hnew : ∀ r ∈ new, R r) (hrs : ∀ r ∈ rs, R r) :
    ∀ r ∈ new.foldl (fun rs r => insert book r rs) rs, R r := by
  have hinsert : ∀ {r : Reader} {rs : List Reader}, R r → (∀ s ∈ rs, R s) →
      ∀ s ∈ insert book r rs, R s := by
    intro r rs hr hrs
    induction rs with
    | nil => simpa [insert] using hr
    | cons t rs ih =>
      rw [List.forall_mem_cons] at hrs
      rw [insert]
      split
      · rw [List.forall_mem_cons]
        exact ⟨hjoin r t hr hrs.1 ‹_›, hrs.2⟩
      · rw [List.forall_mem_cons]
        exact ⟨hrs.1, ih hrs.2⟩
  induction new generalizing rs with
  | nil => exact hrs
  | cons r new ih =>
    rw [List.forall_mem_cons] at hnew
    exact ih hnew.2 (hinsert hnew.1 hrs)

theorem foldl_better_eq_some {ps : List Parsed} {best? : Option Parsed} {p : Parsed}
    (h : ps.foldl (better book) best? = some p) : p ∈ ps ∨ best? = some p := by
  induction ps generalizing best? with
  | nil => exact .inr h
  | cons q ps ih =>
    rcases ih h with h | h
    · exact .inl (List.mem_cons_of_mem _ h)
    · unfold better at h
      split at h
      · obtain rfl := Option.some.inj h
        exact .inl List.mem_cons_self
      · split at h
        · obtain rfl := Option.some.inj h
          exact .inl List.mem_cons_self
        · exact .inr h

/-- **A round keeps what one lexeme and joining keep.** -/
theorem round_induction {R : Reader → Prop} {Q : Parsed → Prop}
    (hjoin : ∀ r s, R r → R s → r.isParallel s = true → R (r.join book s))
    (hstep : ∀ r, R r →
      (∀ r' ∈ (r.advance book).readers, R r') ∧ ∀ p ∈ (r.advance book).parsed, Q p)
    {rs : List Reader} (hrs : ∀ r ∈ rs, R r) :
    (∀ r ∈ (round book rs).readers, R r) ∧ ∀ p ∈ (round book rs).parsed, Q p := by
  have hnow : ∀ progress ∈ (rs.filter (·.rounds == mostRounds rs)).map (advance book),
      (∀ r ∈ progress.readers, R r) ∧ ∀ p ∈ progress.parsed, Q p := by
    intro progress hprogress
    obtain ⟨r, hr, rfl⟩ := List.mem_map.1 hprogress
    exact hstep r (hrs r (List.mem_filter.1 hr).1)
  simp only [round, List.partition_eq_filter_filter]
  refine ⟨mem_foldl_insert hjoin (fun r hr => ?_) fun r hr => hrs r (List.mem_filter.1 hr).1,
    fun p hp => ?_⟩
  · obtain ⟨progress, hprogress, hr⟩ := List.mem_flatMap.1 hr
    exact (hnow progress hprogress).1 r hr
  · obtain ⟨progress, hprogress, hp⟩ := List.mem_flatMap.1 hp
    exact (hnow progress hprogress).2 p hp

/-- **A run keeps it**, however many readers there are. -/
theorem run_induction {R : Reader → Prop} {Q : Parsed → Prop}
    (hjoin : ∀ r s, R r → R s → r.isParallel s = true → R (r.join book s))
    (hstep : ∀ r, R r →
      (∀ r' ∈ (r.advance book).readers, R r') ∧ ∀ p ∈ (r.advance book).parsed, Q p)
    {rs : List Reader} {best? : Option Parsed} {p : Parsed} (hrs : ∀ r ∈ rs, R r)
    (hbest : ∀ q, best? = some q → Q q) (h : run book rs best? = some p) : Q p := by
  fun_induction run book rs best? with
  | case1 best? => exact hbest p h
  | case2 rs best? hne progress ih =>
    obtain ⟨hreaders, hparsed⟩ := round_induction hjoin hstep hrs
    refine ih hreaders (fun q hq => ?_) h
    rcases foldl_better_eq_some hq with hq | hq
    · exact hparsed q hq
    · exact hbest q hq

/-! ### Readers that can only go on in the same way -/

theorem isParallel_iff {s : Reader} : r.isParallel s = true ↔
    r.left = s.left ∧ r.hasPaused = s.hasPaused ∧ r.site.labels = s.site.labels ∧
      r.bundle.state = s.bundle.state := by
  simp only [isParallel, Bool.and_eq_true, beq_iff_eq, and_assoc]

/-- **The piles of two readers as one are theirs.** -/
theorem mem_piles_or_of_mem_join {s : Reader} (h : r.isParallel s = true) {p : Pile}
    (hp : p ∈ (r.join book s).bundle.piles) : p ∈ r.bundle.piles ∨ p ∈ s.bundle.piles := by
  obtain ⟨-, -, -, hstate⟩ := isParallel_iff.1 h
  exact Bundle.holdsOf_join hstate p hp

/-! ### Readers of one source -/

/-- Whether a property of piles and the text behind them holds of all piles of a reader that goes
through a source. -/
structure Keeps (I : Pile → List Char → Prop) (source : String) (r : Reader) : Prop where
  suffix : r.site.rest <:+ source.toList
  left_eq : r.left = r.site.rest.length
  piles : ∀ p ∈ r.bundle.piles, I p r.site.rest

variable {I : Pile → List Char → Prop} {source : String}

/-- Readers that can only go on in the same way have got equally far. -/
theorem Keeps.rest_eq {s : Reader} (hr : r.Keeps I source) (hs : s.Keeps I source)
    (h : r.isParallel s = true) : r.site.rest = s.site.rest := by
  obtain ⟨hleft, -⟩ := isParallel_iff.1 h
  have hlength : r.site.rest.length = s.site.rest.length := by
    rw [← hr.left_eq, ← hs.left_eq, hleft]
  -- of two ends of the source, as long as each other, one is an end of the other
  have hsuffix := List.suffix_of_suffix_length_le hr.suffix hs.suffix (Nat.le_of_eq hlength)
  exact hsuffix.eq_of_length hlength

theorem Keeps.join {s : Reader} (hr : r.Keeps I source) (hs : s.Keeps I source)
    (h : r.isParallel s = true) : (r.join book s).Keeps I source where
  suffix := hs.suffix
  left_eq := hs.left_eq
  piles p hp := by
    rcases mem_piles_or_of_mem_join h hp with hp | hp
    · have hI := hr.piles p hp
      rwa [hr.rest_eq hs h] at hI
    · exact hs.piles p hp

end Reader

variable {book : RuleBook}

/-- **What holds in front of a source and is kept by each lexeme holds of what is read.** -/
theorem parse?_induction {source : String} {I : Pile → List Char → Prop} {Q : Parsed → Prop}
    (hfront : I [] source.toList)
    (hstep : ∀ {accepts : Accepts} {labels : List (List Char)} {rest : List Char} {l : Lexeme}
      {p p' : Pile}, nextLexeme? accepts labels rest = some l → I p rest → p.Follows book l p' →
        I p' l.rest)
    (hend : ∀ {accepts : Accepts} {labels : List (List Char)} {rest : List Char} {l : Lexeme}
      {p q : Pile}, nextLexeme? accepts labels rest = some l → I p rest → p.Ends book l q →
        Q ⟨q.trees, String.ofList l.gap⟩)
    {x : Parsed} (h : parse? book source = some x) : x = ⟨[], source⟩ ∨ Q x := by
  unfold parse? at h
  split at h
  · exact .inl (Option.some.inj h).symm
  · right
    refine Reader.run_induction (R := Reader.Keeps I source) (fun r s => Reader.Keeps.join)
      (fun r hr => ⟨fun r' hr' => ?_, fun y hy => ?_⟩) (fun r hr => ?_) (by simp) h
    · -- a lexeme takes its characters off the front and goes on top of each pile
      obtain ⟨l, hl, hrest, hleft, -, hpiles⟩ := Reader.exists_of_mem_readers hr'
      have hchars := nextLexeme?_chars hl
      have hlength := congrArg List.length hchars
      simp only [Lexeme.chars, List.length_append, ← Find.length_eq] at hlength
      refine ⟨?_, ?_, fun p' hp' => ?_⟩
      · rw [hrest]
        refine List.IsSuffix.trans ?_ hr.suffix
        rw [← hchars, Lexeme.chars]
        exact List.suffix_append _ _
      · rw [hleft, hrest, hr.left_eq]
        omega
      · obtain ⟨p, hp, hfollows⟩ := hpiles p' hp'
        rw [hrest]
        exact hstep hl (hr.piles p hp) hfollows
    · -- a complete source has been a pile in front of the end
      obtain ⟨l, hl, p, hp, q, hends, rfl⟩ := Reader.exists_of_mem_parsed hy
      exact hend hl (hr.piles p hp) hends
    · -- in front of the source there is one reader, with one pile that is empty
      obtain rfl := List.mem_singleton.1 hr
      refine ⟨List.suffix_rfl, rfl, fun p hp => ?_⟩
      obtain rfl := List.mem_singleton.1 hp
      exact hfront

/-! ### The text and the rules -/

namespace Pile

/-- What is on a pile and what is left are the source, and the pile follows the rules. -/
structure Sound (book : RuleBook) (source : String) (p : Pile) (rest : List Char) : Prop where
  text_eq : (Concrete.textAll p.trees).toList ++ rest = source.toList
  formed : Formed book p

/-- A lexeme goes on top by the rules. -/
theorem Follows.formed (hb : book.BegunRight) {l : Lexeme} {p p' : Pile} (h : p.Follows book l p')
    (hp : Formed book p) : Formed book p' := by
  cases h with
  | @token t ts text q s hfind hrebuilt hs =>
    have hleaf : l.tree book = _ := Lexeme.tree_of_find_eq hfind
    refine (hrebuilt.formed hb hp).push hb ?_ (l.formed_tree book) ?_ hs
    · rw [hleaf]
      rfl
    · rw [hleaf]
      exact .here rfl
  | extra hextra => exact .extra hextra (l.formed_tree book) hp

/-- **One lexeme keeps the text and the rules.** -/
theorem Sound.follows (hb : book.BegunRight) {source : String} {accepts : Accepts}
    {labels : List (List Char)} {rest : List Char} {l : Lexeme} {p p' : Pile}
    (hl : nextLexeme? accepts labels rest = some l) (h : Sound book source p rest)
    (hfollows : p.Follows book l p') : Sound book source p' l.rest := by
  refine ⟨?_, hfollows.formed hb h.formed⟩
  have htree : (l.tree book).text.toList ++ l.rest = rest := by
    rw [l.toList_text_tree, ← nextLexeme?_chars hl, Lexeme.chars]
  cases hfollows with
  | token hfind hrebuilt hs =>
    rw [trees_cons, Concrete.textAll_append, hrebuilt.textAll_trees, ← h.text_eq, ← htree]
    simp [Concrete.textAll]
  | extra hextra =>
    rw [trees_cons, Concrete.textAll_append, ← h.text_eq, ← htree]
    simp [Concrete.textAll]

theorem formed_trees {p : Pile} (h : Formed book p) : ∀ c ∈ p.trees, c.Formed book := by
  intro c hc
  rw [trees, List.mem_reverse, List.mem_map] at hc
  obtain ⟨l, hl, rfl⟩ := hc
  exact h.formed_of_mem hl

end Pile

/-- **The trees of a source give back the source**, and follow the rules. -/
theorem parse?_sound (hb : book.BegunRight) {source : String} {p : Parsed}
    (h : parse? book source = some p) : p.text = source ∧ p.Formed book := by
  have hend : ∀ {accepts : Accepts} {labels : List (List Char)} {rest : List Char} {l : Lexeme}
      {p q : Pile}, nextLexeme? accepts labels rest = some l → Pile.Sound book source p rest →
        p.Ends book l q → Parsed.text ⟨q.trees, String.ofList l.gap⟩ = source ∧
          Parsed.Formed book ⟨q.trees, String.ofList l.gap⟩ := by
    intro accepts labels rest l p q hl hsound hends
    obtain ⟨ts, text, hfind⟩ := hends.find_eq
    obtain ⟨rfl, hrest⟩ := nextLexeme?_endsText hl ts text hfind
    refine ⟨?_, Pile.formed_trees (hends.rebuilt.formed hb hsound.formed)⟩
    apply String.toList_injective
    rw [Parsed.text, hends.rebuilt.textAll_trees, String.toList_append, ← hsound.text_eq,
      ← nextLexeme?_chars hl, Lexeme.chars, hrest, hfind]
    simp [Find.text]
  have hfront : Pile.Sound book source [] source.toList :=
    ⟨by simp [Pile.trees, Concrete.textAll], .nil⟩
  rcases parse?_induction (Q := fun p => p.text = source ∧ p.Formed book) hfront
    (Pile.Sound.follows hb) hend h with rfl | h
  · exact ⟨by simp [Parsed.text, Concrete.textAll], by simp [Parsed.Formed]⟩
  · exact h

end DocBlocks
