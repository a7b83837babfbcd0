import DocBlocks.Proofs.Grammar.RuleBook
import DocBlocks.Proofs.Reading.Reader

/-!
# A source is the goal

`parse?_goal`: the trees of a source that has been read are, extras apart, the parts of a production
of the goal, or there are none. Nothing is left below them on the pile: the goal stands in no
production (`RuleBook.GoalApart`), so its productions begin at the front of a source only, and their
items count all trees that have been read (`Pile.CountsAll`).

`goalApart_ofDefinitions`: it stands in none if no wording names it.
-/

namespace DocBlocks

/-! ### Sets of terminals -/

/-- What a step keeps, settling keeps. -/
theorem settle_induction {α : Type} [BEq α] {P : α → Prop} {step : α → α}
    (hstep : ∀ x, P x → P (step x)) (fuel : Nat) {x : α} (hx : P x) : P (settle step fuel x) := by
  induction fuel generalizing x with
  | zero => exact hx
  | succ fuel ih =>
    unfold settle
    dsimp only
    split
    · exact hx
    · exact ih (hstep x hx)

theorem getD_widen_of_ne {sets : Array Nat} {s t : Nat} (h : s ≠ t) (set : Nat) :
    (widen sets s set).getD t 0 = sets.getD t 0 := by
  unfold widen
  rw [Array.getD_eq_getD_getElem?, Array.getElem?_modify, if_neg h, Array.getD_eq_getD_getElem?]

/-- A phrase that no production begins with is not reached. -/
theorem getD_reachRound {leads : Array Lead} {t : Nat} (h : ∀ l ∈ leads, l.phrase ≠ t)
    (sets : Array Nat) : (reachRound leads sets).getD t 0 = sets.getD t 0 := by
  unfold reachRound
  rw [← Array.foldl_toList]
  have hlist : ∀ l ∈ leads.toList, l.phrase ≠ t := by simpa using h
  generalize leads.toList = ls at hlist
  induction ls generalizing sets with
  | nil => rfl
  | cons l ls ih =>
    rw [List.foldl_cons, ih _ fun k hk => hlist k (List.mem_cons_of_mem _ hk)]
    dsimp only
    split
    · rfl
    · exact getD_widen_of_ne (hlist l List.mem_cons_self) _

namespace RuleBook

/-! ### The goal stands apart -/

/-- Whether the goal stands in no production and no phrase begins with it. -/
structure GoalApart (book : RuleBook) : Prop where
  not_mem : ∀ (q : Nat) (r : Production), book.productions[q]? = some r →
    book.goal ∉ r.body.toList
  reachOf_eq : ∀ s behind, s ≠ book.goal → book.reachOf s book.goal behind = 0

variable {book : RuleBook}

theorem GoalApart.nextSymbol?_ne (hg : book.GoalApart) (i : Dotted) :
    book.nextSymbol? i ≠ some book.goal := by
  intro hnext
  obtain ⟨r, hr, hsymbol⟩ := Option.bind_eq_some_iff.1 hnext
  apply hg.not_mem _ r hr
  rw [Array.mem_toList_iff]
  exact Array.mem_of_getElem? hsymbol

theorem GoalApart.behindBegun_eq (hg : book.GoalApart) (s : State) :
    book.behindBegun s book.goal = 0 := by
  unfold behindBegun
  apply List.foldl_fixed'
  intro i
  split
  · rename_i b hb
    have hne : b ≠ book.goal := by
      rintro rfl
      exact hg.nextSymbol?_ne i hb
    rw [hg.reachOf_eq b _ hne, Nat.zero_or, ite_self]
  · rfl

/-- The items of the goal in a next state were there before: no production of the goal begins
behind a symbol. -/
theorem GoalApart.exists_of_mem_rawNext? (hg : book.GoalApart) {s t : State} {sym : Nat}
    {i : Dotted} (h : book.rawNext? s sym = some t) (hi : i ∈ t.items)
    (hgoal : book.headOf i = book.goal) :
    ∃ j ∈ s.items, book.headOf j = book.goal ∧ i.dot = j.dot + 1 := by
  simp only [rawNext?] at h
  split at h
  · simp at h
  obtain rfl := Option.some.inj h
  rw [List.mem_mergeSort, List.mem_append, List.mem_filterMap, List.mem_filterMap] at hi
  rcases hi with ⟨j, hj, hi⟩ | ⟨q, hq, hi⟩
  · split at hi
    · obtain rfl := Option.some.inj hi
      exact ⟨j, hj, hgoal, rfl⟩
    · simp at hi
  · split at hi
    · simp at hi
    · rename_i hahead
      obtain rfl := Option.some.inj hi
      have hhead : (book.productions[q]?.map Production.head).getD 0 = book.goal := hgoal
      rw [hhead, hg.behindBegun_eq] at hahead
      simp at hahead

/-- A source is complete only where all of a production of the goal has been read. -/
theorem exists_goal_of_accepts {s : State} {t : Nat} (h : (book.moves s t).accepts = true) :
    ∃ i ∈ s.items, book.headOf i = book.goal ∧ book.isComplete i = true := by
  have hany : (book.reducible s t).any (fun i => book.headOf i == book.goal) = true := by
    by_contra hnone
    simp only [moves, if_neg hnone] at h
    split at h
    · simp at h
    · simp only [settleMoves] at h
      repeat' split at h
      all_goals simp at h
  obtain ⟨i, hi, hgoal⟩ := List.any_eq_true.1 hany
  simp only [reducible, List.mem_filter, Bool.and_eq_true] at hi
  exact ⟨i, hi.1.1, beq_iff_eq.1 hgoal, hi.1.2.1⟩

end RuleBook

/-! ### Items of the goal count trees -/

namespace Pile

variable {book : RuleBook}

/-- Whether the items of the goal count the trees of a pile that are no extras, and did so when
there were fewer. -/
def CountsAll (book : RuleBook) (p : Pile) : Prop :=
  ∀ q, q <:+ p → ∀ i ∈ (state q).items, book.headOf i = book.goal → i.dot = (core q).length

theorem countsAll_nil : CountsAll book [] := by
  intro q hq i hi _
  obtain rfl := List.suffix_nil.1 hq
  obtain rfl : i = ⟨0, 0, oneTerminal 0⟩ := by simpa [state, State.start] using hi
  rfl

theorem CountsAll.of_suffix {p q : Pile} (h : CountsAll book p) (hq : q <:+ p) :
    CountsAll book q :=
  fun q' hq' => h q' (hq'.trans hq)

theorem CountsAll.extra {p : Pile} (h : CountsAll book p) {c : Concrete} (hx : c.isExtra = true) :
    CountsAll book (⟨c, state p⟩ :: p) := by
  intro q hq
  rcases List.suffix_cons_iff.1 hq with rfl | hq
  · rw [core_cons, if_pos hx]
    exact h p List.suffix_rfl
  · exact h q hq

theorem CountsAll.pushAll {p : Pile} {ts : List Concrete} (h : CountsAll book p)
    (hx : ∀ c ∈ ts, c.isExtra = true) : CountsAll book (pushAll p ts (state p)) := by
  induction ts generalizing p with
  | nil => exact h
  | cons c ts ih =>
    exact ih (h.extra (hx c List.mem_cons_self)) fun d hd => hx d (List.mem_cons_of_mem _ hd)

/-- A tree and the state that a symbol leads to. -/
theorem CountsAll.push (hg : book.GoalApart) {p : Pile} (h : CountsAll book p) {c : Concrete}
    {sym : Nat} {s : State} (hx : c.isExtra = false) (hs : book.next? (state p) sym = some s) :
    CountsAll book (⟨c, s⟩ :: p) := by
  have hraw : ∀ {sym : Nat} {t : State}, book.rawNext? (state p) sym = some t →
      ∀ i ∈ t.items, book.headOf i = book.goal → i.dot = (core p).length + 1 := by
    intro sym t ht i hi hgoal
    obtain ⟨j, hj, hgoal', hdot⟩ := hg.exists_of_mem_rawNext? ht hi hgoal
    rw [hdot, h p List.suffix_rfl j hj hgoal']
  -- a state that is skipped gives way to another one that a symbol leads to from here
  have hskip : ∀ (fuel : Nat) {t : State},
      (∀ i ∈ t.items, book.headOf i = book.goal → i.dot = (core p).length + 1) →
      ∀ i ∈ (book.skipUnits (state p) fuel t).items, book.headOf i = book.goal →
        i.dot = (core p).length + 1 := by
    intro fuel
    induction fuel with
    | zero => exact fun ht => ht
    | succ fuel ih =>
      intro t ht
      unfold RuleBook.skipUnits
      split
      · exact ht
      · split
        · exact ht
        · rename_i ht'
          exact ih (hraw ht')
  obtain ⟨t, ht, rfl⟩ := Option.map_eq_some_iff.1 hs
  intro q hq
  rcases List.suffix_cons_iff.1 hq with rfl | hq
  · rw [core_cons, if_neg (by simp [hx]), List.length_cons]
    exact hskip _ (hraw ht)
  · exact h q hq

theorem CountsAll.reduce? (hg : book.GoalApart) {p p' : Pile} {q : Nat} (h : CountsAll book p)
    (hp : reduce? book p q = some p') : CountsAll book p' := by
  obtain ⟨r, popped, rest, front, extras, s, -, rfl, -, hx, -, hs, rfl⟩ := reduce?_eq_some hp
  have hrest : CountsAll book rest := h.of_suffix (List.suffix_append _ _)
  have hphrase : CountsAll book (⟨.phrase q front, s⟩ :: rest) := hrest.push hg rfl hs
  exact hphrase.pushAll hx

/-! ### Complete sources -/

/-- Whether the trees of a pile are the parts of a production of the goal, extras apart. -/
def IsGoal (book : RuleBook) (cs : List Concrete) : Prop :=
  ∃ (q : Nat) (r : Production), book.productions[q]? = some r ∧ r.head = book.goal ∧
    List.Forall₂ (Fits book) (cs.filter (!·.isExtra)) r.body.toList

/-- **Where a source is complete the trees are the parts of the goal**, and there are no others. -/
theorem isGoal_of_accepts {p : Pile} (hf : Formed book p) (hc : CountsAll book p)
    (hzero : book.goal ≠ 0) {t : Nat} (h : (book.moves (state p) t).accepts = true) :
    IsGoal book (trees p) := by
  obtain ⟨i, hi, hgoal, hcomplete⟩ := RuleBook.exists_goal_of_accepts h
  obtain ⟨r, hr, hhead⟩ : ∃ r, book.productions[i.production]? = some r ∧ r.head = book.goal := by
    unfold RuleBook.headOf at hgoal
    cases hr : book.productions[i.production]? with
    | none =>
      rw [hr] at hgoal
      exact absurd hgoal.symm hzero
    | some r =>
      rw [hr] at hgoal
      exact ⟨r, rfl, hgoal⟩
  refine ⟨i.production, r, hr, hhead, ?_⟩
  obtain ⟨hle, hfit⟩ := hf.accounts i hi r hr
  have hdot := hc p List.suffix_rfl i hi hgoal
  have hsize : r.body.toList.length ≤ i.dot := by
    have hnone : r.body[i.dot]? = none := by
      simpa [RuleBook.isComplete, RuleBook.nextSymbol?, hr] using hcomplete
    simpa using Array.getElem?_eq_none_iff.1 hnone
  rw [List.take_of_length_le hsize, List.take_of_length_le (Nat.le_of_eq hdot.symm)] at hfit
  rwa [filter_trees]

end Pile

/-! ### Reading a source -/

namespace Pile

/-- What is on a pile and what is left are a source, and the items of the goal count the trees. -/
structure Counted (book : RuleBook) (source : String) (p : Pile) (rest : List Char) : Prop
    extends Sound book source p rest where
  countsAll : CountsAll book p

theorem Rebuilt.countsAll {book : RuleBook} (hg : book.GoalApart) {t : Nat} {p p' : Pile}
    (h : Rebuilt book t p p') (hp : CountsAll book p) : CountsAll book p' := by
  induction h with
  | refl => exact hp
  | step _ _ hreduce ih => exact ih.reduce? hg hreduce

/-- **One lexeme keeps the count.** -/
theorem Counted.follows {book : RuleBook} (hb : book.BegunRight) (hg : book.GoalApart)
    {source : String} {accepts : Accepts} {labels : List (List Char)} {rest : List Char}
    {l : Lexeme} {p p' : Pile} (hl : nextLexeme? accepts labels rest = some l)
    (h : Counted book source p rest)
    (hfollows : p.Follows book l p') : Counted book source p' l.rest := by
  refine ⟨h.toSound.follows hb hl hfollows, ?_⟩
  cases hfollows with
  | token hfind hrebuilt hs =>
    refine (hrebuilt.countsAll hg h.countsAll).push hg ?_ hs
    rw [Lexeme.tree_of_find_eq hfind]
    rfl
  | extra hextra => exact h.countsAll.extra hextra

end Pile

/-- **The trees of a source are the parts of the goal**, extras apart, or there are none. -/
theorem parse?_goal {book : RuleBook} (hb : book.BegunRight) (hg : book.GoalApart)
    (hzero : book.goal ≠ 0) {source : String} {p : Parsed} (h : parse? book source = some p) :
    p.trees = [] ∨ Pile.IsGoal book p.trees := by
  have hend : ∀ {accepts : Accepts} {labels : List (List Char)} {rest : List Char} {l : Lexeme}
      {p q : Pile}, nextLexeme? accepts labels rest = some l → Pile.Counted book source p rest →
        p.Ends book l q → Pile.IsGoal book q.trees := by
    intro accepts labels rest l p q hl hp hends
    have hformed := hends.rebuilt.formed hb hp.formed
    have hcounts := hends.rebuilt.countsAll hg hp.countsAll
    exact Pile.isGoal_of_accepts hformed hcounts hzero hends.accepts
  have hfront : Pile.Counted book source [] source.toList :=
    ⟨⟨by simp [Pile.trees, Concrete.textAll], .nil⟩, Pile.countsAll_nil⟩
  rcases parse?_induction (Q := fun p => Pile.IsGoal book p.trees) hfront
    (Pile.Counted.follows hb hg) hend h with rfl | h
  · exact .inl rfl
  · exact .inr h

/-! ### Rule books of definitions -/

namespace RuleBook

variable {definitions : List Definition} {source : String}

/-- The goal is numbered behind the terminals. -/
theorem symbolAt?_goal : symbolAt? definitions source
    (ofDefinitions definitions source).goal = some (.phrase "") := by
  have hgoal : (ofDefinitions definitions source).goal = (orderTerminals definitions).length := rfl
  rw [hgoal, symbolAt?, symbols, List.getElem?_append_right (by simp)]
  simp [entries, phrasesOf, Definition.node]

theorem goal_ne_zero : (ofDefinitions definitions source).goal ≠ 0 := by
  intro hzero
  have hgoal : symbolAt? definitions source (ofDefinitions definitions source).goal =
      some (.phrase "") := symbolAt?_goal
  rw [hzero, symbolAt?_zero] at hgoal
  simp at hgoal

/-- Only the symbol of the goal has its number. -/
theorem number_ne_goal {s : Symbol} (h : s ≠ .phrase "") :
    number definitions source s ≠ (ofDefinitions definitions source).goal := by
  intro hnumber
  have hgoal : symbolAt? definitions source (number definitions source s) = some (.phrase "") := by
    rw [hnumber]
    exact symbolAt?_goal
  rcases eq_of_symbolAt?_number hgoal with hs | hs
  · exact h hs.symm
  · simp at hs

/-- **The goal stands apart if no wording names it.** -/
theorem goalApart_ofDefinitions (h : ∀ e ∈ entries definitions source, ∀ w ∈ wordingsOf e,
    ∀ p ∈ w.symbols, p.symbol ≠ .phrase "") :
    (ofDefinitions definitions source).GoalApart := by
  have hbody : ∀ (q : Nat) (r : Production),
      (ofDefinitions definitions source).productions[q]? = some r →
      (ofDefinitions definitions source).goal ∉ r.body.toList := by
    intro q r hr hmem
    obtain ⟨e, he, w, hw, -, -, hbody, -⟩ := exists_wording hr
    rw [hbody] at hmem
    obtain ⟨p, hp, hnumber⟩ := List.mem_map.1 hmem
    exact number_ne_goal (h e he w hw p hp) hnumber
  refine ⟨hbody, ?_⟩
  intro s behind hs
  set book := ofDefinitions definitions source with hbook
  have hleads : ∀ l ∈ leadsOf book.goal book.first book.productions, l.phrase ≠ book.goal := by
    intro l hl heq
    rw [leadsOf, Array.mem_filterMap] at hl
    obtain ⟨r, hr, hl⟩ := hl
    obtain ⟨q, hq⟩ := Array.mem_iff_getElem?.1 hr
    have hfront : l.phrase ∈ r.body.toList := by
      split at hl
      · simp at hl
      all_goals
        rename_i hlist
        rw [hlist]
        split at hl
        · simp at hl
        · obtain rfl := Option.some.inj hl
          exact List.mem_cons_self
    exact hbody q r hq (heq ▸ hfront)
  set size := (symbols definitions source).length with hsize
  -- nothing is in the set of the goal at first, and no round puts anything there
  have hsettled : (settle (reachRound (leadsOf book.goal book.first book.productions)) size
      (widen (Array.replicate size 0) s (oneTerminal book.goal))).getD book.goal 0 = 0 := by
    apply settle_induction (P := fun sets : Array Nat => sets.getD book.goal 0 = 0)
    · intro sets hsets
      rw [getD_reachRound hleads, hsets]
    · rw [getD_widen_of_ne hs, Array.getD_eq_getD_getElem?, Array.getElem?_replicate]
      split <;> rfl
  have hreach : book.reach = (List.range size).toArray.map fun s => Thunk.mk fun _ =>
      settle (reachRound (leadsOf book.goal book.first book.productions)) size
        (widen (Array.replicate size 0) s (oneTerminal book.goal)) := by
    rw [hbook, hsize]
    simp [ofDefinitions, symbols, entries]
  have hsets : ((book.reach[s]?.map Thunk.get).getD #[]).getD book.goal 0 = 0 := by
    rw [hreach, List.map_toArray, List.getElem?_toArray, List.getElem?_map]
    by_cases hlt : s < size
    · rw [List.getElem?_range hlt]
      exact hsettled
    · rw [List.getElem?_eq_none (by simpa using hlt)]
      rfl
  rw [reachOf, hsets]
  simp

end RuleBook

end DocBlocks
