import DocBlocks.Proofs.Grammar.RuleBook
import DocBlocks.Proofs.Reading.Reader

/-!
# Putting phrases together comes to an end

A reader has a number of rounds for the phrases that it puts together in front of a terminal
(`Bundle.fuel`). `takeIn_eq_of_mem_after` and `complete_eq_of_mem_after`: more rounds change
nothing, for any reader of any source. So a source is turned down only because no rule fits it.

Each round brings the room of a pile down (`Pile.room_lt`): a phrase of several trees takes trees
away, and a phrase of one tree ranks above it (`RuleBook.Ranked`), so only so many of them are put
on top of each other.
-/

namespace DocBlocks

/-! ### Ranks -/

/-- Whether symbols rank so that a phrase of one symbol ranks above it. -/
structure RuleBook.Ranked (book : RuleBook) (rank : Nat → Nat) : Prop where
  size_pos : ∀ {q : Nat} {r : Production}, book.productions[q]? = some r → 0 < r.body.size
  rank_lt : ∀ {q : Nat} {r : Production} {s : Nat}, book.productions[q]? = some r →
    r.body = #[s] → rank s < rank r.head
  rank_le : ∀ s, rank s ≤ book.phrases.size

variable {book : RuleBook} {rank : Nat → Nat}

/-- A tree ranks no higher than a symbol that it fits. -/
theorem RuleBook.Ranked.rank_symbol_le (hbook : book.Ranked rank) {c : Concrete} {s : Nat}
    (h : Fits book c s) : rank (c.symbol book) ≤ rank s := by
  induction h with
  | here => exact Nat.le_refl _
  | unit _ hr hbody _ _ ih => exact ih.trans (hbook.rank_lt hr hbody).le

/-! ### The room of a pile -/

namespace Pile

/-- What is left to be done on a pile without another terminal: all ranks for each tree that is no
extra, but those that the tree on top has gone through. -/
def room (book : RuleBook) (rank : Nat → Nat) (p : Pile) : Nat :=
  (core p).length * (book.phrases.size + 1) - (core p).head?.elim 0 fun c => rank (c.symbol book)

theorem core_pushAll {p : Pile} {cs : List Concrete} {s : State} (h : ∀ c ∈ cs, c.isExtra = true) :
    core (p.pushAll cs s) = core p := by
  have hextras : cs.filter (!·.isExtra) = [] := by simpa [List.filter_eq_nil_iff] using h
  rw [pushAll_eq, core_append]
  simp [core, List.map_reverse, List.filter_reverse, Function.comp_def, hextras]

/-- What a phrase does to the trees that are no extras: some of them, which fit its production,
become one. -/
theorem exists_core_of_reduce? {p p' : Pile} {q t : Nat} (hp : Formed book p)
    (hq : q ∈ (book.moves p.state t).reductions) (h : reduce? book p q = some p') :
    ∃ r front popped rest, book.productions[q]? = some r ∧ core p = popped ++ rest ∧
      popped.length = r.body.size ∧ List.Forall₂ (Fits book) popped.reverse r.body.toList ∧
      core p' = .phrase q front :: rest := by
  obtain ⟨r, popped, rest, front, extras, s, hr, rfl, -, hextras, hsize, -, rfl⟩ :=
    reduce?_eq_some h
  obtain ⟨hle, hfits⟩ := hp.fits_of_mem_reductions hq hr
  have hpopped := (hsize hle).1
  rw [core_append, ← hpopped, List.take_left] at hfits
  refine ⟨r, front, core popped, core rest, hr, core_append .., hpopped, hfits, ?_⟩
  rw [core_pushAll hextras, core_cons]
  rfl

/-- **A phrase that is put together takes room.** -/
theorem room_lt (hbook : book.Ranked rank) {p p' : Pile} {q t : Nat} (hp : Formed book p)
    (hq : q ∈ (book.moves p.state t).reductions) (h : reduce? book p q = some p') :
    room book rank p' < room book rank p := by
  obtain ⟨r, front, popped, rest, hr, hcore, hlength, hfits, hcore'⟩ :=
    exists_core_of_reduce? hp hq h
  have hhead := hbook.rank_le r.head
  obtain ⟨c, cs, rfl⟩ := List.exists_cons_of_length_pos (hlength ▸ hbook.size_pos hr)
  have hfull : book.phrases.size + 1 ≤ (rest.length + 1) * (book.phrases.size + 1) :=
    Nat.le_mul_of_pos_left _ (Nat.succ_pos _)
  rw [room, room, hcore, hcore', List.length_append, hlength, List.cons_append, List.head?_cons,
    List.head?_cons, Option.elim_some, Option.elim_some, Concrete.symbol_phrase hr,
    List.length_cons]
  by_cases hone : r.body.size = 1
  · -- the phrase ranks above the only tree it has
    obtain ⟨m, hbody⟩ := Array.size_eq_one_iff.1 hone
    obtain rfl : cs = [] := by simpa [hone] using hlength
    have hfit : Fits book c m := by simpa [hbody] using hfits
    have hrank := (hbook.rank_symbol_le hfit).trans_lt (hbook.rank_lt hr hbody)
    rw [hone, Nat.add_comm 1]
    omega
  · -- a tree less is more than all ranks
    have htop := hbook.rank_le (c.symbol book)
    have hsize := hbook.size_pos hr
    have hless : (rest.length + 1 + 1) * (book.phrases.size + 1) ≤
        (r.body.size + rest.length) * (book.phrases.size + 1) :=
      Nat.mul_le_mul_right _ (by omega)
    rw [Nat.add_mul _ 1, Nat.one_mul] at hless
    omega

/-- Putting phrases together makes a pile no higher. -/
theorem Rebuilt.length_core_le (hb : book.BegunRight) (hbook : book.Ranked rank) {t : Nat}
    {p p' : Pile} (h : Rebuilt book t p p') (hp : Formed book p) :
    (core p').length ≤ (core p).length := by
  induction h with
  | refl => exact Nat.le_refl _
  | @step p₁ p₂ q hrebuilt hq hreduce ih =>
    obtain ⟨r, front, popped, rest, hr, hcore, hlength, -, hcore'⟩ :=
      exists_core_of_reduce? (hrebuilt.formed hb hp) hq hreduce
    have hsize := hbook.size_pos hr
    rw [hcore, List.length_append] at ih
    rw [hcore', List.length_cons]
    omega

/-- A lexeme makes a pile higher by no more than one tree. -/
theorem Follows.length_core_le (hb : book.BegunRight) (hbook : book.Ranked rank) {l : Lexeme}
    {p p' : Pile} (h : p.Follows book l p') (hp : Formed book p) :
    (core p').length ≤ (core p).length + 1 := by
  cases h with
  | token hfind hrebuilt hs =>
    have hle := hrebuilt.length_core_le hb hbook hp
    rw [core_cons]
    split_ifs
    · omega
    · rw [List.length_cons]
      omega
  | extra hextra =>
    rw [core_cons, if_pos hextra]
    omega

end Pile

/-! ### Rounds in front of a terminal -/

namespace Bundle

/-- A bundle has piles. -/
theorem piles_ne_nil : ∀ b : Bundle, b.piles ≠ []
  | .ground => by simp [piles]
  | .joint s _ (.one c b) => by simpa [piles, strandPiles] using piles_ne_nil b
  | .joint s _ (.more c b others) => by simp [piles, strandPiles, piles_ne_nil b]

/-- Whether the piles of some bundles follow the rules and have less room than a number of rounds.
-/
def Settle (book : RuleBook) (rank : Nat → Nat) (n : Nat) (bs : List Bundle) : Prop :=
  ∀ b ∈ bs, ∀ p ∈ b.piles, Pile.Formed book p ∧ p.room book rank < n

variable {bs : List Bundle} {n : Nat}

theorem Settle.eq_nil (h : Settle book rank 0 bs) : bs = [] := by
  rw [List.eq_nil_iff_forall_not_mem]
  intro b hb
  obtain ⟨p, hp⟩ := List.exists_mem_of_ne_nil _ b.piles_ne_nil
  exact absurd (h b hb p hp).2 (Nat.not_lt_zero _)

/-- **A round leaves one round less to be done.** -/
theorem Settle.reduceAll (hb : book.BegunRight) (hbook : book.Ranked rank)
    (h : Settle book rank (n + 1) bs) (byte t : Nat) :
    Settle book rank n (reduceAll book byte t bs) := by
  intro b' hb' p' hp'
  obtain ⟨b, hmem, p, hp, q, hq, hreduce⟩ := exists_reduce?_of_mem_reduceAll hb' hp'
  obtain ⟨hformed, hroom⟩ := h b hmem p hp
  have hlt := Pile.room_lt hbook hformed hq hreduce
  exact ⟨hformed.reduce? hb hq hreduce, by omega⟩

theorem takeIn_nil {t front back fuel : Nat} {c : Concrete} :
    takeIn book t c front back fuel [] = [] := by
  cases fuel <;> rfl

theorem complete_nil {byte fuel : Nat} : complete book byte fuel [] = [] := by
  cases fuel <;> rfl

theorem Settle.takeIn_eq (hb : book.BegunRight) (hbook : book.Ranked rank)
    (h : Settle book rank n bs) (t front back : Nat) (c : Concrete) (more : Nat) :
    takeIn book t c front back (n + more) bs = takeIn book t c front back n bs := by
  induction n generalizing bs with
  | zero => rw [h.eq_nil, takeIn_nil, takeIn_nil]
  | succ n ih =>
    rw [Nat.add_right_comm]
    cases bs with
    | nil => rw [takeIn_nil, takeIn_nil]
    | cons b bs =>
      rw [takeIn, takeIn, ih (h.reduceAll hb hbook front t)]
      all_goals simp

theorem Settle.complete_eq (hb : book.BegunRight) (hbook : book.Ranked rank)
    (h : Settle book rank n bs) (byte more : Nat) :
    complete book byte (n + more) bs = complete book byte n bs := by
  induction n generalizing bs with
  | zero => rw [h.eq_nil, complete_nil, complete_nil]
  | succ n ih =>
    rw [Nat.add_right_comm]
    cases bs with
    | nil => rw [complete_nil, complete_nil]
    | cons b bs =>
      have hopen : Settle book rank (n + 1)
          ((b :: bs).filter (not ∘ fun b => (book.moves b.state 0).accepts)) :=
        fun c hc => h c (List.mem_filter.1 hc).1
      simp only [complete, List.partition_eq_filter_filter]
      rw [ih (hopen.reduceAll hb hbook byte 0)]

end Bundle

namespace Reader

variable {source : String} {r : Reader}

/-- Whether the piles of a reader follow the rules, with no more trees than tokens have been taken
in. -/
def Bounded (book : RuleBook) (r : Reader) : Prop :=
  ∀ p ∈ r.bundle.piles, Pile.Formed book p ∧ p.core.length ≤ r.tokens

theorem Bounded.join {s : Reader} (hr : r.Bounded book) (hs : s.Bounded book)
    (h : r.isParallel s = true) : (r.join book s).Bounded book := by
  intro p hp
  rcases mem_piles_or_of_mem_join h hp with hp | hp
  · exact ⟨(hr p hp).1, (hr p hp).2.trans (Nat.le_max_left ..)⟩
  · exact ⟨(hs p hp).1, (hs p hp).2.trans (Nat.le_max_right ..)⟩

/-- **One lexeme makes the piles of a reader higher by no more than a tree.** -/
theorem Bounded.advance (hb : book.BegunRight) (hbook : book.Ranked rank) (h : r.Bounded book) :
    ∀ r' ∈ (r.advance book).readers, r'.Bounded book := by
  intro r' hr' p' hp'
  obtain ⟨l, -, -, -, htokens, hpiles⟩ := exists_of_mem_readers hr'
  obtain ⟨p, hp, hfollows⟩ := hpiles p' hp'
  obtain ⟨hformed, hlength⟩ := h p hp
  have hle := hfollows.length_core_le hb hbook hformed
  exact ⟨hfollows.formed hb hformed, by omega⟩

/-- The readers of a source after a number of rounds. -/
def after (book : RuleBook) (source : String) : Nat → List Reader
  | 0 => [.front source]
  | n + 1 => (round book (after book source n)).readers

theorem bounded_of_mem_after (hb : book.BegunRight) (hbook : book.Ranked rank) (n : Nat) :
    ∀ r ∈ after book source n, r.Bounded book := by
  induction n with
  | zero =>
    intro r hr p hp
    obtain rfl := List.mem_singleton.1 hr
    obtain rfl := List.mem_singleton.1 hp
    exact ⟨.nil, Nat.le_refl _⟩
  | succ n ih =>
    have hround := round_induction (Q := fun _ => True) (fun _ _ => Bounded.join)
      (fun _ hr => ⟨hr.advance hb hbook, fun _ _ => trivial⟩) ih
    exact hround.1

theorem Bounded.settle (h : r.Bounded book) :
    Bundle.Settle book rank (Bundle.fuel book r.tokens) [r.bundle] := by
  intro b hmem p hp
  obtain rfl := List.mem_singleton.1 hmem
  obtain ⟨hformed, hlength⟩ := h p hp
  refine ⟨hformed, ?_⟩
  have hle : p.core.length * (book.phrases.size + 1) ≤ r.tokens * (book.phrases.size + 1) :=
    Nat.mul_le_mul_right _ hlength
  rw [Pile.room, Bundle.fuel, Nat.add_mul, Nat.one_mul]
  omega

end Reader

/-! ### Ranks of the rules -/

namespace RuleBook

variable {definitions : List Definition} {source : String}

/-- A survey of rules that finds that a phrase of one symbol ranks above it. -/
structure RankSurvey (definitions : List Definition) (source : String) (rankOf : Symbol → Nat) :
    Prop where
  finish : rankOf (.terminal .finish) = 0
  rank_le : ∀ s, rankOf s ≤ (entries definitions source).length
  rank_lt : ∀ e ∈ entries definitions source, ∀ w ∈ wordingsOf e, w.symbols.length = 1 →
    ∀ p ∈ w.symbols, rankOf p.symbol < rankOf e.1

theorem RankSurvey.ranked {rankOf : Symbol → Nat} (hv : RankSurvey definitions source rankOf) :
    (ofDefinitions definitions source).Ranked
      fun n => (symbolAt? definitions source n).elim 0 rankOf where
  size_pos {q r} hr := by
    obtain ⟨e, he, w, hw, hne, -, hbody, -⟩ := exists_wording hr
    have hlength := congrArg List.length hbody
    have hpos := List.length_pos_of_ne_nil hne
    rw [Array.length_toList, List.length_map] at hlength
    omega
  rank_lt {q r s} hr hs := by
    obtain ⟨e, he, w, hw, -, hhead, hbody, -⟩ := exists_wording hr
    have hone : w.symbols.length = 1 := by
      rw [← List.length_map, ← hbody, hs]
      rfl
    obtain ⟨p, hp⟩ := List.length_eq_one_iff.1 hone
    obtain rfl : s = number definitions source p.symbol := by simpa [hs, hp] using hbody
    have hlt := hv.rank_lt e he w hw hone p (by simp [hp])
    rw [hhead, symbolAt?_number (fst_mem_symbols he), Option.elim_some]
    -- a symbol without a number shares that of the end, which ranks below all phrases
    cases ht : symbolAt? definitions source (number definitions source p.symbol) with
    | none => exact Nat.zero_lt_of_lt hlt
    | some t =>
      rcases eq_of_symbolAt?_number ht with rfl | rfl
      · exact hlt
      · rw [Option.elim_some, hv.finish]
        exact Nat.zero_lt_of_lt hlt
  rank_le n := by
    have hsize : (ofDefinitions definitions source).phrases.size =
        (entries definitions source).length := by
      simp [ofDefinitions, entries]
    rw [hsize]
    cases symbolAt? definitions source n with
    | none => exact Nat.zero_le _
    | some s => exact hv.rank_le s

/-- The phrases that rank above some phrase, from the lowest rank up. -/
def rankedPhrases : List (List String) :=
  [["", "statement", "static_variable_declaration", "namespace_use_clause", "path", "enum_member",
    "member", "modifier", "property_element", "property_hook_body", "simple_parameter",
    "list_literal", "template_index", "quoted", "simple_variable"],
   ["named_type", "literal", "class_variable", "callable_variable", "member_name", "attribute",
    "template_variable"],
   ["simple_type", "type_list", "primary_expression", "class_reference", "array_pattern_element",
    "callable_expression", "dereferencable_expression", "quoted_body", "heredoc_line",
    "command_body"],
   ["union_type", "intersection_type", "disjunctive_normal_form_type", "unary_expression", "scope"],
   ["type", "expression", "attribute_list"],
   ["expressions", "foreach_value", "match_condition_list", "argument",
    "array_element_initializer"]]

/-- How a symbol ranks: terminals lowest, and repetitions above all but a few phrases. -/
def sourceRank : Symbol → Nat
  | .terminal _ => 0
  | .phrase name => (rankedPhrases.findIdx? (·.contains name)).elim 1 (· + 2)
  | .series _ => 5

theorem sourceRank_le (s : Symbol) : sourceRank s ≤ 7 := by
  cases s with
  | terminal t => exact Nat.zero_le _
  | phrase name =>
    rw [sourceRank]
    cases h : rankedPhrases.findIdx? (·.contains name) with
    | none => simp
    | some i =>
      have hi := (List.findIdx?_eq_some_iff_findIdx_eq.1 h).1
      have hlength : rankedPhrases.length = 6 := rfl
      rw [Option.elim_some]
      omega
  | series r => simp [sourceRank]

theorem rankSurvey_sourceDefinitions : RankSurvey sourceDefinitions "program" sourceRank where
  finish := rfl
  rank_le s := (sourceRank_le s).trans (by decide +kernel)
  rank_lt := by decide +kernel

/-- **The rules of a source file rank.** -/
theorem ranked_sourceRules : sourceRules.Ranked
    fun n => (symbolAt? sourceDefinitions "program" n).elim 0 sourceRank :=
  rankSurvey_sourceDefinitions.ranked

end RuleBook

/-! ### Rounds are enough -/

namespace Reader

variable {source : String} {n : Nat} {r : Reader}

/-- **More rounds in front of a terminal change nothing.** -/
theorem takeIn_eq_of_mem_after (hr : r ∈ after sourceRules source n) (t front back : Nat)
    (c : Concrete) (more : Nat) :
    Bundle.takeIn sourceRules t c front back (Bundle.fuel sourceRules r.tokens + more) [r.bundle] =
      Bundle.takeIn sourceRules t c front back (Bundle.fuel sourceRules r.tokens) [r.bundle] :=
  have hbounded := bounded_of_mem_after RuleBook.begunRight_sourceRules RuleBook.ranked_sourceRules
    n r hr
  hbounded.settle.takeIn_eq RuleBook.begunRight_sourceRules
    RuleBook.ranked_sourceRules t front back c more

/-- **More rounds at the end of a source change nothing.** -/
theorem complete_eq_of_mem_after (hr : r ∈ after sourceRules source n) (byte more : Nat) :
    Bundle.complete sourceRules byte (Bundle.fuel sourceRules r.tokens + more) [r.bundle] =
      Bundle.complete sourceRules byte (Bundle.fuel sourceRules r.tokens) [r.bundle] :=
  have hbounded := bounded_of_mem_after RuleBook.begunRight_sourceRules RuleBook.ranked_sourceRules
    n r hr
  hbounded.settle.complete_eq RuleBook.begunRight_sourceRules
    RuleBook.ranked_sourceRules byte more

end Reader

end DocBlocks
