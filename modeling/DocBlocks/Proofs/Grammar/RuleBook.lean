import DocBlocks.Proofs.Reading.Pile

/-!
# What a rule book holds

`RuleBook.ofDefinitions` numbers symbols and lowers rules to productions. Here the numbers are read
back: `symbolAt?_number` says which symbol a number stands for, `exists_wording` from which wording
a production comes, and `exists_entry_of_symbolAt?` what is known of a phrase.
`begunRight_ofDefinitions`: the productions listed for a symbol begin with it, which is what readers
need.
-/

namespace DocBlocks

/-! ### Tables -/

theorem mem_of_getElem?_insertMany {α β : Type} [BEq α] [LawfulBEq α] [Hashable α]
    {l : List (α × β)} {m : Std.HashMap α β} {k : α} {v : β} (h : (m.insertMany l)[k]? = some v) :
    (k, v) ∈ l ∨ m[k]? = some v := by
  induction l generalizing m with
  | nil => exact .inr (by simpa using h)
  | cons x l ih =>
    rw [Std.HashMap.insertMany_cons] at h
    rcases ih h with h | h
    · exact .inl (List.mem_cons_of_mem _ h)
    · rw [Std.HashMap.getElem?_insert] at h
      split at h
      · rename_i hk
        obtain rfl := Option.some.inj h
        obtain rfl := eq_of_beq hk
        exact .inl List.mem_cons_self
      · exact .inr h

/-- The number of a member of a list is a place where it stands. -/
theorem getElem?_numbering {symbols : List Symbol} {s : Symbol} (h : s ∈ symbols) :
    symbols[(numbering symbols).getD s 0]? = some s := by
  have hmem : s ∈ numbering symbols := by
    rw [numbering, Std.HashMap.mem_ofList, List.zipIdx_map_fst, List.contains_iff_mem]
    exact h
  obtain ⟨i, hi⟩ : ∃ i, (numbering symbols)[s]? = some i :=
    Option.isSome_iff_exists.1 (by rwa [Std.HashMap.isSome_getElem?_iff_mem])
  have hl : (s, i) ∈ symbols.zipIdx := by
    have hi' := hi
    rw [numbering, Std.HashMap.ofList_eq_insertMany_empty] at hi'
    rcases mem_of_getElem?_insertMany hi' with h | h
    · exact h
    · simp at h
  rw [Std.HashMap.getD_eq_getD_getElem?, hi, Option.getD_some]
  exact List.mem_zipIdx_iff_getElem?.1 hl

theorem mem_getD_modify {groups : Array (List Nat)} {k s i q : Nat}
    (h : q ∈ (groups.modify k (i :: ·)).getD s []) : (q = i ∧ k = s) ∨ q ∈ groups.getD s [] := by
  rw [Array.getD_eq_getD_getElem?, Array.getElem?_modify] at h
  rw [Array.getD_eq_getD_getElem?]
  split at h
  · rename_i hk
    cases hg : groups[s]? with
    | none => simp [hg] at h
    | some g =>
      rcases List.mem_cons.1 (by simpa [hg] using h) with rfl | h
      · exact .inl ⟨rfl, hk⟩
      · exact .inr h
  · exact .inr h

/-- The productions listed under a symbol begin with it. -/
theorem front_of_mem_groupByFront {size : Nat} {productions : Array Production} {s q : Nat}
    (h : q ∈ (groupByFront size productions).getD s []) :
    ∃ r, productions[q]? = some r ∧ r.body.getD 0 0 = s := by
  unfold groupByFront at h
  -- productions are put into their groups one after the other, each with its number
  suffices hr : ∃ r, (r, q) ∈ productions.toList.zipIdx ∧ r.body.getD 0 0 = s by
    obtain ⟨r, hr, hs⟩ := hr
    exact ⟨r, by simpa using List.mem_zipIdx_iff_getElem?.1 hr, hs⟩
  generalize productions.toList.zipIdx = l at h
  induction l with
  | nil =>
    rw [List.foldr_nil, Array.getD_eq_getD_getElem?, Array.getElem?_replicate] at h
    split at h <;> simp at h
  | cons x l ih =>
    rcases mem_getD_modify h with ⟨rfl, hs⟩ | h
    · exact ⟨x.1, List.mem_cons_self, hs⟩
    · obtain ⟨r, hr, hs⟩ := ih h
      exact ⟨r, List.mem_cons_of_mem _ hr, hs⟩

/-- Whether a symbol is a terminal. -/
def Symbol.isTerminal : Symbol → Bool
  | terminal _ => true
  | _ => false

theorem Symbol.exists_terminal {s : Symbol} (h : s.isTerminal = true) : ∃ t, s = .terminal t := by
  cases s with
  | terminal t => exact ⟨t, rfl⟩
  | phrase n => simp [isTerminal] at h
  | series r => simp [isTerminal] at h

namespace Rule

/-- The terminals of a wording are terminals of its rule. -/
theorem mem_terminals_of_mem_wordings {r : Rule} {w : Wording} {p : Placed} {t : Terminal}
    (hw : w ∈ r.wordings) (hp : p ∈ w.symbols) (ht : p.symbol = .terminal t) :
    t ∈ r.terminals := by
  induction r generalizing w p with
  | empty =>
    obtain rfl := List.mem_singleton.1 hw
    simp [Wording.plain] at hp
  | token t' =>
    obtain rfl := List.mem_singleton.1 hw
    obtain rfl : p = .plain (.terminal t') := by simpa [Wording.plain] using hp
    simpa [Placed.plain, terminals, eq_comm] using ht
  | rule n =>
    obtain rfl := List.mem_singleton.1 hw
    obtain rfl : p = .plain (.phrase n) := by simpa [Wording.plain] using hp
    simp [Placed.plain] at ht
  | series r ih =>
    obtain rfl := List.mem_singleton.1 hw
    obtain rfl : p = .plain (.series r) := by simpa [Wording.plain] using hp
    simp [Placed.plain] at ht
  | followed a b iha ihb =>
    simp only [wordings, List.mem_flatMap, List.mem_map] at hw
    obtain ⟨x, hx, y, hy, rfl⟩ := hw
    rcases List.mem_append.1 hp with hp | hp
    · exact List.mem_append_left _ (iha hx hp ht)
    · exact List.mem_append_right _ (ihb hy hp ht)
  | either a b iha ihb =>
    rcases List.mem_append.1 hw with hw | hw
    · exact List.mem_append_left _ (iha hw hp ht)
    · exact List.mem_append_right _ (ihb hw hp ht)
  | ranked n s r ih =>
    obtain ⟨x, hx, rfl⟩ := List.mem_map.1 hw
    exact ih hx hp ht
  | reluctant r ih =>
    obtain ⟨x, hx, rfl⟩ := List.mem_map.1 hw
    exact ih hx hp ht
  | role n r ih =>
    obtain ⟨x, hx, rfl⟩ := List.mem_map.1 hw
    obtain ⟨p', hp', rfl⟩ := List.mem_map.1 hp
    exact ih hx hp' ht
  | shown g r ih =>
    obtain ⟨x, hx, rfl⟩ := List.mem_map.1 hw
    obtain ⟨p', hp', rfl⟩ := List.mem_map.1 hp
    exact ih hx hp' ht

/-- The terminals of a repeated part are terminals of the rule around it. -/
theorem terminals_subset_of_mem_repeated {r part : Rule} (h : part ∈ r.repeated) :
    part.terminals ⊆ r.terminals := by
  induction r with
  | empty => simp [repeated] at h
  | token t => simp [repeated] at h
  | rule n => simp [repeated] at h
  | followed a b iha ihb =>
    rcases List.mem_append.1 h with h | h
    · exact List.subset_append_of_subset_left _ (iha h)
    · exact List.subset_append_of_subset_right _ (ihb h)
  | either a b iha ihb =>
    rcases List.mem_append.1 h with h | h
    · exact List.subset_append_of_subset_left _ (iha h)
    · exact List.subset_append_of_subset_right _ (ihb h)
  | series r ih =>
    rcases List.mem_append.1 h with h | h
    · exact ih h
    · obtain rfl := List.mem_singleton.1 h
      exact List.Subset.refl _
  | ranked n s r ih => exact ih h
  | reluctant r ih => exact ih h
  | role n r ih => exact ih h
  | shown g r ih => exact ih h

end Rule

theorem Definition.body_of_repeated? {d : Definition} {r : Rule} (h : d.repeated? = some r) :
    d.body = .series r := by
  unfold repeated? at h
  split at h
  · rename_i hbody
    obtain rfl := Option.some.inj h
    exact hbody
  · simp at h

theorem mem_orderTerminals {definitions : List Definition} {t : Terminal}
    (h : t ∈ definitions.flatMap (·.body.terminals)) : t ∈ orderTerminals definitions := by
  have hfound : t ∈ (Terminal.finish :: .name :: .given :: .pause ::
      definitions.flatMap (·.body.terminals)).eraseDups := by
    simp only [List.mem_eraseDups, List.mem_cons]
    exact .inr (.inr (.inr (.inr h)))
  simp only [orderTerminals, List.mem_append, List.mem_filter]
  cases hcontext : t.needsContext
  · exact .inl ⟨hfound, by simp⟩
  · exact .inr ⟨hfound, by simp⟩

namespace RuleBook

variable {definitions : List Definition} {source : String}

/-! ### Symbols and their numbers -/

/-- The phrases of a rule book, each with its rule, the goal in front. -/
def entries (definitions : List Definition) (source : String) :
    List (Symbol × PhraseSort × Rule) :=
  phrasesOf (.node "" (.rule source) :: definitions)

/-- The symbols of a rule book in the order of their numbers. -/
def symbols (definitions : List Definition) (source : String) : List Symbol :=
  (orderTerminals definitions).map .terminal ++ (entries definitions source).map (·.1)

/-- The number of a symbol. -/
def number (definitions : List Definition) (source : String) (s : Symbol) : Nat :=
  (numbering (symbols definitions source)).getD s 0

/-- The symbol that a number stands for. -/
def symbolAt? (definitions : List Definition) (source : String) (n : Nat) : Option Symbol :=
  (symbols definitions source)[n]?

/-- The wordings of a phrase. A repetition is two of the same, or one part. -/
def wordingsOf (e : Symbol × PhraseSort × Rule) : List Wording :=
  (if e.2.1.repeats then [Wording.plain [.plain e.1, .plain e.1]] else []) ++ e.2.2.wordings

theorem symbolAt?_number {s : Symbol} (h : s ∈ symbols definitions source) :
    symbolAt? definitions source (number definitions source s) = some s :=
  getElem?_numbering h

/-- A number that a book gives a terminal stands for it. -/
theorem symbolAt?_of_number? {t : Terminal} {n : Nat}
    (h : (ofDefinitions definitions source).number? t = some n) :
    symbolAt? definitions source n = some (.terminal t) := by
  have hnumber : (Std.HashMap.ofList (orderTerminals definitions).zipIdx)[t]? = some n := h
  rw [Std.HashMap.ofList_eq_insertMany_empty] at hnumber
  rcases mem_of_getElem?_insertMany hnumber with hmem | hmem
  · have hget := List.mem_zipIdx_iff_getElem?.1 hmem
    have hlt : n < (orderTerminals definitions).length := (List.getElem?_eq_some_iff.1 hget).1
    rw [symbolAt?, symbols, List.getElem?_append_left (by simpa using hlt), List.getElem?_map, hget]
    rfl
  · simp at hmem

/-- The first symbol is the end. -/
theorem symbolAt?_zero : symbolAt? definitions source 0 = some (.terminal .finish) := by
  have hfirst : ∃ ts, orderTerminals definitions = .finish :: ts := by
    rw [orderTerminals, List.eraseDups_cons, List.filter_cons_of_pos (by decide)]
    exact ⟨_, rfl⟩
  obtain ⟨ts, hts⟩ := hfirst
  simp [symbolAt?, symbols, hts]

theorem fst_mem_symbols {e : Symbol × PhraseSort × Rule} (h : e ∈ entries definitions source) :
    e.1 ∈ symbols definitions source :=
  List.mem_append_right _ (List.mem_map_of_mem h)

/-- What a book knows of a number that stands for a phrase is what an entry of that phrase says. -/
theorem exists_entry_of_symbolAt? {n : Nat} {s : Symbol}
    (h : symbolAt? definitions source n = some s) (hs : s.isTerminal = false) :
    ∃ e ∈ entries definitions source, e.1 = s ∧
      (ofDefinitions definitions source).guiseOf n = e.2.1.guise ∧
      (ofDefinitions definitions source).isSplice n = (e.2.1.display == .splice) := by
  have hterminals : (ofDefinitions definitions source).terminals =
      (orderTerminals definitions).toArray := rfl
  have hphrases : (ofDefinitions definitions source).phrases =
      ((entries definitions source).map (·.2.1)).toArray := rfl
  unfold symbolAt? symbols at h
  -- terminals have the small numbers, phrases those behind them
  by_cases hn : n < (orderTerminals definitions).length
  · rw [List.getElem?_append_left (by simpa using hn), List.getElem?_map] at h
    obtain ⟨t, -, rfl⟩ := Option.map_eq_some_iff.1 h
    simp [Symbol.isTerminal] at hs
  · rw [List.getElem?_append_right (by simpa using hn), List.length_map, List.getElem?_map] at h
    obtain ⟨e, he, rfl⟩ := Option.map_eq_some_iff.1 h
    have hphrase : (ofDefinitions definitions source).phrase? n = some e.2.1 := by
      simp [phrase?, hterminals, hphrases, he]
    refine ⟨e, List.mem_of_getElem? he, rfl, ?_, ?_⟩
    · simp [guiseOf, hterminals, hphrase, hn]
    · simp [isSplice, isTerminal, hterminals, hphrase, hn]

theorem isTerminal_fst_of_mem_entries {e : Symbol × PhraseSort × Rule}
    (h : e ∈ entries definitions source) : e.1.isTerminal = false := by
  simp only [entries, phrasesOf, List.mem_append, List.mem_map] at h
  rcases h with ⟨d, -, rfl⟩ | ⟨r, -, rfl⟩ <;> rfl

/-- A number that stands for a terminal shows as the terminal does. -/
theorem guiseOf_terminal {n : Nat} {t : Terminal}
    (h : symbolAt? definitions source n = some (.terminal t)) :
    t ∈ orderTerminals definitions ∧ (ofDefinitions definitions source).guiseOf n = t.guise := by
  have hterminals : (ofDefinitions definitions source).terminals =
      (orderTerminals definitions).toArray := rfl
  unfold symbolAt? symbols at h
  by_cases hn : n < (orderTerminals definitions).length
  · rw [List.getElem?_append_left (by simpa using hn), List.getElem?_map] at h
    obtain ⟨t', ht, heq⟩ := Option.map_eq_some_iff.1 h
    obtain rfl := Symbol.terminal.inj heq
    exact ⟨List.mem_of_getElem? ht, by simp [guiseOf, hterminals, ht]⟩
  · rw [List.getElem?_append_right (by simpa using hn)] at h
    obtain ⟨e, he, heq⟩ := List.mem_map.1 (List.mem_of_getElem? h)
    have := isTerminal_fst_of_mem_entries he
    simp [heq, Symbol.isTerminal] at this

/-- The terminals of an entry are those of the definitions. -/
theorem mem_terminals_of_mem_entries {e : Symbol × PhraseSort × Rule}
    (he : e ∈ entries definitions source) {t : Terminal} (ht : t ∈ e.2.2.terminals) :
    t ∈ definitions.flatMap (·.body.terminals) := by
  -- the goal in front of the definitions has no terminals
  suffices h : t ∈ (Definition.node "" (.rule source) :: definitions).flatMap (·.body.terminals) by
    simpa [Definition.node, Rule.terminals] using h
  simp only [entries, phrasesOf, List.mem_append, List.mem_map, List.mem_eraseDups,
    List.mem_flatMap] at he
  rw [List.mem_flatMap]
  rcases he with ⟨d, hd, rfl⟩ | ⟨r, ⟨d, hd, hr⟩, rfl⟩
  · refine ⟨d, hd, ?_⟩
    cases hrep : d.repeated? with
    | none => simpa [hrep] using ht
    | some r => simpa [hrep, Definition.body_of_repeated? hrep, Rule.terminals] using ht
  · refine ⟨d, hd, ?_⟩
    cases hrep : d.repeated? with
    | none => exact Rule.terminals_subset_of_mem_repeated (by simpa [hrep] using hr) ht
    | some r' =>
      have hr' : r ∈ r'.repeated := by simpa [hrep] using hr
      rw [Definition.body_of_repeated? hrep]
      exact Rule.terminals_subset_of_mem_repeated hr' ht

/-! ### Productions and their wordings -/

/-- **A production comes from a wording of its phrase.** -/
theorem exists_wording {q : Nat} {r : Production}
    (h : (ofDefinitions definitions source).productions[q]? = some r) :
    ∃ e ∈ entries definitions source, ∃ w ∈ wordingsOf e, w.symbols ≠ [] ∧
      r.head = number definitions source e.1 ∧
      r.body.toList = w.symbols.map (fun p => number definitions source p.symbol) ∧
      r.posts = w.symbols.map fun p => ⟨p.role?, p.guise?⟩ := by
  have hmem : r ∈ (entries definitions source).flatMap fun e =>
      productionsOf (numbering (symbols definitions source)) e.1 e.2.1.repeats e.2.2 := by
    have h := Array.mem_of_getElem? h
    simpa [ofDefinitions, entries, symbols] using h
  obtain ⟨e, he, hr⟩ := List.mem_flatMap.1 hmem
  simp only [productionsOf, List.mem_map, List.mem_filter, List.mem_eraseDups] at hr
  obtain ⟨w, ⟨hw, hne⟩, rfl⟩ := hr
  exact ⟨e, he, w, hw, by simpa using hne, rfl, rfl, rfl⟩

/-- A production that only passes over one symbol comes from a wording that is this symbol, without
a role and without a guise. -/
theorem exists_wording_of_unit {q m : Nat} {r : Production}
    (h : (ofDefinitions definitions source).productions[q]? = some r) (hbody : r.body = #[m])
    (hposts : r.posts = [.plain]) :
    ∃ e ∈ entries definitions source, symbolAt? definitions source r.head = some e.1 ∧
      ∃ w ∈ wordingsOf e, ∃ p, w.symbols = [p] ∧ m = number definitions source p.symbol ∧
        p.role? = none ∧ p.guise? = none := by
  obtain ⟨e, he, w, hw, -, hhead, hbody', hposts'⟩ := exists_wording h
  obtain ⟨p, hp⟩ : ∃ p, w.symbols = [p] := by
    rw [← List.length_eq_one_iff, ← List.length_map, ← hbody', hbody]
    rfl
  refine ⟨e, he, ?_, w, hw, p, hp, ?_, ?_⟩
  · rw [hhead, symbolAt?_number (fst_mem_symbols he)]
  · simpa [hbody, hp] using hbody'
  · simpa [hposts, hp, Post.plain, eq_comm] using hposts'

/-- **The terminals of a book's wordings have numbers.** -/
theorem terminal_mem_symbols {e : Symbol × PhraseSort × Rule} (he : e ∈ entries definitions source)
    {w : Wording} (hw : w ∈ wordingsOf e) {p : Placed} (hp : p ∈ w.symbols)
    (hs : p.symbol.isTerminal = true) : p.symbol ∈ symbols definitions source := by
  obtain ⟨t, ht⟩ := Symbol.exists_terminal hs
  have hbody : t ∈ e.2.2.terminals := by
    rcases List.mem_append.1 hw with hw | hw
    · -- the wording of a repetition by itself has no terminal
      split at hw
      · obtain rfl := List.mem_singleton.1 hw
        obtain rfl : p = .plain e.1 := by simpa [Wording.plain] using hp
        have := isTerminal_fst_of_mem_entries he
        simp [Placed.plain, this] at hs
      · simp at hw
    · exact Rule.mem_terminals_of_mem_wordings hw hp ht
  rw [ht]
  refine List.mem_append_left _ (List.mem_map_of_mem ?_)
  exact mem_orderTerminals (mem_terminals_of_mem_entries he hbody)

/-- **A tree that fits a symbol of a sort has a symbol of the sort**, if phrases that are passed
over, which never show as nodes, hand the sort on to the one part they have. -/
theorem exists_symbol_of_fits {P : Symbol → Prop}
    (hpart : ∀ e ∈ entries definitions source,
      (∃ e' ∈ entries definitions source, e'.1 = e.1 ∧ e'.2.1.guise = .hidden) → P e.1 →
      ∀ w ∈ wordingsOf e, ∀ p, w.symbols = [p] → p.role? = none → p.guise? = none →
        P p.symbol ∧ p.symbol ∈ symbols definitions source)
    {c : Concrete} {n : Nat} {s : Symbol} (hfits : Fits (ofDefinitions definitions source) c n)
    (hn : symbolAt? definitions source n = some s) (h : P s) :
    c.isExtra = false ∧ ∃ s',
      symbolAt? definitions source (c.symbol (ofDefinitions definitions source)) = some s' ∧
        P s' := by
  induction hfits generalizing s with
  | here hc => exact ⟨hc, s, hn, h⟩
  | @unit q r m hm hr hbody hposts hsplice ih =>
    obtain ⟨e, he, hhead, w, hw, p, hp, rfl, hrole, hguise⟩ :=
      exists_wording_of_unit hr hbody hposts
    obtain rfl := Option.some.inj (hhead.symm.trans hn)
    have hhidden : ∃ e' ∈ entries definitions source, e'.1 = e.1 ∧ e'.2.1.guise = .hidden := by
      obtain ⟨e', he', hee, -, hs⟩ :=
        exists_entry_of_symbolAt? hhead (isTerminal_fst_of_mem_entries he)
      rw [hsplice, eq_comm, beq_iff_eq] at hs
      exact ⟨e', he', hee, by simp [PhraseSort.guise, hs]⟩
    obtain ⟨hP, hmem⟩ := hpart e he hhidden h w hw p hp hrole hguise
    exact ih (symbolAt?_number hmem) hP

/-- Only its own symbol stands for the number of a symbol, or the end does, if it has no number. -/
theorem eq_of_symbolAt?_number {s t : Symbol}
    (h : symbolAt? definitions source (number definitions source s) = some t) :
    t = s ∨ t = .terminal .finish := by
  by_cases hmem : s ∈ symbols definitions source
  · rw [symbolAt?_number hmem] at h
    exact .inl (Option.some.inj h).symm
  · have hzero : number definitions source s = 0 := by
      apply Std.HashMap.getD_eq_fallback
      rw [numbering, Std.HashMap.mem_ofList, List.zipIdx_map_fst, List.contains_iff_mem]
      exact hmem
    rw [hzero, symbolAt?_zero] at h
    exact .inr (Option.some.inj h).symm

/-- **A symbol that a tree of a sort fits is of the sort**, if phrases that are passed over have the
sort of the one part they have. -/
theorem sort_of_fits {Q : Symbol → Prop} (hfinish : ¬ Q (.terminal .finish))
    (hpart : ∀ e ∈ entries definitions source,
      (∃ e' ∈ entries definitions source, e'.1 = e.1 ∧ e'.2.1.guise = .hidden) →
      ∀ w ∈ wordingsOf e, ∀ p, w.symbols = [p] → Q p.symbol → Q e.1)
    {c : Concrete} {s t : Symbol}
    (hfits : Fits (ofDefinitions definitions source) c (number definitions source s))
    (hc : symbolAt? definitions source (c.symbol (ofDefinitions definitions source)) = some t)
    (ht : Q t) : Q s := by
  have hown : ∀ {s t : Symbol},
      symbolAt? definitions source (number definitions source s) = some t → Q t → Q s := by
    intro s t hs ht
    rcases eq_of_symbolAt?_number hs with rfl | rfl
    · exact ht
    · exact absurd ht hfinish
  suffices hsort : ∃ s', symbolAt? definitions source (number definitions source s) = some s' ∧
      Q s' by
    obtain ⟨s', hs', h⟩ := hsort
    exact hown hs' h
  generalize number definitions source s = n at hfits
  induction hfits with
  | here _ => exact ⟨t, hc, ht⟩
  | @unit q r m _ hr hbody hposts hsplice ih =>
    obtain ⟨e, he, hhead, w, hw, p, hp, rfl, -, -⟩ := exists_wording_of_unit hr hbody hposts
    obtain ⟨s', hs', h⟩ := ih
    obtain ⟨e', he', hee, -, hs⟩ :=
      exists_entry_of_symbolAt? hhead (isTerminal_fst_of_mem_entries he)
    rw [hsplice, eq_comm, beq_iff_eq] at hs
    have hhidden : e'.2.1.guise = .hidden := by simp [PhraseSort.guise, hs]
    exact ⟨e.1, hhead, hpart e he ⟨e', he', hee, hhidden⟩ w hw p hp (hown hs' h)⟩

/-- **The productions that a book lists for a symbol begin with it.** -/
theorem begunRight_ofDefinitions (definitions : List Definition) (source : String) :
    (ofDefinitions definitions source).BegunRight := by
  intro s q r hq hr
  obtain ⟨r', hr', hs⟩ := front_of_mem_groupByFront hq
  obtain rfl : r' = r := Option.some.inj (hr'.symm.trans hr)
  obtain ⟨e, -, w, -, hne, -, hbody, -⟩ := exists_wording hr
  have hpos : 0 < r'.body.size := by
    rw [← Array.length_toList, hbody, List.length_map]
    exact List.length_pos_iff.2 hne
  rw [Array.getElem?_eq_getElem hpos, ← hs, Array.getD_eq_getD_getElem?,
    Array.getElem?_eq_getElem hpos, Option.getD_some]

theorem begunRight_sourceRules : sourceRules.BegunRight :=
  begunRight_ofDefinitions _ _

end RuleBook

end DocBlocks
