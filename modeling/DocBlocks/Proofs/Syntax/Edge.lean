import DocBlocks.Proofs.Grammar.RuleBook
import DocBlocks.Proofs.Reading.Found
import DocBlocks.Proofs.Syntax.Build
import DocBlocks.Proofs.Token.Spelling

/-!
# The first and the last token of a phrase

The rules tell which tokens a phrase can begin and end with. They are checked for it as a list of
definitions (`EdgeSurvey`): the symbols at one end of certain phrases are phrases among them, or
terminals of a list. `EdgeSurvey.edge` carries the check over to all trees that are formed by the
rules and trimmed, and `Edge.exists_front` and `Edge.exists_back` say what text then stands at that
end.
-/

namespace DocBlocks

/-! ### Ends of lists -/

/-- An end of a list. -/
inductive Extremity where
  | front
  | back

/-- What stands at an end of a list. -/
def Extremity.of {α : Type} : Extremity → List α → Option α
  | front, l => l.head?
  | back, l => l.getLast?

namespace Extremity

@[simp]
theorem of_singleton {α : Type} (x : Extremity) (a : α) : x.of [a] = some a := by
  cases x <;> rfl

theorem exists_of_ne_nil {α : Type} (x : Extremity) {l : List α} (h : l ≠ []) :
    ∃ a ∈ l, x.of l = some a := by
  cases x with
  | front => exact ⟨l.head h, List.head_mem h, List.head?_eq_some_head h⟩
  | back => exact ⟨l.getLast h, List.getLast_mem h, List.getLast?_eq_some_getLast h⟩

theorem mem_of_eq_some {α : Type} (x : Extremity) {l : List α} {a : α} (h : x.of l = some a) :
    a ∈ l := by
  cases x with
  | front => exact List.mem_of_mem_head? h
  | back => exact List.mem_of_getLast? h

theorem exists_of_forall₂ {α β : Type} {R : α → β → Prop} (x : Extremity) {as : List α}
    {bs : List β} (h : List.Forall₂ R as bs) {b : β} (hb : x.of bs = some b) :
    ∃ a, x.of as = some a ∧ R a b := by
  cases x with
  | front =>
    cases h with
    | nil => simp [of] at hb
    | cons hab _ =>
      obtain rfl := Option.some.inj hb
      exact ⟨_, rfl, hab⟩
  | back =>
    have h := List.forall₂_reverse_iff.2 h
    simp only [of, ← List.head?_reverse] at hb ⊢
    generalize as.reverse = as at h ⊢
    generalize bs.reverse = bs at h hb
    cases h with
    | nil => simp at hb
    | cons hab _ =>
      obtain rfl := Option.some.inj hb
      exact ⟨_, rfl, hab⟩

end Extremity

/-- Trimmed trees have the same ends without their extras. -/
theorem Concrete.Trimmed.of_filter {cs : List Concrete} (h : Trimmed cs) (x : Extremity)
    {c : Concrete} (hc : x.of (cs.filter (!·.isExtra)) = some c) : x.of cs = some c := by
  cases x with
  | front =>
    cases cs with
    | nil => simp [Extremity.of] at hc
    | cons d ds =>
      have hd := h.1 d rfl
      rwa [List.filter_cons_of_pos (by simp [hd])] at hc
  | back =>
    rcases List.eq_nil_or_concat cs with rfl | ⟨ds, d, rfl⟩
    · simp [Extremity.of] at hc
    · have hd := h.2 d (by simp)
      simpa [Extremity.of, List.filter_append, hd] using hc

/-! ### A survey of ends -/

section Survey

variable (definitions : List Definition) (source : String) (x : Extremity)

/-- Whether a symbol is one of some phrases or terminals. -/
def Covered (phrases : List Symbol) (ts : List Terminal) (s : Symbol) : Prop :=
  s ∈ phrases ∨ ∃ t ∈ ts, s = .terminal t

instance (phrases : List Symbol) (ts : List Terminal) (s : Symbol) :
    Decidable (Covered phrases ts s) := by
  unfold Covered
  infer_instance

/-- A survey of rules that finds what stands at one end of certain phrases. -/
structure EdgeSurvey (phrases : List Symbol) (ts : List Terminal) : Prop where
  known : ∀ s ∈ phrases, s ∈ (RuleBook.entries definitions source).map (·.1)
  covered : ∀ e ∈ RuleBook.entries definitions source, e.1 ∈ phrases →
    ∀ w ∈ RuleBook.wordingsOf e, (x.of w.symbols).all fun p => Covered phrases ts p.symbol
  ends : .finish ∉ ts

/-- Whether the token at one end of a tree has one of some terminals. -/
inductive Edge (ts : List Terminal) : Concrete → Prop where
  | token {k : Nat} {t : Terminal} {gap text : String} : t ∈ ts →
      RuleBook.symbolAt? definitions source k = some (.terminal t) → Edge ts (.token k gap text)
  | phrase {q : Nat} {parts : List Concrete} {c : Concrete} : x.of parts = some c → Edge ts c →
      Edge ts (.phrase q parts)

end Survey

section Trees

variable {definitions : List Definition} {source : String} {x : Extremity}
variable {phrases : List Symbol} {ts : List Terminal}

theorem EdgeSurvey.mem_symbols (hv : EdgeSurvey definitions source x phrases ts)
    {e : Symbol × PhraseSort × Rule} (he : e ∈ RuleBook.entries definitions source)
    {w : Wording} (hw : w ∈ RuleBook.wordingsOf e) {p : Placed} (hp : p ∈ w.symbols)
    (hc : Covered phrases ts p.symbol) : p.symbol ∈ RuleBook.symbols definitions source := by
  rcases hc with hc | ⟨t, -, ht⟩
  · exact List.mem_append_right _ (hv.known _ hc)
  · exact RuleBook.terminal_mem_symbols he hw hp (by rw [ht]; rfl)

theorem EdgeSurvey.mem_of_entry {e : Symbol × PhraseSort × Rule}
    (he : e ∈ RuleBook.entries definitions source) (hc : Covered phrases ts e.1) :
    e.1 ∈ phrases := by
  rcases hc with hc | ⟨t, -, ht⟩
  · exact hc
  · have := RuleBook.isTerminal_fst_of_mem_entries he
    simp [ht, Symbol.isTerminal] at this

/-- A tree that fits a covered symbol has a covered symbol: what is passed over has one part. -/
theorem Covered.of_fits (hv : EdgeSurvey definitions source x phrases ts) {c : Concrete} {n : Nat}
    {s : Symbol} (hfits : Fits (.ofDefinitions definitions source) c n)
    (hn : RuleBook.symbolAt? definitions source n = some s) (h : Covered phrases ts s) :
    c.isExtra = false ∧ ∃ s', RuleBook.symbolAt? definitions source
        (c.symbol (.ofDefinitions definitions source)) = some s' ∧ Covered phrases ts s' := by
  refine RuleBook.exists_symbol_of_fits (fun e he _ h w hw p hp _ _ => ?_) hfits hn h
  have hcovered := hv.covered e he (EdgeSurvey.mem_of_entry he h) w hw
  rw [hp, Extremity.of_singleton, Option.all_some, decide_eq_true_eq] at hcovered
  exact ⟨hcovered, hv.mem_symbols he hw (by simp [hp]) hcovered⟩

/-- A token that was found is spelled as the terminal says that its number stands for. A number for
the end is all that is known of terminals that no rule uses. -/
theorem exists_terminal_of_foundBefore {k : Nat} {gap text : String} {after : List Char}
    (h : (Concrete.token k gap text).FoundBefore (.ofDefinitions definitions source) after) :
    ∃ t, RuleBook.symbolAt? definitions source k = some (.terminal t) ∧
      (t = .finish ∨ t.Spells gap.toList text.toList after) := by
  obtain ⟨accepts, labels, l, hl, htree, rfl⟩ := h
  simp only [Lexeme.tree] at htree
  split at htree
  · rename_i t rivals cs hfind
    obtain ⟨rfl, rfl, rfl⟩ := by simpa using htree
    cases hnumber : (RuleBook.ofDefinitions definitions source).number? t with
    | none => exact ⟨.finish, RuleBook.symbolAt?_zero, .inl rfl⟩
    | some k =>
      refine ⟨t, RuleBook.symbolAt?_of_number? hnumber, .inr ?_⟩
      simpa using nextLexeme?_spelled hl t rivals cs hfind
  · simp at htree
  · simp at htree

/-- **A tree of a covered symbol has a token of the list at its end.** -/
theorem EdgeSurvey.edge (hv : EdgeSurvey definitions source x phrases ts) {c : Concrete}
    {s : Symbol} {after : List Char} (hc : c.Formed (.ofDefinitions definitions source))
    (hread : c.Read (.ofDefinitions definitions source) after) (hextra : c.isExtra = false)
    (hs : RuleBook.symbolAt? definitions source
      (c.symbol (.ofDefinitions definitions source)) = some s)
    (h : Covered phrases ts s) : Edge definitions source x ts c := by
  induction c using Concrete.treeInduction generalizing s after with
  | token k gap text =>
    obtain ⟨t, ht, -⟩ := exists_terminal_of_foundBefore hread
    obtain rfl : Symbol.terminal t = s := Option.some.inj (ht.symm.trans hs)
    rcases h with h | ⟨t', ht', heq⟩
    · obtain ⟨e, he, hterminal⟩ := List.mem_map.1 (hv.known _ h)
      have := RuleBook.isTerminal_fst_of_mem_entries he
      simp [hterminal, Symbol.isTerminal] at this
    · obtain rfl := Symbol.terminal.inj heq
      exact .token ht' ht
  | comment gap text => simp [Concrete.isExtra] at hextra
  | island gap i => simp [Concrete.isExtra] at hextra
  | phrase q parts ih =>
    simp only [Concrete.Formed, Concrete.formedAll_iff] at hc
    obtain ⟨⟨r, hr, hfits⟩, hformed⟩ := hc
    obtain ⟨e, he, w, hw, hne, hhead, hbody, -⟩ := RuleBook.exists_wording hr
    obtain rfl : e.1 = s := by
      rw [Concrete.symbol_phrase hr, hhead,
        RuleBook.symbolAt?_number (RuleBook.fst_mem_symbols he)] at hs
      exact Option.some.inj hs
    -- the symbol at the end of the wording, and the tree there
    obtain ⟨p, hp, hpx⟩ := x.exists_of_ne_nil hne
    have hcovered := hv.covered e he (EdgeSurvey.mem_of_entry he h) w hw
    rw [hpx, Option.all_some, decide_eq_true_eq] at hcovered
    rw [hbody, List.forall₂_map_right_iff] at hfits
    obtain ⟨c, hcx, hfit⟩ := x.exists_of_forall₂ hfits hpx
    have hcx := hread.1.of_filter x hcx
    have hmem := x.mem_of_eq_some hcx
    obtain ⟨after', hread'⟩ := Concrete.exists_read_of_mem hread.2 hmem
    obtain ⟨hextra, s', hs', h'⟩ :=
      hcovered.of_fits hv hfit (RuleBook.symbolAt?_number (hv.mem_symbols he hw hp hcovered))
    exact .phrase hcx (ih c hmem (hformed c hmem) hread' hextra hs' h')

/-! ### The text at an end -/

/-- The text at the front of a tree. -/
theorem Edge.exists_front {c : Concrete} {after : List Char} (hends : .finish ∉ ts)
    (h : Edge definitions source .front ts c)
    (hread : c.Read (.ofDefinitions definitions source) after) :
    ∃ t ∈ ts, ∃ text rest after', c.text.toList = c.lead.toList ++ (text ++ rest) ∧
      t.Spells c.lead.toList text after' := by
  induction h generalizing after with
  | @token k t gap text ht hk =>
    obtain ⟨t', ht', hspells⟩ := exists_terminal_of_foundBefore hread
    obtain rfl : t = t' := by simpa [hk] using ht'
    rcases hspells with rfl | hspells
    · exact absurd ht hends
    · exact ⟨t, ht, text.toList, [], after, by simp [Concrete.text, Concrete.lead], hspells⟩
  | @phrase q parts c hc _ ih =>
    obtain ⟨cs, rfl⟩ : ∃ cs, parts = c :: cs := List.head?_eq_some_iff.1 hc
    obtain ⟨t, ht, text, rest, after', htext, hspells⟩ := ih hread.2.1
    refine ⟨t, ht, text, rest ++ (Concrete.textAll cs).toList, after', ?_, hspells⟩
    simp [Concrete.text, Concrete.textAll, Concrete.lead, htext]

/-- The text at the back of a tree. -/
theorem Edge.exists_back {c : Concrete} {after : List Char} (hends : .finish ∉ ts)
    (h : Edge definitions source .back ts c)
    (hread : c.Read (.ofDefinitions definitions source) after) :
    ∃ t ∈ ts, ∃ front gap text, c.text.toList = front ++ text ∧ t.Spells gap text after := by
  induction h generalizing after with
  | @token k t gap text ht hk =>
    obtain ⟨t', ht', hspells⟩ := exists_terminal_of_foundBefore hread
    obtain rfl : t = t' := by simpa [hk] using ht'
    rcases hspells with rfl | hspells
    · exact absurd ht hends
    · exact ⟨t, ht, gap.toList, gap.toList, text.toList, by simp [Concrete.text], hspells⟩
  | @phrase q parts c hc _ ih =>
    obtain ⟨cs, rfl⟩ : ∃ cs, parts = cs ++ [c] := List.getLast?_eq_some_iff.1 hc
    have hlast := (Concrete.readAll_append.1 hread.2).2.1
    obtain ⟨t, ht, front, gap, text, htext, hspells⟩ := ih hlast
    refine ⟨t, ht, (Concrete.textAll cs).toList ++ front, gap, text, ?_, hspells⟩
    simp [Concrete.text, Concrete.textAll, Concrete.textAll_append, htext]

end Trees

end DocBlocks
