import DocBlocks.Reading.Pile
import Mathlib.Data.List.Forall2
import Mathlib.Data.List.TakeWhile

/-!
# What piles hold

What putting one phrase together does to one pile is `Pile.reduce?`, and a pile is rebuilt by any
number of such steps (`Pile.Rebuilt`).

* `Pile.Rebuilt.textAll_trees`: rebuilding leaves the text alone.
* `Pile.Rebuilt.formed`: every phrase on a pile is put together from trees that fit the symbols of
  its production. The invariant behind it is `Pile.Accounts`: an item of the state reached tells
  what the trees on top are.

A tree fits a symbol if it has this symbol, or if phrases of one symbol were passed over on the way
(`RuleBook.skipUnits`).
-/

namespace DocBlocks

/-! ### Trees that fit symbols -/

/-- Whether a tree can stand where a symbol is expected. -/
inductive Fits (book : RuleBook) (c : Concrete) : Nat → Prop where
  | here : c.isExtra = false → Fits book c (c.symbol book)
  | unit {q : Nat} {r : Production} {s : Nat} : Fits book c s → book.productions[q]? = some r →
      r.body = #[s] → r.posts = [.plain] → book.isSplice r.head = true → Fits book c r.head

namespace Concrete

mutual

/-- Whether every phrase of a tree is put together from trees that fit its production. -/
def Formed (book : RuleBook) : Concrete → Prop
  | token _ _ _ => True
  | comment _ _ => True
  | island _ _ => True
  | phrase p parts =>
    (∃ r, book.productions[p]? = some r ∧
      List.Forall₂ (Fits book) (parts.filter (!·.isExtra)) r.body.toList) ∧ FormedAll book parts

/-- Whether neighbouring trees are formed. -/
def FormedAll (book : RuleBook) : List Concrete → Prop
  | [] => True
  | c :: cs => c.Formed book ∧ FormedAll book cs

end

/-- Whether trees neither begin nor end with an extra. -/
def Trimmed (cs : List Concrete) : Prop :=
  (∀ c ∈ cs.head?, c.isExtra = false) ∧ ∀ c ∈ cs.getLast?, c.isExtra = false

/-- The symbol of a phrase is that of its production. -/
theorem symbol_phrase {book : RuleBook} {q : Nat} {r : Production}
    (h : book.productions[q]? = some r) (parts : List Concrete) :
    (phrase q parts).symbol book = r.head := by
  rw [symbol, h, Option.map_some, Option.getD_some]

theorem formedAll_iff {book : RuleBook} {cs : List Concrete} :
    FormedAll book cs ↔ ∀ c ∈ cs, c.Formed book := by
  induction cs with
  | nil => simp [FormedAll]
  | cons c cs ih => simp [FormedAll, ih]

end Concrete

namespace RuleBook

/-- Whether the productions that a book lists for a symbol begin with it. -/
def BegunRight (book : RuleBook) : Prop :=
  ∀ s q r, q ∈ book.begun.getD s [] → book.productions[q]? = some r → r.body[0]? = some s

/-- The items of a next state: the dot has moved over the symbol, or a production begins with it. -/
theorem mem_items_rawNext? {book : RuleBook} {s t : State} {sym : Nat} {i : Dotted}
    (h : book.rawNext? s sym = some t) (hi : i ∈ t.items) :
    (∃ j ∈ s.items, book.nextSymbol? j = some sym ∧ i = { j with dot := j.dot + 1 }) ∨
      (i.production ∈ book.begun.getD sym [] ∧ i.dot = 1) := by
  simp only [rawNext?] at h
  split at h
  · simp at h
  obtain rfl := Option.some.inj h
  rw [List.mem_mergeSort, List.mem_append, List.mem_filterMap, List.mem_filterMap] at hi
  rcases hi with ⟨j, hj, hi⟩ | ⟨q, hq, hi⟩
  · split at hi
    · rename_i hnext
      exact .inl ⟨j, hj, beq_iff_eq.1 hnext, (Option.some.inj hi).symm⟩
    · simp at hi
  · split at hi
    · simp at hi
    · obtain rfl := Option.some.inj hi
      exact .inr ⟨hq, rfl⟩

/-- A production is put together only where an item has its dot at the back. -/
theorem exists_item_of_mem_reductions {book : RuleBook} {s : State} {t q : Nat}
    (h : q ∈ (book.moves s t).reductions) :
    ∃ i ∈ s.items, i.production = q ∧ book.isComplete i = true := by
  have hmem : q ∈ (book.reducible s t).map Dotted.production := by
    simp only [moves] at h
    split at h
    · simp at h
    split at h
    · exact h
    · -- where taking in is possible as well, settling drops reductions or keeps them all
      simp only [settleMoves] at h
      repeat' split at h
      all_goals first | exact h | simp at h
  obtain ⟨i, hi, rfl⟩ := List.mem_map.1 hmem
  simp only [reducible, List.mem_filter, Bool.and_eq_true] at hi
  exact ⟨i, hi.1.1, rfl, hi.1.2.1⟩

end RuleBook

namespace Pile

/-! ### One phrase on one pile -/

/-- Takes trees off the top until as many as asked for are no extras. The trees come in order. -/
def pop : Nat → Pile → List Concrete → List Concrete × Pile
  | 0, p, trees => (trees, p)
  | _ + 1, [], trees => (trees, [])
  | n + 1, l :: p, trees =>
    if l.tree.isExtra then pop (n + 1) p (l.tree :: trees) else pop n p (l.tree :: trees)

/-- Puts trees on top that leave the state alone. -/
def pushAll (p : Pile) (trees : List Concrete) (state : State) : Pile :=
  trees.foldl (fun p t => ⟨t, state⟩ :: p) p

/-- Puts a phrase together from the trees on top. Extras behind the phrase stay outside. -/
def reduce? (book : RuleBook) (p : Pile) (production : Nat) : Option Pile := do
  let r ← book.productions[production]?
  let (trees, rest) := pop r.body.size p []
  let (trees, extras) := splitExtras trees
  let state ← book.next? (state rest) r.head
  pure (pushAll (⟨.phrase production trees, state⟩ :: rest) extras state)

/-- What phrases can make of a pile with a terminal ahead. -/
inductive Rebuilt (book : RuleBook) (terminal : Nat) (p : Pile) : Pile → Prop where
  | refl : Rebuilt book terminal p p
  | step {p₁ p₂ : Pile} {q : Nat} : Rebuilt book terminal p p₁ →
      q ∈ (book.moves (state p₁) terminal).reductions → reduce? book p₁ q = some p₂ →
      Rebuilt book terminal p p₂

theorem Rebuilt.trans {book : RuleBook} {t : Nat} {p q r : Pile} (h : Rebuilt book t p q)
    (h' : Rebuilt book t q r) : Rebuilt book t p r := by
  induction h' with
  | refl => exact h
  | step _ hq hreduce ih => exact .step ih hq hreduce

/-! ### Taking trees off and putting them back -/

/-- The trees of a pile that are no extras, its top first. -/
def core (p : Pile) : List Concrete := (p.map (·.tree)).filter (!·.isExtra)

@[simp]
theorem core_append (p q : Pile) : core (p ++ q) = core p ++ core q := by
  simp [core]

theorem core_cons (l : Layer) (p : Pile) :
    core (l :: p) = if l.tree.isExtra then core p else l.tree :: core p := by
  cases h : l.tree.isExtra <;> simp [core, h]

@[simp]
theorem trees_append (p q : Pile) : trees (p ++ q) = trees q ++ trees p := by
  simp [trees]

@[simp]
theorem trees_cons (l : Layer) (p : Pile) : trees (l :: p) = trees p ++ [l.tree] := by
  simp [trees]

theorem filter_trees (p : Pile) : (trees p).filter (!·.isExtra) = (core p).reverse := by
  simp [trees, core, List.filter_reverse]

/-- **Popping cuts a pile in two.** If there are trees enough, as many as asked for that are no
extras come off. -/
theorem pop_spec (n : Nat) (p : Pile) (acc : List Concrete) :
    ∃ popped rest, pop n p acc = (trees popped ++ acc, rest) ∧ p = popped ++ rest ∧
      (n ≤ (core p).length → (core popped).length = n) := by
  fun_induction pop n p acc with
  | case1 p acc => exact ⟨[], p, by simp [trees], rfl, by simp [core]⟩
  | case2 n acc => exact ⟨[], [], by simp [trees], rfl, by simp [core]⟩
  | case3 n l p acc hl ih =>
    obtain ⟨popped, rest, he, hp, hn⟩ := ih
    -- an extra comes off and does not count
    refine ⟨l :: popped, rest, by simp [he], by simp [hp], ?_⟩
    rw [core_cons, core_cons, if_pos hl, if_pos hl]
    exact hn
  | case4 n l p acc hl ih =>
    obtain ⟨popped, rest, he, hp, hn⟩ := ih
    refine ⟨l :: popped, rest, by simp [he], by simp [hp], ?_⟩
    rw [core_cons, core_cons, if_neg hl, if_neg hl, List.length_cons, List.length_cons]
    omega

/-- The first tree that comes off is no extra, if there are trees enough. -/
theorem head_pop {n : Nat} {p : Pile} (acc : List Concrete) (hn : 0 < n)
    (hlen : n ≤ (core p).length) :
    ∃ c cs, (pop n p acc).1 = c :: cs ∧ c.isExtra = false := by
  fun_induction pop n p acc with
  | case1 p acc => omega
  | case2 n acc => simp [core] at hlen
  | case3 n l p acc hl ih =>
    rw [core_cons, if_pos hl] at hlen
    exact ih hn hlen
  | case4 n l p acc hl ih =>
    rw [core_cons, if_neg hl, List.length_cons] at hlen
    cases n with
    | zero => exact ⟨l.tree, acc, by simp [pop], by simpa using hl⟩
    | succ n => exact ih (Nat.succ_pos n) (Nat.le_of_succ_le_succ hlen)

/-- Splitting off the extras at the end loses nothing. -/
theorem splitExtras_append (ts : List Concrete) :
    (splitExtras ts).1 ++ (splitExtras ts).2 = ts := by
  simp only [splitExtras]
  generalize hx : ts.reverse.takeWhile (·.isExtra) = xs
  have hs : xs.reverse <:+ ts := by
    have hp : xs <+: ts.reverse := hx ▸ List.takeWhile_prefix _
    simpa using List.reverse_suffix.2 hp
  obtain ⟨front, rfl⟩ := hs
  simp

theorem isExtra_of_mem_splitExtras {ts : List Concrete} {c : Concrete}
    (h : c ∈ (splitExtras ts).2) : c.isExtra = true := by
  simp only [splitExtras, List.mem_reverse] at h
  exact List.mem_takeWhile_imp h

/-- What is left without the extras at the end does not end with one. -/
theorem isExtra_getLast?_splitExtras (ts : List Concrete) :
    ∀ c ∈ (splitExtras ts).1.getLast?, c.isExtra = false := by
  have hfront : (splitExtras ts).1 = (ts.reverse.dropWhile (·.isExtra)).reverse := by
    have happend := splitExtras_append ts
    have hextras : (splitExtras ts).2 = (ts.reverse.takeWhile (·.isExtra)).reverse := rfl
    have hsplit : (ts.reverse.dropWhile (·.isExtra)).reverse ++ (splitExtras ts).2 = ts := by
      rw [hextras, ← List.reverse_append, List.takeWhile_append_dropWhile, List.reverse_reverse]
    exact List.append_cancel_right (happend.trans hsplit.symm)
  intro c hc
  rw [hfront, List.getLast?_reverse] at hc
  have hhead := List.head?_dropWhile_not (p := fun c : Concrete => c.isExtra) (l := ts.reverse)
  rw [Option.mem_def] at hc
  simpa [hc] using hhead

theorem pushAll_eq (p : Pile) (ts : List Concrete) (s : State) :
    pushAll p ts s = (ts.map (Layer.mk · s)).reverse ++ p := by
  induction ts generalizing p with
  | nil => rfl
  | cons t ts ih =>
    have h : pushAll p (t :: ts) s = pushAll (⟨t, s⟩ :: p) ts s := rfl
    rw [h, ih]
    simp

/-- What putting a phrase together does to a pile: the top of it becomes one tree, and the extras
behind the phrase stay on top. -/
theorem reduce?_eq_some {book : RuleBook} {p p' : Pile} {q : Nat} (h : reduce? book p q = some p') :
    ∃ r popped rest front extras s, book.productions[q]? = some r ∧ p = popped ++ rest ∧
      trees popped = front ++ extras ∧ (∀ c ∈ extras, c.isExtra = true) ∧
      (r.body.size ≤ (core p).length →
        (core popped).length = r.body.size ∧ Concrete.Trimmed front) ∧
      book.next? (state rest) r.head = some s ∧
      p' = pushAll (⟨.phrase q front, s⟩ :: rest) extras s := by
  obtain ⟨r, hr, h⟩ := Option.bind_eq_some_iff.1 h
  obtain ⟨popped, rest, hpop, hp, hn⟩ := pop_spec r.body.size p []
  rw [List.append_nil] at hpop
  simp only [hpop] at h
  obtain ⟨s, hs, h⟩ := Option.bind_eq_some_iff.1 h
  have hsplit := splitExtras_append (trees popped)
  have htrimmed : r.body.size ≤ (core p).length →
      Concrete.Trimmed (splitExtras (trees popped)).1 := by
    refine fun hlen => ⟨fun c hc => ?_, isExtra_getLast?_splitExtras _⟩
    -- the first tree of the phrase is the one that came off last
    have hhead : c ∈ (trees popped).head? := by
      rw [← hsplit, List.head?_append, hc]
      rfl
    rcases Nat.eq_zero_or_pos r.body.size with hzero | hpos
    · rw [hzero, pop] at hpop
      rw [← (Prod.mk.inj hpop).1] at hhead
      simp at hhead
    · obtain ⟨d, ds, hd, hextra⟩ := head_pop [] hpos hlen
      rw [hpop] at hd
      rw [show trees popped = d :: ds from hd, List.head?_cons, Option.mem_some_iff] at hhead
      rw [← hhead, hextra]
  exact ⟨r, popped, rest, _, _, s, hr, hp, hsplit.symm, fun c => isExtra_of_mem_splitExtras,
    fun hlen => ⟨hn hlen, htrimmed hlen⟩, hs, (Option.some.inj h).symm⟩

/-! ### The text of a pile -/

theorem trees_pushAll (p : Pile) (ts : List Concrete) (s : State) :
    trees (pushAll p ts s) = trees p ++ ts := by
  have h : (ts.map (Layer.mk · s)).map (·.tree) = ts := by simp [Function.comp_def]
  rw [pushAll_eq, trees_append]
  simp [trees, h]

theorem textAll_trees_pushAll (p : Pile) (ts : List Concrete) (s : State) :
    Concrete.textAll (trees (pushAll p ts s)) =
      Concrete.textAll (trees p) ++ Concrete.textAll ts := by
  rw [trees_pushAll, Concrete.textAll_append]

/-- **Putting a phrase together leaves the text alone.** -/
theorem textAll_trees_reduce? {book : RuleBook} {p p' : Pile} {q : Nat}
    (h : reduce? book p q = some p') :
    Concrete.textAll (trees p') = Concrete.textAll (trees p) := by
  obtain ⟨r, popped, rest, front, extras, s, -, rfl, ht, -, -, -, rfl⟩ := reduce?_eq_some h
  rw [textAll_trees_pushAll, trees_cons, trees_append, ht]
  simp [Concrete.textAll_append, Concrete.textAll, Concrete.text, String.append_assoc]

theorem Rebuilt.textAll_trees {book : RuleBook} {t : Nat} {p p' : Pile}
    (h : Rebuilt book t p p') : Concrete.textAll (trees p') = Concrete.textAll (trees p) := by
  induction h with
  | refl => rfl
  | step _ _ hreduce ih => exact (textAll_trees_reduce? hreduce).trans ih

/-! ### States tell what is on top -/

/-- Whether the items of the state reached tell the trees on top: as many trees as the dot has
passed fit the symbols before it. -/
def Accounts (book : RuleBook) (p : Pile) : Prop :=
  ∀ i ∈ (state p).items, ∀ r, book.productions[i.production]? = some r →
    i.dot ≤ r.body.size ∧
      List.Forall₂ (Fits book) ((core p).take i.dot).reverse (r.body.toList.take i.dot)

/-- A pile that was put together by the rules of a book. -/
inductive Formed (book : RuleBook) : Pile → Prop where
  | nil : Formed book []
  | extra {c : Concrete} {p : Pile} : c.isExtra = true → c.Formed book → Formed book p →
      Formed book (⟨c, state p⟩ :: p)
  | layer {c : Concrete} {p : Pile} {s : State} : c.isExtra = false → c.Formed book →
      Formed book p → Accounts book (⟨c, s⟩ :: p) → Formed book (⟨c, s⟩ :: p)

theorem Formed.accounts {book : RuleBook} {p : Pile} (h : Formed book p) : Accounts book p := by
  induction h with
  | nil =>
    intro i hi r hr
    obtain rfl : i = ⟨0, 0, oneTerminal 0⟩ := by simpa [state, State.start] using hi
    exact ⟨Nat.zero_le _, by simp⟩
  | extra hc _ _ ih =>
    intro i hi r hr
    rw [core_cons, if_pos hc]
    exact ih i hi r hr
  | layer _ _ _ h _ => exact h

theorem Formed.formed_of_mem {book : RuleBook} {p : Pile} (h : Formed book p) {l : Layer}
    (hl : l ∈ p) : l.tree.Formed book := by
  induction h with
  | nil => simp at hl
  | extra _ hc _ ih =>
    rcases List.mem_cons.1 hl with rfl | hl
    · exact hc
    · exact ih hl
  | layer _ hc _ _ ih =>
    rcases List.mem_cons.1 hl with rfl | hl
    · exact hc
    · exact ih hl

theorem Formed.of_append {book : RuleBook} {p q : Pile} (h : Formed book (p ++ q)) :
    Formed book q := by
  induction p with
  | nil => exact h
  | cons l p ih =>
    cases h with
    | extra _ _ h => exact ih h
    | layer _ _ h _ => exact ih h

theorem Formed.pushAll {book : RuleBook} {p : Pile} {ts : List Concrete}
    (h : Formed book p) (hx : ∀ c ∈ ts, c.isExtra = true) (hf : ∀ c ∈ ts, c.Formed book) :
    Formed book (pushAll p ts (state p)) := by
  induction ts generalizing p with
  | nil => exact h
  | cons c ts ih =>
    have hc := Formed.extra (hx c List.mem_cons_self) (hf c List.mem_cons_self) h
    exact ih hc (fun d hd => hx d (List.mem_cons_of_mem _ hd))
      fun d hd => hf d (List.mem_cons_of_mem _ hd)

/-- The dot of an item moves over a symbol that a tree fits. -/
theorem Accounts.rawNext? {book : RuleBook} (hb : book.BegunRight) {p : Pile} {c : Concrete}
    {sym : Nat} {t : State} (ha : Accounts book p) (hx : c.isExtra = false) (hc : Fits book c sym)
    (ht : book.rawNext? (state p) sym = some t) : Accounts book (⟨c, t⟩ :: p) := by
  intro i hi r hr
  have hcore : core (⟨c, t⟩ :: p) = c :: core p := by simp [core_cons, hx]
  rw [hcore]
  rcases RuleBook.mem_items_rawNext? ht hi with ⟨j, hj, hnext, rfl⟩ | ⟨hq, hdot⟩
  · -- an item that was there: its dot moves over the tree
    obtain ⟨hle, hfit⟩ := ha j hj r hr
    have hsym : r.body[j.dot]? = some sym := by
      simpa [RuleBook.nextSymbol?, hr] using hnext
    have hlt : j.dot < r.body.size := (Array.getElem?_eq_some_iff.1 hsym).1
    have hget : r.body.toList[j.dot]? = some sym := by simpa using hsym
    have htake : r.body.toList.take (j.dot + 1) = r.body.toList.take j.dot ++ [sym] := by
      rw [List.take_add_one, hget, Option.toList_some]
    refine ⟨hlt, ?_⟩
    rw [htake, List.take_succ_cons, List.reverse_cons]
    exact List.rel_append hfit (List.Forall₂.cons hc .nil)
  · -- an item that begins here: the tree is all it has passed
    have hsym := hb sym i.production r hq hr
    have hlt : 0 < r.body.size := (Array.getElem?_eq_some_iff.1 hsym).1
    have hget : r.body.toList[0]? = some sym := by simpa using hsym
    have htake : r.body.toList.take 1 = [sym] := by
      rw [List.take_one, List.head?_eq_getElem?, hget, Option.toList_some]
    rw [hdot]
    exact ⟨hlt, by simpa [htake] using hc⟩

/-- A state that can only put together a phrase of one symbol: the tree on top fits the phrase. -/
theorem Accounts.fits_unitPhrase? {book : RuleBook} {p : Pile} {c : Concrete} {t : State}
    {head : Nat} (ha : Accounts book (⟨c, t⟩ :: p)) (hx : c.isExtra = false)
    (hu : book.unitPhrase? t = some head) : Fits book c head := by
  unfold RuleBook.unitPhrase? at hu
  split at hu
  · simp at hu
  · rename_i i is hitems
    dsimp only at hu
    split at hu
    · rename_i hall
      rw [Bool.and_eq_true, List.all_eq_true] at hall
      obtain ⟨hsplice, hall⟩ := hall
      have hi := hall i List.mem_cons_self
      simp only [Bool.and_eq_true, beq_iff_eq] at hi
      obtain ⟨⟨⟨hdot, hcomplete⟩, hhead⟩, hbare⟩ := hi
      obtain ⟨r, hr, hposts⟩ : ∃ r, book.productions[i.production]? = some r ∧
          r.posts = [.plain] := by
        simpa [RuleBook.isBareUnit, Option.any_eq_true] using hbare
      have hmem : i ∈ (state (⟨c, t⟩ :: p)).items := by
        rw [state, hitems]
        exact List.mem_cons_self
      obtain ⟨hle, hfit⟩ := ha i hmem r hr
      rw [hdot] at hle hfit
      -- the dot is behind the first symbol and at the back, so there is one symbol
      have hnone : r.body[1]? = none := by
        simpa [RuleBook.isComplete, RuleBook.nextSymbol?, hr, hdot] using hcomplete
      have hsize : r.body.size = 1 := by
        have := Array.getElem?_eq_none_iff.1 hnone
        omega
      obtain ⟨s, hs⟩ : ∃ s, r.body = #[s] := Array.size_eq_one_iff.1 hsize
      have hc : Fits book c s := by
        simpa [core_cons, hx, hs] using hfit
      have hh : book.headOf i = r.head := by simp [RuleBook.headOf, hr]
      obtain rfl := Option.some.inj hu
      rw [hh] at hsplice ⊢
      exact .unit hc hr hs hposts hsplice
    · simp at hu

theorem Accounts.skipUnits {book : RuleBook} (hb : book.BegunRight) {p : Pile} {c : Concrete}
    (ha : Accounts book p) (hx : c.isExtra = false) (fuel : Nat) {t : State}
    (ht : Accounts book (⟨c, t⟩ :: p)) :
    Accounts book (⟨c, book.skipUnits (state p) fuel t⟩ :: p) := by
  induction fuel generalizing t with
  | zero => exact ht
  | succ fuel ih =>
    unfold RuleBook.skipUnits
    split
    · exact ht
    · rename_i phrase hphrase
      split
      · exact ht
      · rename_i t' ht'
        exact ih (ha.rawNext? hb hx (ht.fits_unitPhrase? hx hphrase) ht')

theorem Formed.push {book : RuleBook} (hb : book.BegunRight) {p : Pile} {c : Concrete} {sym : Nat}
    {s : State} (h : Formed book p) (hx : c.isExtra = false) (hf : c.Formed book)
    (hc : Fits book c sym) (hs : book.next? (state p) sym = some s) :
    Formed book (⟨c, s⟩ :: p) := by
  obtain ⟨t, ht, rfl⟩ := Option.map_eq_some_iff.1 hs
  exact .layer hx hf h (h.accounts.skipUnits hb hx _ (h.accounts.rawNext? hb hx hc ht))

/-! ### Phrases fit their productions -/

/-- Where a phrase can be put together there are trees enough, and those on top fit its
production. -/
theorem Formed.fits_of_mem_reductions {book : RuleBook} {p : Pile} {q t : Nat} {r : Production}
    (h : Formed book p) (hq : q ∈ (book.moves (state p) t).reductions)
    (hr : book.productions[q]? = some r) :
    r.body.size ≤ (core p).length ∧
      List.Forall₂ (Fits book) ((core p).take r.body.size).reverse r.body.toList := by
  obtain ⟨i, hi, rfl, hcomplete⟩ := RuleBook.exists_item_of_mem_reductions hq
  obtain ⟨hdot, hfit⟩ := h.accounts i hi r hr
  -- The dot is at the back, so the item tells all trees of the phrase.
  have hsize : i.dot = r.body.size := by
    have hnone : r.body[i.dot]? = none := by
      simpa [RuleBook.isComplete, RuleBook.nextSymbol?, hr] using hcomplete
    have := Array.getElem?_eq_none_iff.1 hnone
    omega
  have hbody : r.body.toList.take i.dot = r.body.toList := by
    rw [hsize, ← Array.length_toList, List.take_length]
  rw [hbody, hsize] at hfit
  have hlen : min r.body.size (core p).length = r.body.size := by
    simpa only [List.length_reverse, List.length_take, Array.length_toList] using hfit.length_eq
  exact ⟨by omega, hfit⟩

/-- **A phrase is put together from trees that fit its production.** -/
theorem Formed.reduce? {book : RuleBook} (hb : book.BegunRight) {p p' : Pile} {q t : Nat}
    (h : Formed book p) (hq : q ∈ (book.moves (state p) t).reductions)
    (hp : reduce? book p q = some p') : Formed book p' := by
  obtain ⟨r, popped, rest, front, extras, s, hr, rfl, ht, hx, hn, hs, rfl⟩ := reduce?_eq_some hp
  obtain ⟨hlen, hfit⟩ := h.fits_of_mem_reductions hq hr
  -- as many trees come off as the production has symbols
  have hcore : (core (popped ++ rest)).take r.body.size = core popped := by
    rw [core_append, ← (hn hlen).1, List.take_left]
  rw [hcore, ← filter_trees, ht, List.filter_append] at hfit
  -- extras behind the phrase fit nothing and stay on the pile
  have hextras : extras.filter (!·.isExtra) = [] := by
    simpa [List.filter_eq_nil_iff] using hx
  rw [hextras, List.append_nil] at hfit
  have hformed : ∀ c ∈ front ++ extras, c.Formed book := by
    intro c hc
    rw [← ht, trees, List.mem_reverse, List.mem_map] at hc
    obtain ⟨l, hl, rfl⟩ := hc
    exact h.formed_of_mem (List.mem_append_left _ hl)
  have hphrase : (Concrete.phrase q front).Formed book :=
    ⟨⟨r, hr, hfit⟩, Concrete.formedAll_iff.2 fun c hc => hformed c (List.mem_append_left _ hc)⟩
  have hsym : Fits book (.phrase q front) r.head := by
    rw [← Concrete.symbol_phrase hr]
    exact .here rfl
  exact (h.of_append.push hb rfl hphrase hsym hs).pushAll hx
    fun c hc => hformed c (List.mem_append_right _ hc)

theorem Rebuilt.formed {book : RuleBook} (hb : book.BegunRight) {t : Nat} {p p' : Pile}
    (h : Rebuilt book t p p') (hp : Formed book p) : Formed book p' := by
  induction h with
  | refl => exact hp
  | step _ hq hreduce ih => exact ih.reduce? hb hq hreduce

end Pile

end DocBlocks
