import DocBlocks.Proofs.Format.Yaml.TokenReader

/-!
# Handing out tokens

A state of the token reader `Yields` the forms of all tokens that are still to come, those that are
held included. Tokens are handed out until more are needed (`Settles`), and then the next ones are
found (`Yields.of_fetch`). A token that may be a key is held until that is settled, so the state in
which further tokens are found is told apart from the state that was left behind only by what is
held.

Possible keys that span lines or are too long are given up on the way (`PossibleKey.current`). That
is a fault where only a key may stand, so states are kept in which no such key is `Missed`.
-/

namespace DocBlocks.Yaml

open Scan

/-! ### Possible keys -/

namespace PossibleKey

/-- Whether a key would be too long or span lines at a place. -/
def isStale (k : PossibleKey) (mark : Mark) : Bool :=
  k.possible && (k.mark.line < mark.line || k.mark.index + longestKey < mark.index)

/-- What is left of a possible key at a place. -/
def current (mark : Mark) (k : PossibleKey) : PossibleKey :=
  if k.isStale mark then { k with possible := false } else k

theorem isStale_current (mark : Mark) (k : PossibleKey) : (k.current mark).isStale mark = false := by
  rw [current]
  split
  · rfl
  · rename_i h
    exact Bool.eq_false_iff.2 h

theorem current_of_not_isStale {mark : Mark} {k : PossibleKey} (h : k.isStale mark = false) :
    k.current mark = k := by
  rw [current, if_neg (by rw [h]; exact Bool.false_ne_true)]

@[simp] theorem current_current (mark : Mark) (k : PossibleKey) :
    (k.current mark).current mark = k.current mark := current_of_not_isStale (isStale_current mark k)

/-- A key that was begun on an earlier line is given up. -/
theorem possible_current_of_line_lt {mark : Mark} {k : PossibleKey}
    (h : k.possible = true → k.mark.line < mark.line) : (k.current mark).possible = false := by
  rw [current]
  split
  · rfl
  · rename_i hstale
    by_contra hpossible
    rw [Bool.not_eq_false] at hpossible
    refine hstale ?_
    rw [isStale, hpossible, decide_eq_true (h hpossible)]
    rfl

/-- Of a possible key only the possibility is ever given up. -/
theorem current_eq_or (mark : Mark) (k : PossibleKey) :
    k.current mark = k ∨ k.current mark = { k with possible := false } := by
  rw [current]
  split
  · exact .inr rfl
  · exact .inl rfl

end PossibleKey

/-- Whether a key is given up where only a key may stand. -/
def Missed (s : TokenReader) : Prop :=
  ∃ k ∈ s.keys, k.isStale s.mark = true ∧ k.required = true

/-- The keys of a state, without those that are given up at its place. -/
def currentKeys (s : TokenReader) : List PossibleKey := s.keys.map (·.current s.mark)

theorem not_missed_of_forall {s : TokenReader} (h : ∀ k ∈ s.keys, k.isStale s.mark = false) :
    ¬Missed s := by
  rintro ⟨k, hk, hstale, -⟩
  rw [h k hk] at hstale
  cases hstale

theorem currentKeys_of_forall {s : TokenReader} (h : ∀ k ∈ s.keys, k.isStale s.mark = false) :
    currentKeys s = s.keys := by
  rw [currentKeys]
  refine (List.map_congr_left fun k hk => ?_).trans (List.map_id s.keys)
  exact PossibleKey.current_of_not_isStale (h k hk)

namespace Scan

theorem run_get (s : TokenReader) : (get : Scan TokenReader).run s = .ok (s, s) := rfl

theorem run_dropStaleKeys {s : TokenReader} (h : ¬Missed s) :
    dropStaleKeys.run s = .ok ((), { s with keys := currentKeys s }) := by
  have hfind : (s.keys.reverse.find? fun k => k.isStale s.mark && k.required) = none := by
    rw [List.find?_eq_none]
    intro k hk hstale
    rw [Bool.and_eq_true] at hstale
    exact h ⟨k, List.mem_reverse.1 hk, hstale⟩
  simp only [PossibleKey.isStale] at hfind
  unfold dropStaleKeys
  rw [run_bind_of_ok (run_get s)]
  simp only [hfind]
  rfl

/-- Whether the first token that is held may still be a key. -/
def holdsKey (s : TokenReader) : Bool :=
  (currentKeys s).any fun k => k.possible && k.token == s.handedOut

theorem run_needsMore_of_nil {s : TokenReader} (h : s.queue = []) :
    needsMore.run s = .ok (true, s) := by
  have hrun : needsMore.run s = (if s.queue.isEmpty then pure true else do
      dropStaleKeys
      let s ← get
      pure (s.keys.any fun k => k.possible && k.token == s.handedOut) : Scan Bool).run s := rfl
  rw [hrun, h]
  rfl

theorem run_needsMore {s : TokenReader} (h : ¬Missed s) (hne : s.queue ≠ []) :
    needsMore.run s = .ok (holdsKey s, { s with keys := currentKeys s }) := by
  have hrun : needsMore.run s = (if s.queue.isEmpty then pure true else do
      dropStaleKeys
      let s ← get
      pure (s.keys.any fun k => k.possible && k.token == s.handedOut) : Scan Bool).run s := rfl
  rw [hrun, List.isEmpty_eq_false_iff.2 hne, if_neg Bool.false_ne_true,
    run_bind_of_ok (run_dropStaleKeys h)]
  rfl

end Scan

/-! ### Tokens to come -/

/-- The forms of the tokens that are held. -/
def heldForms (s : TokenReader) : List TokenForm := s.queue.map Token.form

/-- Whether a state of the token reader comes to hand out tokens of some forms, with no fault behind
them. A token takes a step to be found and one to be handed out; those that are held are found. -/
structure Yields (s : TokenReader) (forms : List TokenForm) : Prop where
  length_queue_le : s.queue.length ≤ forms.length
  handsOut : ∀ fuel acc, 2 * forms.length < fuel + s.queue.length →
    ∃ tokens, tokens.map Token.form = forms ∧ handOut fuel s acc = ⟨acc.reverse ++ tokens, none⟩

namespace Yields

variable {s s₁ s₂ : TokenReader} {forms : List TokenForm}

/-- The front of the queue is handed out if it is no key. -/
theorem of_handOut {t : Token} {queue : List Token} (hqueue : s.queue = t :: queue)
    (hmissed : ¬Missed s) (hheld : holdsKey s = false)
    (h : Yields { s with queue := queue, handedOut := s.handedOut + 1, keys := currentKeys s } forms) :
    Yields s (t.form :: forms) := by
  have hlength : queue.length ≤ forms.length := h.length_queue_le
  have hneeds := run_needsMore hmissed (by rw [hqueue]; exact List.cons_ne_nil t queue)
  refine ⟨by simpa [hqueue] using hlength, ?_⟩
  rintro (- | fuel) acc hfuel
  · simp only [hqueue, List.length_cons] at hfuel
    omega
  · simp only [hqueue, List.length_cons] at hfuel
    obtain ⟨tokens, hforms, hrun⟩ := h.handsOut fuel (t :: acc) (by simp only; omega)
    refine ⟨t :: tokens, by rw [List.map_cons, hforms], ?_⟩
    simp only [handOut, hneeds, hheld, hqueue]
    rw [hrun, List.reverse_cons, List.append_assoc, List.singleton_append]

/-- What is handed out only depends on what is found when more tokens are needed. -/
theorem of_needsMore_eq (hneeds : needsMore.run s = needsMore.run s₁)
    (hqueue : s.queue.length = s₁.queue.length) (h : Yields s₁ forms) : Yields s forms := by
  refine ⟨hqueue ▸ h.length_queue_le, fun fuel acc hfuel => ?_⟩
  obtain ⟨tokens, hforms, hrun⟩ := h.handsOut fuel acc (hqueue ▸ hfuel)
  refine ⟨tokens, hforms, ?_⟩
  rw [← hrun]
  cases fuel with
  | zero => rfl
  | succ fuel => rw [handOut, handOut, hneeds]

/-- When more tokens are needed, they are looked for. -/
theorem of_fetch (hneeds : needsMore.run s = .ok (true, s)) (hended : s.ended = false)
    (hfetch : fetch.run s = .ok ((), s₁)) (hmore : s.queue.length < s₁.queue.length)
    (h : Yields s₁ forms) : Yields s forms := by
  have hlength := h.length_queue_le
  refine ⟨by omega, ?_⟩
  rintro (- | fuel) acc hfuel
  · omega
  · obtain ⟨tokens, hforms, hrun⟩ := h.handsOut fuel acc (by omega)
    refine ⟨tokens, hforms, ?_⟩
    simp only [handOut, hneeds, hended, Bool.false_eq_true, if_false, hfetch]
    exact hrun

/-- When more tokens are needed at the end of the text, the last ones are handed out. -/
theorem of_ended_of_needsMore (hneeds : needsMore.run s = .ok (true, s)) (hended : s.ended = true) :
    Yields s (heldForms s) := by
  refine ⟨by rw [heldForms, List.length_map], ?_⟩
  rintro (- | fuel) acc hfuel
  · rw [heldForms, List.length_map] at hfuel
    omega
  · refine ⟨s.queue, rfl, ?_⟩
    simp only [handOut, hneeds, hended, if_true]

end Yields

/-! ### Until more tokens are needed -/

/-- The state behind which tokens were handed out: those that are left, and the keys. -/
def TokenReader.handedOn (s : TokenReader) (front back : List Token) (keys : List PossibleKey) :
    TokenReader :=
  { s with queue := back, handedOut := s.handedOut + front.length, keys := keys }

/-- Whether a state hands out the front of its queue, and then more tokens are needed. -/
structure Settles (s : TokenReader) (front back : List Token) (keys : List PossibleKey) : Prop where
  queue_eq : s.queue = front ++ back
  keys_eq : keys = s.keys ∨ keys = currentKeys s
  /-- No token is handed out that may be a key. -/
  passed : ∀ k ∈ keys, k.possible = true →
    k.token < s.handedOut ∨ s.handedOut + front.length ≤ k.token
  needsMore : needsMore.run (s.handedOn front back keys) = .ok (true, s.handedOn front back keys)
  yields : ∀ {forms}, Yields (s.handedOn front back keys) forms →
    Yields s (front.map Token.form ++ forms)

theorem currentKeys_currentKeys (s : TokenReader) :
    currentKeys { s with keys := currentKeys s } = currentKeys s := by
  simp [currentKeys]

theorem not_missed_current (s : TokenReader) : ¬Missed { s with keys := currentKeys s } := by
  refine not_missed_of_forall fun k hk => ?_
  obtain ⟨k, -, rfl⟩ := List.mem_map.1 hk
  exact PossibleKey.isStale_current s.mark k

/-- **Tokens are handed out until more are needed.** -/
theorem exists_settles {s : TokenReader} (h : ¬Missed s) :
    ∃ front back keys, Settles s front back keys := by
  induction hqueue : s.queue generalizing s with
  | nil =>
    have hself : s.handedOn [] [] s.keys = s := by
      obtain ⟨rest, mark, queue⟩ := s
      cases hqueue
      rfl
    refine ⟨[], [], s.keys, hqueue, .inl rfl, fun k _ _ => ?_, ?_, fun hforms => ?_⟩
    · exact (Nat.lt_or_ge k.token s.handedOut).imp_right id
    · rw [hself]
      exact run_needsMore_of_nil hqueue
    · rwa [hself] at hforms
  | cons t queue ih =>
    have hne : s.queue ≠ [] := by rw [hqueue]; exact List.cons_ne_nil t queue
    cases hheld : holdsKey s with
    | true =>
      -- the token is held, and only the keys change
      have hself : s.handedOn [] s.queue (currentKeys s) = { s with keys := currentKeys s } := rfl
      have hneeds : needsMore.run { s with keys := currentKeys s } =
          .ok (true, { s with keys := currentKeys s }) := by
        have hheld' : holdsKey { s with keys := currentKeys s } = true := by
          rw [holdsKey, currentKeys_currentKeys]
          exact hheld
        rw [run_needsMore (not_missed_current s) hne, hheld', currentKeys_currentKeys]
      refine ⟨[], s.queue, currentKeys s, rfl, .inr rfl, fun k _ _ => ?_, ?_, fun hforms => ?_⟩
      · exact (Nat.lt_or_ge k.token s.handedOut).imp_right id
      · rw [hself]
        exact hneeds
      · rw [hself] at hforms
        have hboth : needsMore.run s = needsMore.run { s with keys := currentKeys s } := by
          rw [hneeds, run_needsMore h hne, hheld]
        exact Yields.of_needsMore_eq hboth rfl hforms
    | false =>
      obtain ⟨front, back, keys, hsettles⟩ := ih (s := { s with
        queue := queue, handedOut := s.handedOut + 1, keys := currentKeys s })
        (not_missed_current s) rfl
      have hkeys : keys = currentKeys s := by
        rcases hsettles.keys_eq with h | h
        · exact h
        · rw [h]
          exact currentKeys_currentKeys s
      have hself : TokenReader.handedOn { s with
          queue := queue, handedOut := s.handedOut + 1, keys := currentKeys s } front back keys =
          s.handedOn (t :: front) back keys := by
        simp only [TokenReader.handedOn, List.length_cons, TokenReader.mk.injEq, true_and, and_true]
        omega
      refine ⟨t :: front, back, keys, ?_, .inr hkeys, fun k hk hpossible => ?_, ?_, fun hforms => ?_⟩
      · rw [hqueue, List.cons_append]
        exact congrArg (t :: ·) hsettles.queue_eq
      · have hne : k.token ≠ s.handedOut := by
          intro htoken
          rw [hkeys] at hk
          exact Bool.false_ne_true (hheld ▸ List.any_eq_true.2 ⟨k, hk, by simp [hpossible, htoken]⟩)
        have := hsettles.passed k hk hpossible
        simp only [List.length_cons] at this ⊢
        omega
      · rw [← hself]
        exact hsettles.needsMore
      · rw [← hself] at hforms
        exact (hsettles.yields hforms).of_handOut hqueue h hheld

/-- Keys that are not given up stay as they are. -/
theorem Settles.keys_eq_of_forall {s : TokenReader} {front back : List Token}
    {keys : List PossibleKey} (h : Settles s front back keys)
    (hkeys : ∀ k ∈ s.keys, k.isStale s.mark = false) : keys = s.keys :=
  h.keys_eq.elim id fun hcurrent => hcurrent.trans (currentKeys_of_forall hkeys)

theorem Settles.heldForms_eq {s : TokenReader} {front back : List Token}
    {keys : List PossibleKey} (h : Settles s front back keys) :
    heldForms s = front.map Token.form ++ heldForms (s.handedOn front back keys) := by
  rw [heldForms, h.queue_eq, List.map_append]
  rfl

/-- **At the end of the text all that is held is handed out.** -/
theorem Yields.of_ended {s : TokenReader} (hended : s.ended = true) (hmissed : ¬Missed s) :
    Yields s (heldForms s) := by
  obtain ⟨front, back, keys, hsettles⟩ := exists_settles hmissed
  rw [hsettles.heldForms_eq]
  exact hsettles.yields (.of_ended_of_needsMore hsettles.needsMore hended)

/-- **A token that may be a key is held**, and all before it are handed out. -/
theorem Yields.of_held {s : TokenReader} {queue : List Token} {t : Token} {k : PossibleKey}
    {forms : List TokenForm} (hqueue : s.queue = queue ++ [t]) (hkeys : s.keys = [k])
    (hpossible : k.possible = true) (hstale : k.isStale s.mark = false)
    (htoken : k.token = s.handedOut + queue.length)
    (h : needsMore.run (s.handedOn queue [t] [k]) = .ok (true, s.handedOn queue [t] [k]) →
      Yields (s.handedOn queue [t] [k]) forms) : Yields s (queue.map Token.form ++ forms) := by
  have hcurrent {s' : TokenReader} (hkeys : s'.keys = [k]) (hmark : s'.mark = s.mark) :
      ∀ k' ∈ s'.keys, k'.isStale s'.mark = false := by
    rw [hkeys, hmark, List.forall_mem_singleton]
    exact hstale
  obtain ⟨front, back, keys, hsettles⟩ := exists_settles (not_missed_of_forall (hcurrent hkeys rfl))
  obtain rfl : keys = [k] := (hsettles.keys_eq_of_forall (hcurrent hkeys rfl)).trans hkeys
  have hpassed := hsettles.passed k List.mem_cons_self hpossible
  have hall : queue ++ [t] = front ++ back := hqueue.symm.trans hsettles.queue_eq
  have hlength := congrArg List.length hall
  simp only [List.length_append, List.length_singleton] at hlength
  have hback : back ≠ [] := by
    rintro rfl
    rw [List.length_nil] at hlength
    omega
  -- more tokens are needed since the first one that is left is the possible key
  have hholds : holdsKey (s.handedOn front back [k]) = true := by
    have hrun := run_needsMore (s := s.handedOn front back [k])
      (not_missed_of_forall (hcurrent rfl rfl)) hback
    rw [hsettles.needsMore] at hrun
    exact (congrArg Prod.fst (Except.ok.inj hrun)).symm
  have hfront : front.length = queue.length := by
    have hself : currentKeys (s.handedOn front back [k]) = [k] :=
      currentKeys_of_forall (hcurrent rfl rfl)
    rw [holdsKey, hself, List.any_cons, List.any_nil, Bool.or_false, hpossible, Bool.true_and,
      beq_iff_eq, htoken] at hholds
    exact (Nat.add_left_cancel hholds).symm
  obtain ⟨rfl, rfl⟩ := List.append_inj hall hfront.symm
  exact hsettles.yields (h hsettles.needsMore)

end DocBlocks.Yaml
