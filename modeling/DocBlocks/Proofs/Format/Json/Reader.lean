import DocBlocks.Format.Json.Decode
import DocBlocks.Proofs.Number.Text

/-!
# Steps of the reader of JSON

A reader `Leads` from one text to another if running it there comes to the same as running some
other reader on the rest of the text. It `Gives` a value if nothing is left to run but the answer.
The number of bytes that were passed is of no interest, since it only places faults, and how deep
lists and records nest is the same before and after.

Each small reader has one lemma here that says what it does to a text that it can read.
-/

namespace DocBlocks.Json.Read

/-- Whether running a reader on a text comes to the same as running another one on what is left. -/
structure Leads {α : Type} (p : Read α) (depth : Nat) (text : List Char) (q : Read α)
    (rest : List Char) : Prop where
  run : ∀ passed, ∃ passed', p.run ⟨text, passed, depth⟩ = q.run ⟨rest, passed', depth⟩

/-- Whether a reader gives a value on a text. -/
def Gives {α : Type} (p : Read α) (depth : Nat) (text : List Char) (a : α) (rest : List Char) :
    Prop :=
  Leads p depth text (pure a) rest

section

variable {α β : Type} {p q : Read α} {a : α} {b : β} {depth : Nat} {c : Char}
  {text rest rest' : List Char}

/-! ### Putting readers together -/

theorem run_bind (p : Read α) (f : α → Read β) (s : State) :
    (p >>= f).run s = match p.run s with
      | (.ok a, s) => (f a).run s
      | (.error e, s) => (.error e, s) := by
  rw [ExceptT.run_bind]
  show StateT.bind _ _ s = _
  simp only [StateT.bind]
  rcases p.run s with ⟨_ | _, _⟩ <;> rfl

theorem run_pure (a : α) (s : State) : (pure a : Read α).run s = (.ok a, s) := rfl

theorem run_tryCatch (p : Read α) (f : Failure → Read α) (s : State) :
    (tryCatch p f).run s = match p.run s with
      | (.ok a, s) => (.ok a, s)
      | (.error e, s) => (f e).run s := by
  simp only [tryCatch, tryCatchThe, MonadExceptOf.tryCatch, ExceptT.tryCatch, ExceptT.mk,
    ExceptT.run]
  show StateT.bind _ _ s = _
  simp only [StateT.bind]
  rcases (show StateT State Id _ from p) s with ⟨_ | _, _⟩ <;> rfl

theorem Leads.refl (p : Read α) (depth : Nat) (text : List Char) : Leads p depth text p text :=
  ⟨fun passed => ⟨passed, rfl⟩⟩

theorem Leads.trans {r : Read α} (h : Leads p depth text q rest) (h' : Leads q depth rest r rest') :
    Leads p depth text r rest' := ⟨fun passed => by
  obtain ⟨passed', h⟩ := h.run passed
  obtain ⟨passed'', h'⟩ := h'.run passed'
  exact ⟨passed'', h.trans h'⟩⟩

/-- A reader that gives a value hands it on. -/
theorem Gives.bind {f : α → Read β} {r : Read β} (h : Gives p depth text a rest)
    (h' : Leads (f a) depth rest r rest') : Leads (p >>= f) depth text r rest' := ⟨fun passed => by
  obtain ⟨passed', h⟩ := h.run passed
  obtain ⟨passed'', h'⟩ := h'.run passed'
  exact ⟨passed'', by rw [run_bind, h, run_pure]; exact h'⟩⟩

theorem gives_pure (a : α) (depth : Nat) (text : List Char) :
    Gives (pure a) depth text a text := Leads.refl ..

theorem Gives.map (f : α → β) (h : Gives p depth text a rest) :
    Gives (f <$> p) depth text (f a) rest := by
  rw [map_eq_pure_bind]
  exact h.bind (gives_pure ..)

/-- A reader may look at where it stands. -/
theorem leads_get_bind {f : State → Read β} {r : Read β}
    (h : ∀ passed, Leads (f ⟨text, passed, depth⟩) depth text r rest) :
    Leads (get >>= f) depth text r rest := ⟨fun passed => by
  obtain ⟨passed', h⟩ := (h passed).run passed
  exact ⟨passed', by rw [run_bind]; exact h⟩⟩

/-- A reader that passes characters and answers nothing. -/
theorem gives_modify {f : State → State}
    (h : ∀ passed, ∃ passed', f ⟨text, passed, depth⟩ = ⟨rest, passed', depth⟩) :
    Gives (modify f) depth text () rest := ⟨fun passed => by
  obtain ⟨passed', h⟩ := h passed
  exact ⟨passed', by rw [← h]; rfl⟩⟩

theorem Gives.placed (h : Gives p depth text a rest) : Gives (placed p) depth text a rest :=
  ⟨fun passed => by
    obtain ⟨passed', h⟩ := h.run passed
    exact ⟨passed', by rw [Read.placed, run_tryCatch, h, run_pure]⟩⟩

/-! ### Characters -/

theorem gives_peek (depth : Nat) (text : List Char) : Gives peek depth text text.head? text :=
  leads_get_bind fun _ => Leads.refl ..

theorem gives_eat (depth : Nat) (c : Char) (text : List Char) :
    Gives eat depth (c :: text) () text :=
  gives_modify fun _ => ⟨_, rfl⟩

/-- Layout is passed up to the next character. -/
theorem gives_skipLayout {blanks : List Char} (hblanks : ∀ c ∈ blanks, isLayout c = true)
    (htext : text.head?.any isLayout = false) :
    Gives skipLayout depth (blanks ++ text) text.head? text := by
  refine Gives.bind (gives_modify fun passed => ⟨passed + blanks.length, ?_⟩) (gives_peek ..)
  simp only [takeWhile_append_eq hblanks text htext, List.drop_left]

theorem gives_valueStart {blanks : List Char} (hblanks : ∀ c ∈ blanks, isLayout c = true)
    (hc : isLayout c = false) :
    Gives valueStart depth (blanks ++ c :: text) c (c :: text) := by
  refine Gives.bind (gives_skipLayout hblanks (by simpa using hc)) ?_
  exact gives_pure ..

theorem gives_word (depth : Nat) (ws text : List Char) :
    Gives (word ws) depth (ws ++ text) () text := by
  induction ws with
  | nil => exact gives_pure ..
  | cons w ws ih =>
    refine Gives.bind (gives_peek ..) ?_
    simp only [List.cons_append, List.head?_cons, if_true]
    exact Gives.bind (gives_eat ..) ih

theorem gives_skipBytes (depth : Nat) (front text : List Char) :
    Gives (skipBytes front.length) depth (front ++ text) () text :=
  gives_modify fun passed => ⟨passed + front.length, by rw [List.drop_left]⟩

/-! ### Texts -/

theorem gives_insideText (depth : Nat) (c : Char) (text : List Char) :
    Gives insideText depth (c :: text) c (c :: text) :=
  Gives.bind (gives_peek ..) (gives_pure ..)

/-- The digits of a character that has no escape of its own. -/
theorem readDigits?_digitChar : ∀ n < 0x20,
    readDigits? 16 ['0', '0', Nat.digitChar (n / 16), Nat.digitChar (n % 16)] = some n := by
  decide

theorem four_le_byteLength (a b c d : Char) (text : List Char) :
    4 ≤ byteLength (a :: b :: c :: d :: text) := by
  have h (c : Char) : 1 ≤ c.utf8Size := c.utf8Size_pos
  simp only [byteLength]
  have := h a
  have := h b
  have := h c
  have := h d
  omega

theorem gives_fourDigits {n : Nat} (hn : n < 0x20) (depth : Nat) (text : List Char) :
    Gives fourDigits depth
      ('0' :: '0' :: Nat.digitChar (n / 16) :: Nat.digitChar (n % 16) :: text) n text := by
  refine leads_get_bind fun passed => ?_
  dsimp only
  rw [if_neg (not_lt.2 (four_le_byteLength ..))]
  refine Gives.bind (gives_skipBytes depth ['0', '0', _, _] text) ?_
  simp only [List.take_succ_cons, List.take_zero, readDigits?_digitChar n hn]
  exact gives_pure ..

theorem gives_numberEscape {c : Char} (hc : c.toNat < 0x20) (depth : Nat) (text : List Char) :
    Gives numberEscape depth
      ('0' :: '0' :: Nat.digitChar (c.toNat / 16) :: Nat.digitChar (c.toNat % 16) :: text) c
      text := by
  refine Gives.bind (gives_fourDigits hc ..) ?_
  have htrailing : isTrailing c.toNat = false := by simp [isTrailing]; omega
  have hleading : isLeading c.toNat = false := by simp [isLeading]; omega
  simp only [htrailing, hleading, Bool.false_eq_true, if_false, Char.ofNat_toNat]
  exact gives_pure ..

theorem gives_escape {kind c : Char} (hkind : kind ≠ 'u')
    (hlookup : plainEscapes.lookup kind = some c) (depth : Nat) (text : List Char) :
    Gives escape depth (kind :: text) c text := by
  refine Gives.bind (gives_insideText ..) ?_
  simp only [hkind, if_false, hlookup]
  exact Gives.bind (gives_eat ..) (gives_pure ..)

/-- What stands behind a backslash stands for a character. -/
theorem leads_textWithin_escape {escaped : List Char} (h : Gives escape depth escaped c text)
    (fuel : Nat) (acc : List Char) :
    Leads (textWithin (fuel + 1) acc) depth ('\\' :: escaped) (textWithin fuel (c :: acc))
      text := by
  refine Gives.bind (gives_insideText ..) ?_
  simp only [Char.reduceEq, if_false, if_true]
  exact Gives.bind (gives_eat ..) (Gives.bind h (.refl ..))

/-- What is written for a character between quotes is read as the character. -/
theorem leads_textWithin_escapeChar (fuel : Nat) (acc : List Char) (c : Char) (depth : Nat)
    (text : List Char) :
    Leads (textWithin (fuel + 1) acc) depth (escapeChar c ++ text) (textWithin fuel (c :: acc))
      text := by
  unfold escapeChar
  split_ifs with h1 h2 h3 h4 h5 h6 h7 h8
  · subst h1
    exact leads_textWithin_escape (gives_escape (by decide) rfl ..) ..
  · subst h2
    exact leads_textWithin_escape (gives_escape (by decide) rfl ..) ..
  · subst h3
    exact leads_textWithin_escape (gives_escape (by decide) rfl ..) ..
  · subst h4
    exact leads_textWithin_escape (gives_escape (by decide) rfl ..) ..
  · subst h5
    exact leads_textWithin_escape (gives_escape (by decide) rfl ..) ..
  · subst h6
    exact leads_textWithin_escape (gives_escape (by decide) rfl ..) ..
  · subst h7
    exact leads_textWithin_escape (gives_escape (by decide) rfl ..) ..
  · refine leads_textWithin_escape (Gives.bind (gives_insideText ..) ?_) ..
    rw [if_pos rfl]
    exact Gives.bind (gives_eat ..) (gives_numberEscape h8 ..)
  · refine Gives.bind (gives_insideText ..) ?_
    simp only [h1, h2, h8, if_false]
    exact Gives.bind (gives_eat ..) (.refl ..)

theorem gives_textWithin (depth : Nat) (text cs : List Char) :
    ∀ (fuel : Nat) (acc : List Char), cs.length < fuel →
      Gives (textWithin fuel acc) depth (cs.flatMap escapeChar ++ '"' :: text)
        (String.ofList (acc.reverse ++ cs)) text := by
  induction cs with
  | nil =>
    rintro (- | fuel) acc hfuel
    · omega
    refine Gives.bind (gives_insideText ..) ?_
    simp only [if_true, List.append_nil]
    exact Gives.bind (gives_eat ..) (gives_pure ..)
  | cons c cs ih =>
    rintro (- | fuel) acc hfuel
    · simp at hfuel
    rw [List.flatMap_cons, List.append_assoc]
    refine (leads_textWithin_escapeChar ..).trans ?_
    have h := ih fuel (c :: acc) (by simpa using hfuel)
    rwa [List.reverse_cons, List.append_assoc, List.singleton_append] at h

theorem length_le_length_flatMap_escapeChar (cs : List Char) :
    cs.length ≤ (cs.flatMap escapeChar).length := by
  induction cs with
  | nil => simp
  | cons c cs ih =>
    have hc : 1 ≤ (escapeChar c).length := by
      unfold escapeChar
      split_ifs <;> simp
    rw [List.flatMap_cons, List.length_append, List.length_cons]
    omega

/-- **A text is read back** from between its quotes. -/
theorem gives_textBody (depth : Nat) (s : String) (text : List Char) :
    Gives textBody depth (s.toList.flatMap escapeChar ++ '"' :: text) s text := by
  refine leads_get_bind fun passed => ?_
  have hlength := length_le_length_flatMap_escapeChar s.toList
  have h := gives_textWithin depth text s.toList
    ((s.toList.flatMap escapeChar ++ '"' :: text).length + 1) []
    (by rw [List.length_append]; omega)
  rwa [List.reverse_nil, List.nil_append, String.ofList_toList] at h

end

end DocBlocks.Json.Read
