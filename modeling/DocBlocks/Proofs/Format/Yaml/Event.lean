import DocBlocks.Proofs.Format.Yaml.Decode

/-!
# From tokens to items

`tokensFor` is what a reader of events should meet where data was written in block style: a list
that is the value of a key has no ends of its own there. From these tokens the events come out that
stand for the items of the data (`opens_tokensFor`), one for each step of the reader, and the
document that is collected from them holds just these items (`documentOf_eq`).

Every value leaves the reader of events as it was, with the value's tokens gone. Lists and records
are read by steps that each wait for one more item or field.
-/

namespace DocBlocks.Yaml

/-! ### Tokens of data -/

mutual

/-- The tokens of data. A list may have to do without its ends. -/
def tokensFor (indentless : Bool) : Data → List TokenForm
  | .null => [.scalar "null" .plain]
  | .flag b => [.scalar (if b then "true" else "false") .plain]
  | .integer i => [.scalar (toString i) .plain]
  | .float x => [.scalar (numberStyle.write x) .plain]
  | .text s => [.scalar s (styleOf s).scalarStyle]
  | .list [] => [.flowSequenceStart, .flowSequenceEnd]
  | .list (d :: ds) =>
    if indentless then tokensForAll (d :: ds)
    else .blockSequenceStart :: (tokensForAll (d :: ds) ++ [.blockEnd])
  | .record [] => [.flowMappingStart, .flowMappingEnd]
  | .record (f :: fs) => .blockMappingStart :: (tokensForFields (f :: fs) ++ [.blockEnd])

/-- The tokens of the items of a list. -/
def tokensForAll : List Data → List TokenForm
  | [] => []
  | d :: ds => .blockEntry :: (tokensFor false d ++ tokensForAll ds)

/-- The tokens of fields with their names. -/
def tokensForFields : List (String × Data) → List TokenForm
  | [] => []
  | (name, d) :: fs =>
    .key :: .scalar name (styleOf name).scalarStyle :: .value ::
      (tokensFor true d ++ tokensForFields fs)

end

/-- The event of an item. -/
def Item.event : Item → EventForm
  | .scalar s => .scalar none s.tag s.text s.style
  | .listStart tag => .sequenceStart none tag
  | .listEnd => .sequenceEnd
  | .recordStart tag => .mappingStart none tag
  | .recordEnd => .mappingEnd
  | .reference _ => .reference ""
  | .void => .streamEnd

/-- The events of data. -/
def eventsFor (d : Data) : List EventForm := (itemsFor d).map Item.event

namespace ReadEvent

/-! ### Steps -/

/-- Whether a reader of events goes from one state to another with some events, one a step. -/
def Emits (s : EventReader) (forms : List EventForm) (s' : EventReader) : Prop :=
  ∀ fuel acc, ∃ events : List Event, events.map Event.form = forms ∧
    collectEvents (fuel + forms.length) s acc = collectEvents fuel s' (events.reverse ++ acc)

/-- Whether a reader of one event begins with the first of some events. The others follow. -/
def Opens (p : ReadEvent Event) (s : EventReader) (forms : List EventForm) (s' : EventReader) :
    Prop :=
  ∃ event s₁ more, p.run s = .ok (event, s₁) ∧ forms = event.form :: more ∧ Emits s₁ more s'

theorem emits_nil (s : EventReader) : Emits s [] s := fun _ _ => ⟨[], rfl, rfl⟩

theorem Emits.trans {s s' s'' : EventReader} {forms forms' : List EventForm}
    (h : Emits s forms s') (h' : Emits s' forms' s'') : Emits s (forms ++ forms') s'' := by
  intro fuel acc
  obtain ⟨events, rfl, hrun⟩ := h (fuel + forms'.length) acc
  obtain ⟨events', rfl, hrun'⟩ := h' fuel (events.reverse ++ acc)
  refine ⟨events ++ events', by simp, ?_⟩
  rw [List.reverse_append, List.append_assoc, ← hrun', ← hrun, List.length_append]
  congr 1
  omega

/-- A step emits its event and what follows it. -/
theorem Emits.cons {s s₁ s' : EventReader} {event : Event} {forms : List EventForm}
    (hstep : step.run s = .ok (some event, s₁)) (h : Emits s₁ forms s') :
    Emits s (event.form :: forms) s' := by
  intro fuel acc
  obtain ⟨events, rfl, hcollect⟩ := h fuel (event :: acc)
  refine ⟨event :: events, rfl, ?_⟩
  rw [List.length_cons, ← Nat.add_assoc, collectEvents, hstep]
  simpa using hcollect

/-- A step that begins with an event emits all that it begins with. -/
theorem Opens.emits {p : ReadEvent Event} {s s' : EventReader} {forms : List EventForm}
    (h : Opens p s forms s') (hstep : step.run s = (some <$> p : ReadEvent (Option Event)).run s) :
    Emits s forms s' := by
  obtain ⟨event, s₁, more, hrun, rfl, hmore⟩ := h
  refine .cons ?_ hmore
  rw [hstep]
  show Except.map _ (p.run s) = _
  rw [hrun]
  rfl

/-- What is emitted only depends on the next step. -/
theorem Emits.of_run_eq {s s₁ s' : EventReader} {forms : List EventForm} (hne : forms ≠ [])
    (hrun : step.run s = step.run s₁) (h : Emits s₁ forms s') : Emits s forms s' := by
  intro fuel acc
  obtain ⟨events, hforms, hcollect⟩ := h fuel acc
  refine ⟨events, hforms, ?_⟩
  obtain ⟨n, hn⟩ := Nat.exists_eq_succ_of_ne_zero (List.length_pos_iff.2 hne).ne'
  rw [hn, ← Nat.add_one, ← Nat.add_assoc] at hcollect ⊢
  rw [← hcollect, collectEvents, collectEvents, hrun]

/-- What begins with one event emits it. -/
theorem opens_single {p : ReadEvent Event} {s s' : EventReader} (event : Event)
    (h : p.run s = .ok (event, s')) : Opens p s [event.form] s' :=
  ⟨event, s', [], h, rfl, emits_nil s'⟩

theorem Opens.trans {p : ReadEvent Event} {s s' s'' : EventReader} {forms forms' : List EventForm}
    (h : Opens p s forms s') (h' : Emits s' forms' s'') : Opens p s (forms ++ forms') s'' := by
  obtain ⟨event, s₁, more, hrun, rfl, hmore⟩ := h
  exact ⟨event, s₁, more ++ forms', hrun, rfl, hmore.trans h'⟩

theorem Opens.of_run_eq {p q : ReadEvent Event} {s s₁ s' : EventReader} {forms : List EventForm}
    (hrun : p.run s = q.run s₁) (h : Opens q s₁ forms s') : Opens p s forms s' := by
  obtain ⟨event, s₂, more, hq, hforms, hmore⟩ := h
  exact ⟨event, s₂, more, hrun.trans hq, hforms, hmore⟩

section

variable {block indentless : Bool} {t u : Token} {tokens : List Token} {a a' : Awaiting}
  {stack : List Awaiting} {m : Mark} {marks : List Mark}

theorem opens_node_scalar {text : String} {style : ScalarStyle}
    (ht : t.form = .scalar text style) :
    Opens (node block indentless) ⟨t :: tokens, none, a, a' :: stack, marks, []⟩
      [.scalar none none text style] ⟨tokens, none, a', stack, marks, []⟩ := by
  obtain ⟨form, start, stop⟩ := t
  subst ht
  cases block <;> cases indentless <;>
    exact opens_single ⟨.scalar none none text style, start⟩ rfl

theorem opens_node_emptySequence (ht : t.form = .flowSequenceStart)
    (hu : u.form = .flowSequenceEnd) :
    Opens (node block indentless) ⟨t :: u :: tokens, none, a, a' :: stack, marks, []⟩
      [.sequenceStart none none, .sequenceEnd] ⟨tokens, none, a', stack, marks, []⟩ := by
  obtain ⟨form, start, stop⟩ := t
  obtain ⟨form', start', stop'⟩ := u
  subst ht hu
  have hclose : Opens (flowSequenceEntry true) ⟨⟨.flowSequenceStart, start, stop⟩ ::
      ⟨.flowSequenceEnd, start', stop'⟩ :: tokens, none, .flowSequenceEntry true, a' :: stack,
      marks, []⟩ [.sequenceEnd] ⟨tokens, none, a', stack, marks, []⟩ :=
    opens_single ⟨.sequenceEnd, start'⟩ rfl
  exact ⟨⟨.sequenceStart none none, start⟩, _, _, rfl, rfl, hclose.emits rfl⟩

theorem opens_node_emptyMapping (ht : t.form = .flowMappingStart) (hu : u.form = .flowMappingEnd) :
    Opens (node block indentless) ⟨t :: u :: tokens, none, a, a' :: stack, marks, []⟩
      [.mappingStart none none, .mappingEnd] ⟨tokens, none, a', stack, marks, []⟩ := by
  obtain ⟨form, start, stop⟩ := t
  obtain ⟨form', start', stop'⟩ := u
  subst ht hu
  have hclose : Opens (flowMappingKey true) ⟨⟨.flowMappingStart, start, stop⟩ ::
      ⟨.flowMappingEnd, start', stop'⟩ :: tokens, none, .flowMappingKey true, a' :: stack,
      marks, []⟩ [.mappingEnd] ⟨tokens, none, a', stack, marks, []⟩ :=
    opens_single ⟨.mappingEnd, start'⟩ rfl
  exact ⟨⟨.mappingStart none none, start⟩, _, _, rfl, rfl, hclose.emits rfl⟩

theorem run_node_blockEntry (ht : t.form = .blockEntry) :
    (node block true).run ⟨t :: tokens, none, a, stack, marks, []⟩ =
      .ok (⟨.sequenceStart none none, t.start⟩,
        ⟨t :: tokens, none, .indentlessEntry, stack, marks, []⟩) := by
  obtain ⟨form, start, stop⟩ := t
  subst ht
  cases block <;> rfl

theorem run_node_blockSequenceStart (ht : t.form = .blockSequenceStart) :
    (node true indentless).run ⟨t :: tokens, none, a, stack, marks, []⟩ =
      .ok (⟨.sequenceStart none none, t.start⟩,
        ⟨t :: tokens, none, .blockSequenceEntry true, stack, marks, []⟩) := by
  obtain ⟨form, start, stop⟩ := t
  subst ht
  rfl

theorem run_node_blockMappingStart (ht : t.form = .blockMappingStart) :
    (node true indentless).run ⟨t :: tokens, none, a, stack, marks, []⟩ =
      .ok (⟨.mappingStart none none, t.start⟩,
        ⟨t :: tokens, none, .blockMappingKey true, stack, marks, []⟩) := by
  obtain ⟨form, start, stop⟩ := t
  subst ht
  rfl

/-! ### Lists -/

/-- Whether a token begins a value in block style that is no list without ends. -/
def beginsValue : TokenForm → Bool
  | .scalar _ _ | .flowSequenceStart | .flowMappingStart | .blockSequenceStart
  | .blockMappingStart => true
  | _ => false

theorem run_blockSequenceEntry (ht : t.form = .blockEntry) (hu : beginsValue u.form = true) :
    (blockSequenceEntry false).run ⟨t :: u :: tokens, none, a, stack, marks, []⟩ =
      (node true false).run
        ⟨u :: tokens, none, a, .blockSequenceEntry false :: stack, marks, []⟩ := by
  obtain ⟨form, start, stop⟩ := t
  obtain ⟨form', start', stop'⟩ := u
  subst ht
  cases form' <;> first | rfl | cases hu

/-- The token that begins a list in block style is passed with the first entry. -/
theorem run_step_blockSequenceEntry_first (s : Token) (ht : t.form = .blockEntry)
    (hu : beginsValue u.form = true) :
    step.run ⟨s :: t :: u :: tokens, none, .blockSequenceEntry true, stack, marks, []⟩ =
      step.run ⟨t :: u :: tokens, none, .blockSequenceEntry false, stack, s.start :: marks, []⟩ := by
  obtain ⟨form, start, stop⟩ := t
  obtain ⟨form', start', stop'⟩ := u
  subst ht
  cases form' <;> first | rfl | cases hu

theorem run_indentlessEntry (ht : t.form = .blockEntry) (hu : beginsValue u.form = true) :
    indentlessEntry.run ⟨t :: u :: tokens, none, a, stack, marks, []⟩ =
      (node true false).run ⟨u :: tokens, none, a, .indentlessEntry :: stack, marks, []⟩ := by
  obtain ⟨form, start, stop⟩ := t
  obtain ⟨form', start', stop'⟩ := u
  subst ht
  cases form' <;> first | rfl | cases hu

theorem opens_blockSequenceEntry_end (ht : t.form = .blockEnd) (tokens : List Token)
    (a a' : Awaiting) (stack : List Awaiting) (m : Mark) (marks : List Mark) :
    Opens (blockSequenceEntry false) ⟨t :: tokens, none, a, a' :: stack, m :: marks, []⟩
      [.sequenceEnd] ⟨tokens, none, a', stack, marks, []⟩ := by
  obtain ⟨form, start, stop⟩ := t
  subst ht
  exact opens_single ⟨.sequenceEnd, start⟩ rfl

theorem opens_indentlessEntry_end (h : ∀ t ∈ tokens.head?, t.form ≠ .blockEntry)
    (a a' : Awaiting) (stack : List Awaiting) (marks : List Mark) :
    Opens indentlessEntry ⟨tokens, none, a, a' :: stack, marks, []⟩ [.sequenceEnd]
      ⟨tokens, none, a', stack, marks, []⟩ := by
  cases tokens with
  | nil => exact opens_single ⟨.sequenceEnd, .start⟩ rfl
  | cons t tokens =>
    obtain ⟨form, start, stop⟩ := t
    have hform : form ≠ .blockEntry := h _ rfl
    refine opens_single ⟨.sequenceEnd, start⟩ ?_
    cases form <;> first | rfl | exact absurd rfl hform

/-! ### Records -/

/-- Whether a token begins a value in block style, also a list without ends. -/
def beginsContent (form : TokenForm) : Bool := form == .blockEntry || beginsValue form

theorem opens_blockMappingKey {text : String} {style : ScalarStyle} (ht : t.form = .key)
    (hu : u.form = .scalar text style) (tokens : List Token) (a : Awaiting)
    (stack : List Awaiting) (marks : List Mark) :
    Opens (blockMappingKey false) ⟨t :: u :: tokens, none, a, stack, marks, []⟩
      [.scalar none none text style] ⟨tokens, none, .blockMappingValue, stack, marks, []⟩ := by
  have hrun : (blockMappingKey false).run ⟨t :: u :: tokens, none, a, stack, marks, []⟩ =
      (node true true).run ⟨u :: tokens, none, a, .blockMappingValue :: stack, marks, []⟩ := by
    obtain ⟨form, start, stop⟩ := t
    obtain ⟨form', start', stop'⟩ := u
    subst ht hu
    rfl
  exact (opens_node_scalar hu).of_run_eq hrun

/-- The token that begins a record in block style is passed with the first key. -/
theorem run_step_blockMappingKey_first {text : String} {style : ScalarStyle} (s : Token)
    (ht : t.form = .key) (hu : u.form = .scalar text style) :
    step.run ⟨s :: t :: u :: tokens, none, .blockMappingKey true, stack, marks, []⟩ =
      step.run ⟨t :: u :: tokens, none, .blockMappingKey false, stack, s.start :: marks, []⟩ := by
  obtain ⟨form, start, stop⟩ := t
  obtain ⟨form', start', stop'⟩ := u
  subst ht hu
  rfl

theorem run_blockMappingValue (ht : t.form = .value) (hu : beginsContent u.form = true)
    (tokens : List Token) (a : Awaiting) (stack : List Awaiting) (marks : List Mark) :
    blockMappingValue.run ⟨t :: u :: tokens, none, a, stack, marks, []⟩ =
      (node true true).run ⟨u :: tokens, none, a, .blockMappingKey false :: stack, marks, []⟩ := by
  obtain ⟨form, start, stop⟩ := t
  obtain ⟨form', start', stop'⟩ := u
  subst ht
  cases form' <;> first | rfl | cases hu

theorem opens_blockMappingKey_end (ht : t.form = .blockEnd) (tokens : List Token)
    (a a' : Awaiting) (stack : List Awaiting) (m : Mark) (marks : List Mark) :
    Opens (blockMappingKey false) ⟨t :: tokens, none, a, a' :: stack, m :: marks, []⟩
      [.mappingEnd] ⟨tokens, none, a', stack, marks, []⟩ := by
  obtain ⟨form, start, stop⟩ := t
  subst ht
  exact opens_single ⟨.mappingEnd, start⟩ rfl

end

/-! ### Any data -/

theorem exists_tokensFor (indentless : Bool) (d : Data) :
    ∃ form more, tokensFor indentless d = form :: more ∧ beginsContent form = true ∧
      (indentless = false → beginsValue form = true) := by
  cases d with
  | list ds =>
    cases ds with
    | nil => exact ⟨_, _, by rw [tokensFor], rfl, fun _ => rfl⟩
    | cons d ds =>
      cases indentless with
      | false => exact ⟨_, _, by rw [tokensFor, if_neg Bool.false_ne_true], rfl, fun _ => rfl⟩
      | true => exact ⟨_, _, by rw [tokensFor, if_pos rfl, tokensForAll], rfl, nofun⟩
  | record fs => cases fs <;> exact ⟨_, _, by rw [tokensFor], rfl, fun _ => rfl⟩
  | _ => exact ⟨_, _, by rw [tokensFor], rfl, fun _ => rfl⟩

/-- An entry of a list is a mark with a value behind it. -/
theorem exists_of_tokensForAll_cons {d : Data} {ds : List Data} {tokens : List Token}
    (h : tokens.map Token.form = tokensForAll (d :: ds)) :
    ∃ t u more, tokens = t :: u :: more ∧ t.form = .blockEntry ∧ beginsValue u.form = true := by
  rw [tokensForAll] at h
  obtain ⟨t, tokens, rfl, ht, htokens⟩ := List.map_eq_cons_iff.1 h
  obtain ⟨form, more, hform, -, hbegins⟩ := exists_tokensFor false d
  rw [hform, List.cons_append] at htokens
  obtain ⟨u, tokens, rfl, hu, -⟩ := List.map_eq_cons_iff.1 htokens
  exact ⟨t, u, tokens, rfl, ht, hu ▸ hbegins rfl⟩

/-- A step that reads an entry of a list as the value behind its mark, and then waits for the next
one. -/
structure ReadsEntries (a : Awaiting) (p : ReadEvent Event) : Prop where
  step : ∀ tokens stack marks, step.run ⟨tokens, none, a, stack, marks, []⟩ =
    (some <$> p : ReadEvent (Option Event)).run ⟨tokens, none, a, stack, marks, []⟩
  entry : ∀ t u tokens stack marks, t.form = .blockEntry → beginsValue u.form = true →
    p.run ⟨t :: u :: tokens, none, a, stack, marks, []⟩ =
      (node true false).run ⟨u :: tokens, none, a, a :: stack, marks, []⟩

theorem readsEntries_blockSequenceEntry :
    ReadsEntries (.blockSequenceEntry false) (blockSequenceEntry false) :=
  ⟨fun _ _ _ => rfl, fun _ _ _ _ _ => run_blockSequenceEntry⟩

theorem readsEntries_indentlessEntry : ReadsEntries .indentlessEntry indentlessEntry :=
  ⟨fun _ _ _ => rfl, fun _ _ _ _ _ => run_indentlessEntry⟩

mutual

/-- **The tokens of data are read as its items.** Behind a list without ends stands no entry. -/
theorem opens_tokensFor (d : Data) {indentless : Bool} {tokens : List Token}
    (htokens : tokens.map Token.form = tokensFor indentless d) (rest : List Token)
    (hrest : indentless = true → ∀ t ∈ rest.head?, t.form ≠ .blockEntry) (a a' : Awaiting)
    (stack : List Awaiting) (marks : List Mark) :
    Opens (node true indentless) ⟨tokens ++ rest, none, a, a' :: stack, marks, []⟩ (eventsFor d)
      ⟨rest, none, a', stack, marks, []⟩ := by
  cases d with
  | list ds =>
    cases ds with
    | nil =>
      rw [tokensFor] at htokens
      obtain ⟨t, tokens', rfl, ht, htokens'⟩ := List.map_eq_cons_iff.1 htokens
      obtain ⟨u, rfl, hu⟩ := List.map_eq_singleton_iff.1 htokens'
      rw [eventsFor, itemsFor, itemsForAll]
      exact opens_node_emptySequence ht hu
    | cons d ds =>
      rw [eventsFor, itemsFor, List.map_cons, List.map_append]
      cases indentless with
      | false =>
        rw [tokensFor, if_neg Bool.false_ne_true] at htokens
        obtain ⟨t, tokens', rfl, ht, htokens'⟩ := List.map_eq_cons_iff.1 htokens
        obtain ⟨inner, last, rfl, hinner, hlast⟩ := List.map_eq_append_iff.1 htokens'
        obtain ⟨u, rfl, hu⟩ := List.map_eq_singleton_iff.1 hlast
        have hentries := emits_tokensForAll (d :: ds) readsEntries_blockSequenceEntry hinner
          (u :: rest) (a' :: stack) (t.start :: marks)
        have hend := (opens_blockSequenceEntry_end hu rest (.blockSequenceEntry false) a' stack
          t.start marks).emits rfl
        obtain ⟨v, w, more, rfl, hv, hw⟩ := exists_of_tokensForAll_cons hinner
        simp only [List.cons_append, List.append_assoc, List.nil_append] at hentries ⊢
        exact ⟨⟨.sequenceStart none none, t.start⟩, _, _, run_node_blockSequenceStart ht, rfl,
          (hentries.trans hend).of_run_eq (by simp) (run_step_blockSequenceEntry_first t hv hw)⟩
      | true =>
        rw [tokensFor, if_pos rfl] at htokens
        have hentries := emits_tokensForAll (d :: ds) readsEntries_indentlessEntry htokens rest
          (a' :: stack) marks
        have hend := (opens_indentlessEntry_end (hrest rfl) .indentlessEntry a' stack marks).emits
          rfl
        rw [tokensForAll] at htokens
        obtain ⟨t, tokens', rfl, ht, -⟩ := List.map_eq_cons_iff.1 htokens
        exact ⟨⟨.sequenceStart none none, t.start⟩, _, _, run_node_blockEntry ht, rfl,
          hentries.trans hend⟩
  | record fs =>
    cases fs with
    | nil =>
      rw [tokensFor] at htokens
      obtain ⟨t, tokens', rfl, ht, htokens'⟩ := List.map_eq_cons_iff.1 htokens
      obtain ⟨u, rfl, hu⟩ := List.map_eq_singleton_iff.1 htokens'
      rw [eventsFor, itemsFor, itemsForFields]
      exact opens_node_emptyMapping ht hu
    | cons f fs =>
      rw [eventsFor, itemsFor, List.map_cons, List.map_append]
      rw [tokensFor] at htokens
      obtain ⟨t, tokens', rfl, ht, htokens'⟩ := List.map_eq_cons_iff.1 htokens
      obtain ⟨inner, last, rfl, hinner, hlast⟩ := List.map_eq_append_iff.1 htokens'
      obtain ⟨u, rfl, hu⟩ := List.map_eq_singleton_iff.1 hlast
      have hfields := emits_tokensForFields (f :: fs) hinner (u :: rest) (by simp [hu])
        (a' :: stack) (t.start :: marks)
      have hend := (opens_blockMappingKey_end hu rest (.blockMappingKey false) a' stack t.start
        marks).emits rfl
      rw [tokensForFields] at hinner
      obtain ⟨v, inner, rfl, hv, hinner⟩ := List.map_eq_cons_iff.1 hinner
      obtain ⟨w, inner, rfl, hw, -⟩ := List.map_eq_cons_iff.1 hinner
      simp only [List.cons_append, List.append_assoc, List.nil_append] at hfields ⊢
      exact ⟨⟨.mappingStart none none, t.start⟩, _, _, run_node_blockMappingStart ht, rfl,
        (hfields.trans hend).of_run_eq (by simp) (run_step_blockMappingKey_first t hv hw)⟩
  | _ =>
    rw [tokensFor] at htokens
    obtain ⟨t, rfl, ht⟩ := List.map_eq_singleton_iff.1 htokens
    rw [eventsFor, itemsFor]
    exact opens_node_scalar ht

/-- The entries of a list are read as its items. -/
theorem emits_tokensForAll (ds : List Data) {tokens : List Token} {a : Awaiting}
    {p : ReadEvent Event} (hentries : ReadsEntries a p)
    (htokens : tokens.map Token.form = tokensForAll ds) (rest : List Token)
    (stack : List Awaiting) (marks : List Mark) :
    Emits ⟨tokens ++ rest, none, a, stack, marks, []⟩ ((itemsForAll ds).map Item.event)
      ⟨rest, none, a, stack, marks, []⟩ := by
  cases ds with
  | nil =>
    obtain rfl := List.map_eq_nil_iff.1 htokens
    exact emits_nil _
  | cons d ds =>
    rw [tokensForAll] at htokens
    obtain ⟨t, tokens', rfl, ht, htokens'⟩ := List.map_eq_cons_iff.1 htokens
    obtain ⟨front, back, rfl, hfront, hback⟩ := List.map_eq_append_iff.1 htokens'
    have hvalue := opens_tokensFor d hfront (back ++ rest) nofun a a stack marks
    obtain ⟨form, more, hform, -, hbegins⟩ := exists_tokensFor false d
    obtain ⟨u, front, rfl, hu, -⟩ := List.map_eq_cons_iff.1 (hfront.trans hform)
    have hrun := hentries.entry t u (front ++ (back ++ rest)) stack marks ht
      (hu ▸ hbegins rfl)
    rw [itemsForAll, List.map_append, List.cons_append, List.append_assoc]
    exact ((hvalue.of_run_eq hrun).emits (hentries.step ..)).trans
      (emits_tokensForAll ds hentries hback rest stack marks)

/-- The fields of a record are read as their items. -/
theorem emits_tokensForFields (fs : List (String × Data)) {tokens : List Token}
    (htokens : tokens.map Token.form = tokensForFields fs) (rest : List Token)
    (hrest : ∀ t ∈ rest.head?, t.form ≠ .blockEntry) (stack : List Awaiting)
    (marks : List Mark) :
    Emits ⟨tokens ++ rest, none, .blockMappingKey false, stack, marks, []⟩
      ((itemsForFields fs).map Item.event)
      ⟨rest, none, .blockMappingKey false, stack, marks, []⟩ := by
  cases fs with
  | nil =>
    obtain rfl := List.map_eq_nil_iff.1 htokens
    exact emits_nil _
  | cons f fs =>
    obtain ⟨name, d⟩ := f
    rw [tokensForFields] at htokens
    obtain ⟨t, tokens₁, rfl, ht, htokens₁⟩ := List.map_eq_cons_iff.1 htokens
    obtain ⟨u, tokens₂, rfl, hu, htokens₂⟩ := List.map_eq_cons_iff.1 htokens₁
    obtain ⟨v, tokens₃, rfl, hv, htokens₃⟩ := List.map_eq_cons_iff.1 htokens₂
    obtain ⟨front, back, rfl, hfront, hback⟩ := List.map_eq_append_iff.1 htokens₃
    -- behind the value stands the next key, or what follows the record's fields
    have hbehind : true = true → ∀ t ∈ (back ++ rest).head?, t.form ≠ .blockEntry := by
      intro _
      cases fs with
      | nil =>
        obtain rfl := List.map_eq_nil_iff.1 hback
        exact hrest
      | cons f fs =>
        rw [tokensForFields] at hback
        obtain ⟨k, back, rfl, hk, -⟩ := List.map_eq_cons_iff.1 hback
        simp [hk]
    have hvalue := opens_tokensFor d hfront (back ++ rest) hbehind .blockMappingValue (.blockMappingKey false)
      stack marks
    obtain ⟨form, more, hform, hbegins, -⟩ := exists_tokensFor true d
    obtain ⟨w, front, rfl, hw, -⟩ := List.map_eq_cons_iff.1 (hfront.trans hform)
    have hrun := run_blockMappingValue hv (hw ▸ hbegins) (front ++ (back ++ rest))
      .blockMappingValue stack marks
    have hkey := opens_blockMappingKey ht hu (v :: w :: (front ++ (back ++ rest)))
      (.blockMappingKey false) stack marks
    simp only [itemsForFields, List.map_cons, List.map_append, List.cons_append, List.append_assoc]
    exact ((hkey.emits rfl).trans ((hvalue.of_run_eq hrun).emits rfl)).trans
      (emits_tokensForFields fs hback rest hrest stack marks)

end

/-! ### Documents -/

/-- The tokens of a text that holds one record are read as the events of its document. -/
theorem emits_document (start : Token) {stop : Token} {f : String × Data}
    {fs : List (String × Data)} {tokens : List Token}
    (htokens : tokens.map Token.form = tokensFor false (.record (f :: fs)))
    (hstop : stop.form = .streamEnd) :
    Emits ⟨start :: (tokens ++ [stop]), none, .streamStart, [], [], []⟩
      (.documentStart :: (eventsFor (.record (f :: fs)) ++ [.documentEnd, .streamEnd]))
      ⟨[], none, .nothing, [], [], []⟩ := by
  have hvalue := opens_tokensFor (.record (f :: fs)) htokens [stop] nofun .blockNode
    .documentEnd [] []
  have hend : Emits ⟨[stop], none, .documentEnd, [], [], []⟩ [.documentEnd, .streamEnd]
      ⟨[], none, .nothing, [], [], []⟩ := by
    obtain ⟨form, first, last⟩ := stop
    subst hstop
    refine Opens.emits (p := documentEnd) ⟨⟨.documentEnd, first⟩, _, _, rfl, rfl, ?_⟩ rfl
    exact (opens_single (p := documentStart false) ⟨.streamEnd, first⟩ rfl).emits rfl
  rw [tokensFor] at htokens
  obtain ⟨t, tokens, rfl, ht, -⟩ := List.map_eq_cons_iff.1 htokens
  have hstart : step.run ⟨start :: (t :: tokens ++ [stop]), none, .streamStart, [], [], []⟩ =
      .ok (some ⟨.documentStart, t.start⟩,
        ⟨t :: tokens ++ [stop], none, .blockNode, [.documentEnd], [], []⟩) := by
    obtain ⟨form, first, last⟩ := t
    subst ht
    rfl
  exact .cons hstart ((hvalue.emits rfl).trans hend)

end ReadEvent

mutual

/-- There are not many more items than tokens. -/
theorem length_itemsFor_le (d : Data) (indentless : Bool) :
    (itemsFor d).length ≤ 4 * (tokensFor indentless d).length := by
  cases d with
  | list ds =>
    cases ds with
    | nil => simp [itemsFor, itemsForAll, tokensFor]
    | cons d ds =>
      have := length_itemsForAll_le (d :: ds)
      simp only [List.length_cons] at this
      cases indentless <;> simp [itemsFor, tokensFor] <;> omega
  | record fs =>
    cases fs with
    | nil => simp [itemsFor, itemsForFields, tokensFor]
    | cons f fs =>
      have := length_itemsForFields_le (f :: fs)
      simp [itemsFor, tokensFor]
      omega
  | _ => simp [itemsFor, tokensFor]

theorem length_itemsForAll_le (ds : List Data) :
    (itemsForAll ds).length + 4 * ds.length ≤ 4 * (tokensForAll ds).length := by
  cases ds with
  | nil => simp [itemsForAll, tokensForAll]
  | cons d ds =>
    have := length_itemsFor_le d false
    have := length_itemsForAll_le ds
    simp only [itemsForAll, tokensForAll, List.length_append, List.length_cons]
    omega

theorem length_itemsForFields_le (fs : List (String × Data)) :
    (itemsForFields fs).length ≤ 4 * (tokensForFields fs).length := by
  cases fs with
  | nil => simp [itemsForFields]
  | cons f fs =>
    have := length_itemsFor_le f.2 true
    have := length_itemsForFields_le fs
    simp only [itemsForFields, tokensForFields, List.length_append, List.length_cons]
    omega

end

/-! ### The document -/

/-- Whether an item stands for itself. -/
def Item.isPlain : Item → Bool
  | .reference _ | .void => false
  | _ => true

mutual

theorem isPlain_itemsFor (d : Data) : ∀ item ∈ itemsFor d, item.isPlain = true := by
  cases d with
  | list ds =>
    have := isPlain_itemsForAll ds
    simpa [itemsFor, or_imp, forall_and, Item.isPlain] using this
  | record fs =>
    have := isPlain_itemsForFields fs
    simpa [itemsFor, or_imp, forall_and, Item.isPlain] using this
  | _ => simp [itemsFor, Item.isPlain]

theorem isPlain_itemsForAll (ds : List Data) : ∀ item ∈ itemsForAll ds, item.isPlain = true := by
  cases ds with
  | nil => simp [itemsForAll]
  | cons d ds =>
    rw [itemsForAll, List.forall_mem_append]
    exact ⟨isPlain_itemsFor d, isPlain_itemsForAll ds⟩

theorem isPlain_itemsForFields (fs : List (String × Data)) :
    ∀ item ∈ itemsForFields fs, item.isPlain = true := by
  cases fs with
  | nil => simp [itemsForFields]
  | cons f fs =>
    rw [itemsForFields, List.forall_mem_cons, List.forall_mem_append]
    exact ⟨rfl, isPlain_itemsFor f.2, isPlain_itemsForFields fs⟩

end

/-- The events of items are collected as these items. -/
theorem collectItems_append {items : List Item} (hitems : ∀ item ∈ items, item.isPlain = true)
    {events : List Event} (hevents : events.map Event.form = items.map Item.event)
    (fault : Option TextFault) (names : AnchorNames) (anchors : List (Nat × Nat))
    (before : List (Item × Mark)) (rest : List Event) :
    ∃ marked : List (Item × Mark), marked.map Prod.fst = items ∧
      collectItems fault ⟨names, anchors, before⟩ (events ++ rest) =
        collectItems fault ⟨names, anchors, marked.reverse ++ before⟩ rest := by
  induction items generalizing events before with
  | nil =>
    obtain rfl := List.map_eq_nil_iff.1 hevents
    exact ⟨[], rfl, rfl⟩
  | cons item items ih =>
    obtain ⟨event, events, rfl, hevent, hevents⟩ := List.map_eq_cons_iff.1 hevents
    rw [List.forall_mem_cons] at hitems
    obtain ⟨marked, hmarked, hcollect⟩ := ih hitems.2 hevents ((item, event.mark) :: before)
    refine ⟨(item, event.mark) :: marked, by rw [List.map_cons, hmarked], ?_⟩
    rw [List.reverse_cons, List.append_assoc, List.singleton_append, ← hcollect]
    obtain ⟨form, mark⟩ := event
    subst hevent
    cases item <;> first | rfl | cases hitems.1

/-- The events of a text that holds one record. -/
theorem eventsOf_eq {source : String} {f : String × Data} {fs : List (String × Data)}
    {tokens : List Token} (hsource : tokensOf source = ⟨tokens, none⟩)
    (htokens : tokens.map Token.form =
      .streamStart :: (tokensFor false (.record (f :: fs)) ++ [.streamEnd])) :
    ∃ events, eventsOf source = ⟨events, none⟩ ∧ events.map Event.form =
      .documentStart :: (eventsFor (.record (f :: fs)) ++ [.documentEnd, .streamEnd]) := by
  obtain ⟨start, tokens, rfl, -, htokens⟩ := List.map_eq_cons_iff.1 htokens
  obtain ⟨inner, last, rfl, hinner, hlast⟩ := List.map_eq_append_iff.1 htokens
  obtain ⟨stop, rfl, hstop⟩ := List.map_eq_singleton_iff.1 hlast
  have hcount := length_itemsFor_le (.record (f :: fs)) false
  have hlength := congrArg List.length hinner
  rw [List.length_map] at hlength
  obtain ⟨n, hn⟩ : ∃ n, 4 * (start :: (inner ++ [stop])).length + 16 = (n + 1) +
      (EventForm.documentStart ::
        (eventsFor (.record (f :: fs)) ++ [.documentEnd, .streamEnd])).length := by
    refine ⟨4 * (start :: (inner ++ [stop])).length + 12 -
      (eventsFor (.record (f :: fs))).length, ?_⟩
    simp only [List.length_cons, List.length_append, eventsFor, List.length_map,
      List.length_nil]
    omega
  obtain ⟨events, hevents, hcollect⟩ :=
    ReadEvent.emits_document start hinner hstop (n + 1) []
  refine ⟨events, ?_, hevents⟩
  simp only [eventsOf, hsource]
  rw [hn, hcollect, List.append_nil, collectEvents]
  show EventStream.mk events.reverse.reverse none = _
  rw [List.reverse_reverse]

/-- **The document of a text that holds one record** has the items of the record. -/
theorem documentOf_eq {source : String} {f : String × Data} {fs : List (String × Data)}
    {tokens : List Token} (hsource : tokensOf source = ⟨tokens, none⟩)
    (htokens : tokens.map Token.form =
      .streamStart :: (tokensFor false (.record (f :: fs)) ++ [.streamEnd])) :
    ∃ items, Read.Items (.record (f :: fs)) items ∧
      documentOf source = (⟨items, [], none⟩, true) := by
  obtain ⟨events, hsource, hevents⟩ := eventsOf_eq hsource htokens
  obtain ⟨start, events, rfl, hstart, hevents⟩ := List.map_eq_cons_iff.1 hevents
  obtain ⟨inner, last, rfl, hinner, hlast⟩ := List.map_eq_append_iff.1 hevents
  obtain ⟨stop, last, rfl, hstop, hlast⟩ := List.map_eq_cons_iff.1 hlast
  obtain ⟨ending, rfl, hending⟩ := List.map_eq_singleton_iff.1 hlast
  obtain ⟨items, hitems, hcollect⟩ := collectItems_append (isPlain_itemsFor (.record (f :: fs)))
    hinner none [] [] [] (stop :: [ending])
  refine ⟨items, hitems, ?_⟩
  have hall : collectItems none .empty (start :: (inner ++ [stop, ending])) =
      (⟨items, [], none⟩, some [ending]) := by
    rw [collectItems]
    simp only [hstart]
    rw [Collected.empty, hcollect, collectItems]
    simp [hstop, Collected.document]
  simp only [documentOf, hsource, hall]
  simp [hending]

/-- **Data of a form is read back** from any text whose tokens are those of the data. -/
theorem read_of_tokensOf {schema : Schema} {f : String × Data} {fs : List (String × Data)}
    {r : Data} (hdistinct : schema.IsDistinct) (hdepth : schema.depth ≤ depthLimit)
    (h : schema.Takes Binary64.Canonical (.record (f :: fs)) r) {source : String}
    {tokens : List Token} (hsource : tokensOf source = ⟨tokens, none⟩)
    (htokens : tokens.map Token.form =
      .streamStart :: (tokensFor false (.record (f :: fs)) ++ [.streamEnd])) :
    read schema source = .ok r := by
  obtain ⟨items, hitems, hdocument⟩ := documentOf_eq hsource htokens
  have hread := Read.readsBack_ofSchema schema hdistinct hdepth h rootPath [] hitems
  rw [List.append_nil] at hread
  simp only [read, hdocument, hread.run]
  rfl

end DocBlocks.Yaml
