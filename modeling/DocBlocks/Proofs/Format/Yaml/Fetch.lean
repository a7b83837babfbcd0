import DocBlocks.Proofs.Format.Yaml.HandOut

/-!
# Finding the next token

Between two tokens the token reader stands behind a mark, with the rest of the line in front of it
(`Placed`), or the value of a line is passed and it stands somewhere between two lines (`AtLine`).
In block style the blocks that lie further right than the next line are only closed when that line
is met, and a value may still be held then.

What a text yields is therefore said for all states of such a kind, and without what they hold:
`Follows` behind a mark, `Continues` from one line to the next, and `Finds` where a token begins.
-/

namespace DocBlocks.Yaml

namespace Scan

theorem flowLevel_of_keys {s : TokenReader} {k : PossibleKey} (h : s.keys = [k]) :
    flowLevel s = 0 := by
  rw [flowLevel, h]
  rfl

/-! ### Indentation -/

theorem run_unrollWithin_of_le {s : TokenReader} {column : Int} (h : s.indent ≤ column) (fuel : Nat) :
    (unrollWithin fuel column).run s = .ok ((), s) := by
  cases fuel with
  | zero => rfl
  | succ fuel =>
    rw [unrollWithin]
    show (if column < s.indent then _ else pure () : Scan Unit).run s = _
    rw [if_neg (Int.not_lt.2 h)]
    rfl

/-- The blocks that lie further right than a column are closed. -/
theorem run_unrollWithin {column i : Int} {opened is : List Int} (hopened : ∀ j ∈ opened, column < j)
    (hi : i ≤ column) :
    ∀ (fuel : Nat) (s : TokenReader), opened.length ≤ fuel →
      s.indent :: s.indents = opened ++ i :: is →
      (unrollWithin fuel column).run s = .ok ((), { s with
        queue := s.queue ++ List.replicate opened.length ⟨.blockEnd, s.mark, s.mark⟩
        indent := i, indents := is }) := by
  induction opened with
  | nil =>
    intro fuel s hfuel hstack
    obtain ⟨hindent, hindents⟩ := List.cons.inj hstack
    have hself : ({ s with queue := s.queue ++ [], indent := i, indents := is } : TokenReader) = s := by
      rw [List.append_nil, ← hindent, ← hindents]
    rw [List.length_nil, List.replicate_zero, hself]
    exact run_unrollWithin_of_le (hindent.trans_le hi) fuel
  | cons j opened ih =>
    rintro (- | fuel) s hfuel hstack
    · simp at hfuel
    rw [List.forall_mem_cons] at hopened
    obtain ⟨hindent, hindents⟩ := List.cons.inj hstack
    have hrest := ih hopened.2 fuel { s with
        queue := s.queue ++ [⟨.blockEnd, s.mark, s.mark⟩]
        indent := s.indents.headD (-1), indents := s.indents.drop 1 }
      (by simpa using hfuel) (by rw [hindents]; cases opened <;> rfl)
    rw [unrollWithin]
    show (if column < s.indent then _ else pure () : Scan Unit).run s = _
    rw [if_pos (hindent ▸ hopened.1)]
    refine hrest.trans ?_
    rw [List.length_cons, List.replicate_succ, List.append_assoc, List.singleton_append]

theorem run_unrollIndent {s : TokenReader} (hflow : flowLevel s = 0) {column i : Int}
    {opened is : List Int} (hopened : ∀ j ∈ opened, column < j) (hi : i ≤ column)
    (hstack : s.indent :: s.indents = opened ++ i :: is) :
    (unrollIndent column).run s = .ok ((), { s with
      queue := s.queue ++ List.replicate opened.length ⟨.blockEnd, s.mark, s.mark⟩
      indent := i, indents := is }) := by
  have hlength := congrArg List.length hstack
  simp only [List.length_cons, List.length_append] at hlength
  show (if flowLevel s == 0 then unrollWithin (s.indents.length + 1) column else pure () :
    Scan Unit).run s = _
  rw [hflow, beq_self_eq_true, if_pos rfl]
  exact run_unrollWithin hopened hi _ s (by omega) hstack

/-- No block is closed in front of what is indented as far. -/
theorem run_unrollIndent_of_le {s : TokenReader} {column : Int} (h : s.indent ≤ column) :
    (unrollIndent column).run s = .ok ((), s) := by
  show (if flowLevel s == 0 then unrollWithin (s.indents.length + 1) column else pure () :
    Scan Unit).run s = _
  split
  · exact run_unrollWithin_of_le h _
  · rfl

/-- Whether a block begins at a column. It does not where it lies at the indentation of the block
around it. The stacks are those of the blocks before and behind. -/
inductive Rolls (column : Nat) (opening : TokenForm) : List Int → List Int → List TokenForm → Prop
  | stays (is : List Int) : Rolls column opening (column :: is) (column :: is) []
  | opens {i : Int} (is : List Int) : i < column →
    Rolls column opening (i :: is) (column :: i :: is) [opening]

section

variable {column : Nat} {opening : TokenForm} {i : Int} {is before after : List Int}
  {starts : List TokenForm}

theorem Rolls.head_le (h : Rolls column opening (i :: is) after starts) : i ≤ column := by
  cases h with
  | stays => exact le_rfl
  | opens _ hi => exact hi.le

theorem Rolls.exists_before (h : Rolls column opening before after starts) :
    ∃ i is, before = i :: is := by
  cases h with
  | stays is => exact ⟨_, is, rfl⟩
  | opens is hi => exact ⟨_, is, rfl⟩

theorem Rolls.exists_after (h : Rolls column opening before after starts) :
    ∃ is, after = (column : Int) :: is := by
  cases h with
  | stays is => exact ⟨is, rfl⟩
  | opens is hi => exact ⟨_, rfl⟩

end

theorem run_rollIndent_of_le {s : TokenReader} {column : Nat} (h : (column : Int) ≤ s.indent)
    (opening : TokenForm) (mark : Mark) (number : Option Nat) :
    (rollIndent column opening mark number).run s = .ok ((), s) := by
  unfold rollIndent
  rw [run_bind_of_ok (run_get s), decide_eq_false (Int.not_lt.2 h), Bool.and_false,
    if_neg Bool.false_ne_true]
  rfl

theorem exists_run_rollIndent {s : TokenReader} (hflow : flowLevel s = 0) {column : Nat}
    {opening : TokenForm} {after : List Int} {starts : List TokenForm}
    (h : Rolls column opening (s.indent :: s.indents) after starts) (mark : Mark) :
    ∃ tokens is, tokens.map Token.form = starts ∧ after = (column : Int) :: is ∧
      (rollIndent column opening mark none).run s = .ok ((), { s with
        queue := s.queue ++ tokens, indent := column, indents := is }) ∧
      (rollIndent column opening mark (some s.handedOut)).run s = .ok ((), { s with
        queue := tokens ++ s.queue, indent := column, indents := is }) := by
  generalize hstack : s.indent :: s.indents = before at h
  cases h with
  | stays is =>
    obtain ⟨hindent, hindents⟩ := List.cons.inj hstack
    have hself : ({ s with indent := column, indents := is } : TokenReader) = s := by
      rw [← hindent, ← hindents]
    refine ⟨[], is, rfl, rfl, ?_, ?_⟩
    · rw [run_rollIndent_of_le hindent.ge, List.append_nil, hself]
    · rw [run_rollIndent_of_le hindent.ge, List.nil_append, hself]
  | @opens i is hi =>
    obtain ⟨hindent, hindents⟩ := List.cons.inj hstack
    have hroom : (flowLevel s == 0 && decide (s.indent < column)) = true := by
      rw [hflow, hindent, decide_eq_true hi]
      rfl
    refine ⟨[⟨opening, mark, mark⟩], i :: is, rfl, rfl, ?_, ?_⟩
    · unfold rollIndent
      rw [run_bind_of_ok (run_get s), if_pos hroom, hstack]
      rfl
    · have hfirst : s.queue.insertIdx (s.handedOut - s.handedOut) ⟨opening, mark, mark⟩ =
          [⟨opening, mark, mark⟩] ++ s.queue := by
        rw [Nat.sub_self]
        rfl
      unfold rollIndent
      rw [run_bind_of_ok (run_get s), if_pos hroom, hstack, ← hfirst]
      rfl

/-! ### Layout -/

/-- Whether a state stands in front of a text and the layout before it, and a key may stand there.
-/
def AtLayout (s : TokenReader) (text : List Char) (mark : Mark) : Prop :=
  (s.keyAllowed = true ∧ ∃ n, s.rest = List.replicate n ' ' ++ text ∧ mark = s.mark.after n) ∨
    ∃ n, s.rest = '\n' :: (List.replicate n ' ' ++ text) ∧ mark = s.mark.newLine.after n

theorem AtLayout.run_skipLayout {s : TokenReader} {text : List Char} {mark : Mark}
    (h : AtLayout s text mark) (hstarts : StartsLine text) (hflow : flowLevel s = 0) :
    skipLayout.run s =
      .ok ((), { s with rest := text, mark := mark, keyAllowed := true }) := by
  rcases h with ⟨hkey, n, hrest, rfl⟩ | ⟨n, hrest, rfl⟩
  · have h := (gives_skipLayout hstarts s n s.mark).run
    rw [← hrest] at h
    rw [← hkey]
    exact h
  · have h := run_skipLayout_newLine hstarts hflow n s.mark
    rwa [← hrest] at h

theorem run_skipLayout_of_startsLine {s : TokenReader} (h : StartsLine s.rest) :
    skipLayout.run s = .ok ((), s) := (gives_skipLayout h s 0 s.mark).run

/-- What is done where a text begins. -/
def tokenOf (text : List Char) (flow : Bool) : Scan Unit :=
  match text with
  | [] => streamEnd
  | c :: cs => tokenAt c cs.head? flow

/-- The next token is found behind the layout, and the ends of blocks before it. -/
theorem run_fetch {s s₁ s₂ : TokenReader} (hstarted : s.started = true)
    (hskip : skipLayout.run s = .ok ((), s₁)) (hmissed : ¬Missed s₁) {keys : List PossibleKey}
    (hkeys : currentKeys s₁ = keys)
    (hunroll : (unrollIndent s₁.mark.column).run { s₁ with keys := keys } = .ok ((), s₂)) :
    fetch.run s = (tokenOf s₂.rest (flowLevel s₂ != 0)).run s₂ := by
  unfold fetch
  rw [run_bind_of_ok (run_get s), hstarted, Bool.not_true, if_neg Bool.false_ne_true,
    run_bind_of_ok hskip, run_bind_of_ok (run_dropStaleKeys hmissed), hkeys]
  have hhere : here.run { s₁ with keys := keys } = .ok (s₁.mark, { s₁ with keys := keys }) := rfl
  rw [run_bind_of_ok hhere, run_bind_of_ok hunroll]
  have hpeek : peek.run s₂ = .ok (s₂.rest.head?, s₂) := rfl
  rw [run_bind_of_ok hpeek]
  cases hrest : s₂.rest with
  | nil => rfl
  | cons c rest =>
    have hafter : (peekAt 1).run s₂ = .ok (rest.head?, s₂) := by
      show Except.ok ((s₂.rest.drop 1).head?, s₂) = _
      rw [hrest]
      rfl
    rw [List.head?_cons]
    dsimp only
    rw [run_bind_of_ok hafter]
    rfl

end Scan

open Scan

/-! ### Inside a line -/

/-- Whether a state stands inside a line, with a text in front of it and no key begun. -/
structure Placed (s : TokenReader) (column : Nat) (text : List Char) (allowed : Bool)
    (stack : List Int) : Prop where
  started : s.started = true
  ended : s.ended = false
  rest : s.rest = text
  column_mark : s.mark.column = column
  keyAllowed : s.keyAllowed = allowed
  stack_eq : s.indent :: s.indents = stack
  exists_key : ∃ k, s.keys = [k] ∧ k.possible = false

/-- Whether a text inside a line yields tokens, besides those that are held. -/
def Follows (column : Nat) (text : List Char) (allowed : Bool) (stack : List Int)
    (forms : List TokenForm) : Prop :=
  ∀ s, Placed s column text allowed stack → Yields s (heldForms s ++ forms)

/-- Whether a text yields tokens, besides those that are held, if the next token begins there. -/
def Finds (column : Nat) (text : List Char) (allowed : Bool) (stack : List Int)
    (forms : List TokenForm) : Prop :=
  ∀ s, Placed s column text allowed stack → ∃ s', (tokenOf text false).run s = .ok ((), s') ∧
    s.queue.length < s'.queue.length ∧ Yields s' (heldForms s ++ forms)

/-! ### Between lines -/

/-- Whether a state stands behind the value of a line. The next text begins at a column. -/
structure AtLine (s : TokenReader) (column : Nat) (text : List Char) (stack : List Int) : Prop where
  started : s.started = true
  ended : s.ended = false
  stack_eq : s.indent :: s.indents = stack
  exists_key : ∃ k mark, s.keys = [k] ∧ AtLayout s text mark ∧ mark.column = column ∧
    (k.possible = true → k.required = false ∧ k.mark.line < mark.line)

/-- Whether a text at the front of a line yields tokens, besides those that are held and the ends of
the blocks that lie further right. -/
structure Continues (column : Nat) (text : List Char) (base : List Int) (forms : List TokenForm) :
    Prop where
  startsLine : StartsLine text
  yields : ∀ s opened, AtLine s column text (opened ++ base) → (∀ i ∈ opened, (column : Int) < i) →
    Yields s (heldForms s ++ (List.replicate opened.length .blockEnd ++ forms))

section

variable {s : TokenReader} {column : Nat} {text : List Char} {allowed : Bool} {i : Int}
  {is base opened : List Int} {forms : List TokenForm} {mark : Mark} {k : PossibleKey}

theorem Settles.exists_key {front back : List Token} {keys : List PossibleKey}
    (h : Settles s front back keys) (hkeys : s.keys = [k]) :
    ∃ k', keys = [k'] ∧ (k' = k ∨ k' = { k with possible := false }) := by
  rcases h.keys_eq with h | h
  · exact ⟨k, h.trans hkeys, .inl rfl⟩
  · refine ⟨k.current s.mark, ?_, k.current_eq_or s.mark⟩
    rw [h, currentKeys, hkeys, List.map_singleton]

theorem not_missed_of_keys (hkeys : s.keys = [k]) (hkey : k.possible = true → k.required = false) :
    ¬Missed s := by
  rintro ⟨k', hk', hstale, hrequired⟩
  rw [hkeys, List.mem_singleton] at hk'
  subst hk'
  rw [PossibleKey.isStale, Bool.and_eq_true] at hstale
  rw [hkey hstale.1] at hrequired
  cases hrequired

/-- When more tokens are needed, the next one is found behind the ends of blocks. -/
theorem Yields.of_finds (hneeds : needsMore.run s = .ok (true, s)) (hstarted : s.started = true)
    (hended : s.ended = false) (hkeys : s.keys = [k])
    (hkey : k.possible = true → k.required = false ∧ k.mark.line < mark.line)
    (hskip : skipLayout.run s =
      .ok ((), { s with rest := text, mark := mark, keyAllowed := allowed }))
    (hopened : ∀ j ∈ opened, (mark.column : Int) < j) (hi : i ≤ mark.column)
    (hstack : s.indent :: s.indents = opened ++ i :: is)
    (h : Finds mark.column text allowed (i :: is) forms) :
    Yields s (heldForms s ++ (List.replicate opened.length .blockEnd ++ forms)) := by
  have hmissed : ¬Missed { s with rest := text, mark := mark, keyAllowed := allowed } :=
    not_missed_of_keys hkeys fun hpossible => (hkey hpossible).1
  have hcurrent : currentKeys { s with rest := text, mark := mark, keyAllowed := allowed } =
      [k.current mark] := by
    rw [currentKeys, hkeys, List.map_singleton]
  have hunroll := run_unrollIndent (s := { s with
      rest := text, mark := mark, keyAllowed := allowed, keys := [k.current mark] })
    rfl hopened hi hstack
  have hplaced : Placed { s with
      rest := text, mark := mark
      queue := s.queue ++ List.replicate opened.length ⟨.blockEnd, mark, mark⟩
      indent := i, indents := is, keyAllowed := allowed, keys := [k.current mark] }
      mark.column text allowed (i :: is) :=
    ⟨hstarted, hended, rfl, rfl, rfl, rfl, k.current mark, rfl,
      PossibleKey.possible_current_of_line_lt fun hpossible => (hkey hpossible).2⟩
  obtain ⟨s', hrun, hlength, hyields⟩ := h _ hplaced
  have hfetch : fetch.run s = .ok ((), s') :=
    (run_fetch hstarted hskip hmissed hcurrent hunroll).trans hrun
  have hmore : s.queue.length < s'.queue.length := by
    rw [List.length_append] at hlength
    omega
  rw [heldForms, List.map_append, List.map_replicate, List.append_assoc] at hyields
  exact hyields.of_fetch hneeds hended hfetch hmore

/-- Where the next token is to be found, what is held is handed out first. -/
theorem yields_of_finds (hstarted : s.started = true) (hended : s.ended = false)
    (hkeys : s.keys = [k])
    (hkey : k.possible = true → k.required = false ∧ k.mark.line < mark.line)
    (hskip : ∀ front back k', skipLayout.run (s.handedOn front back [k']) =
      .ok ((), { s.handedOn front back [k'] with
        rest := text, mark := mark, keyAllowed := allowed }))
    (hopened : ∀ j ∈ opened, (mark.column : Int) < j) (hi : i ≤ mark.column)
    (hstack : s.indent :: s.indents = opened ++ i :: is)
    (h : Finds mark.column text allowed (i :: is) forms) :
    Yields s (heldForms s ++ (List.replicate opened.length .blockEnd ++ forms)) := by
  obtain ⟨front, back, keys, hsettles⟩ :=
    exists_settles (not_missed_of_keys hkeys fun hpossible => (hkey hpossible).1)
  obtain ⟨k', rfl, hk'⟩ := hsettles.exists_key hkeys
  have hkey' : k'.possible = true → k'.required = false ∧ k'.mark.line < mark.line := by
    rcases hk' with rfl | rfl
    · exact hkey
    · exact nofun
  have hyields := Yields.of_finds hsettles.needsMore hstarted hended rfl hkey' (hskip front back k')
    hopened hi hstack h
  rw [hsettles.heldForms_eq, List.append_assoc]
  exact hsettles.yields hyields

/-- Behind blanks the next token is found. -/
theorem Follows.of_finds {n : Nat} (hstarts : StartsLine text) (hi : i ≤ (column + n : Nat))
    (h : Finds (column + n) text allowed (i :: is) forms) :
    Follows column (List.replicate n ' ' ++ text) allowed (i :: is) forms := by
  intro s hs
  obtain ⟨k, hkeys, hpossible⟩ := hs.exists_key
  have hcolumn : (s.mark.after n).column = column + n := by
    rw [Mark.column_after, hs.column_mark]
  have hskip (front back : List Token) (k' : PossibleKey) :
      skipLayout.run (s.handedOn front back [k']) = .ok ((), { s.handedOn front back [k'] with
        rest := text, mark := s.mark.after n, keyAllowed := allowed }) := by
    have hskip := (gives_skipLayout hstarts (s.handedOn front back [k']) n s.mark).run
    rw [← hs.rest] at hskip
    rw [← hs.keyAllowed]
    exact hskip
  rw [← hcolumn] at hi h
  have hopened : ∀ j ∈ ([] : List Int), ((s.mark.after n).column : Int) < j := List.forall_mem_nil _
  refine yields_of_finds hs.started hs.ended hkeys ?_ hskip hopened hi hs.stack_eq h
  rw [hpossible]
  exact nofun

/-- At the front of a line the next token is found. -/
theorem Continues.of_finds (hstarts : StartsLine text) (hi : i ≤ column)
    (h : Finds column text true (i :: is) forms) : Continues column text (i :: is) forms := by
  refine ⟨hstarts, fun s opened hs hopened => ?_⟩
  obtain ⟨k, mark, hkeys, hlayout, rfl, hkey⟩ := hs.exists_key
  refine yields_of_finds hs.started hs.ended hkeys hkey (fun front back k' => ?_) hopened hi
    hs.stack_eq h
  exact AtLayout.run_skipLayout (s := s.handedOn front back [k']) hlayout hstarts rfl

/-! ### From one line to the next -/

/-- A line may begin behind a mark. -/
theorem Continues.follows {n : Nat} (h : Continues (column + n) text base forms) :
    Follows column (List.replicate n ' ' ++ text) true base forms := by
  intro s hs
  obtain ⟨k, hkeys, hpossible⟩ := hs.exists_key
  refine h.yields s [] ⟨hs.started, hs.ended, hs.stack_eq, k, s.mark.after n, hkeys, ?_, ?_, ?_⟩
    (List.forall_mem_nil _)
  · exact .inl ⟨hs.keyAllowed, n, hs.rest, rfl⟩
  · rw [Mark.column_after, hs.column_mark]
  · rw [hpossible]
    exact nofun

/-- A line may begin behind the end of a line. -/
theorem Continues.follows_newLine {n : Nat} (h : Continues n text base forms) (column : Nat)
    (allowed : Bool) :
    Follows column ('\n' :: (List.replicate n ' ' ++ text)) allowed base forms := by
  intro s hs
  obtain ⟨k, hkeys, hpossible⟩ := hs.exists_key
  refine h.yields s [] ⟨hs.started, hs.ended, hs.stack_eq, k, s.mark.newLine.after n, hkeys, ?_, ?_, ?_⟩
    (List.forall_mem_nil _)
  · exact .inr ⟨n, hs.rest, rfl⟩
  · rw [Mark.column_after, Mark.column_newLine, Nat.zero_add]
  · rw [hpossible]
    exact nofun

/-- A block that lies further right than the next line ends in front of it. -/
theorem Continues.closing (h : Continues column text base forms) (hi : (column : Int) < i) :
    Continues column text (i :: base) (.blockEnd :: forms) := by
  refine ⟨h.startsLine, fun s opened hs hopened => ?_⟩
  have hstack : opened ++ i :: base = (opened ++ [i]) ++ base := by
    rw [List.append_assoc, List.singleton_append]
  have hall : ∀ j ∈ opened ++ [i], (column : Int) < j := by
    rw [List.forall_mem_append, List.forall_mem_singleton]
    exact ⟨hopened, hi⟩
  have hyields := h.yields s (opened ++ [i]) (hstack ▸ hs) hall
  rwa [List.length_append, List.length_singleton, List.replicate_succ', List.append_assoc,
    List.singleton_append] at hyields

end

end DocBlocks.Yaml
