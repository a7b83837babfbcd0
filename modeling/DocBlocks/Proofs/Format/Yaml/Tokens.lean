import DocBlocks.Proofs.Format.Yaml.Fetch
import DocBlocks.Proofs.Format.Yaml.Literal
import DocBlocks.Proofs.Format.Yaml.Plain
import DocBlocks.Proofs.Format.Yaml.Quoted

/-!
# Tokens where they begin

What is found where a text begins that is written for data: the value of a line (`Finds.plain`,
`Finds.quoted`, `Finds.literal`), the mark of an item of a list (`Finds.item`), a name with its
colon (`Finds.field`), and the end (`Finds.ending`). A name takes two steps: it is held as a
possible key, and its colon puts the mark of a key in front of it.
-/

namespace DocBlocks.Yaml

namespace Scan

variable {s : TokenReader} {k : PossibleKey}

/-! ### Where a token begins -/

/-- Inside a document its text is read. -/
theorem run_inDocument {c : Char} {cs : List Char} (hrest : s.rest = c :: cs)
    (hin : InDocument (c :: cs) s.mark) (hc : c ≠ '%') (p : Scan Unit) :
    (do
      if (← here).column == 0 && c == '%' then directiveLine
      else if ← documentMarkAhead '-' then documentMark .documentStart
      else if ← documentMarkAhead '.' then documentMark .documentEnd
      else p : Scan Unit).run s = p.run s := by
  obtain ⟨hdash, hdot⟩ := hin.gives_documentMarkAhead s
  have hdash := hdash.run
  have hdot := hdot.run
  rw [← hrest] at hdash hdot
  have hhere : here.run s = .ok (s.mark, s) := rfl
  rw [run_bind_of_ok hhere, beq_eq_false_iff_ne.2 hc, Bool.and_false, if_neg Bool.false_ne_true,
    run_bind_of_ok hdash, if_neg Bool.false_ne_true, run_bind_of_ok hdot, if_neg Bool.false_ne_true]

theorem run_tokenAt_quote (single : Bool) {cs : List Char} (hrest : s.rest = quoteMark single :: cs)
    (hin : InDocument (quoteMark single :: cs) s.mark) (after : Option Char) :
    (tokenAt (quoteMark single) after false).run s = (keyLike (quotedScalar single)).run s := by
  cases single
  · exact run_inDocument hrest hin (by decide) _
  · exact run_inDocument hrest hin (by decide) _

theorem run_tokenAt_literal {cs : List Char} (hrest : s.rest = '|' :: cs)
    (hin : InDocument ('|' :: cs) s.mark) (after : Option Char) :
    (tokenAt '|' after false).run s = (blockText true).run s :=
  run_inDocument hrest hin (by decide) _

theorem run_tokenAt_item {cs : List Char} (hrest : s.rest = '-' :: ' ' :: cs) :
    (tokenAt '-' (some ' ') false).run s =
      (blockMark .blockSequenceStart .blockEntry "block sequence entries").run s :=
  run_inDocument hrest (.inr rfl) (by decide) _

theorem run_tokenAt_colon {cs : List Char} (hrest : s.rest = ':' :: cs)
    (hin : InDocument (':' :: cs) s.mark) (hafter : isBlankOrGone cs.head? = true) :
    (tokenAt ':' cs.head? false).run s = valueMark.run s := by
  refine (run_inDocument hrest hin (by decide) _).trans ?_
  rw [hafter]
  rfl

theorem isBlankOrGone_of_isBlankOrEnd {cs : List Char} (h : isBlankOrEnd cs.head? = false)
    (rest : List Char) : isBlankOrGone (cs ++ rest).head? = false := by
  cases cs with
  | nil => cases h
  | cons c cs =>
    rw [List.head?_cons, isBlankOrEnd, Bool.or_eq_false_iff] at h
    exact h.1

theorem mem_indicators {c : Char} (h : c ∈ indicators) :
    c ∈ openingIndicators ∨ c = '-' ∨ c = '?' ∨ c = ':' := by
  have hall : (indicators.all fun d => openingIndicators.contains d || d == '-' || d == '?' ||
      d == ':') = true := by rfl
  simpa [or_assoc] using List.all_eq_true.1 hall c h

theorem opensPlain_of_not_mem {c : Char} {after : Option Char} (hspace : c ≠ ' ')
    (hindicator : c ∉ openingIndicators) (hprintable : isPrintable c = true)
    (hbreak : isBreak c = false) (hdash : (c == '-' && isBlankOrGone after) = false)
    (hquestion : (c == '?' && isBlankOrGone after) = false)
    (hcolon : (c == ':' && isBlankOrGone after) = false) : opensPlain false c after = true := by
  by_cases hmem : c ∈ indicators
  · rcases mem_indicators hmem with h | rfl | rfl | rfl
    · exact absurd h hindicator
    · have hblank : after.any isBlank = false := by
        cases after with
        | none => cases hdash
        | some d =>
          rw [beq_self_eq_true, Bool.true_and, isBlankOrGone, Bool.or_eq_false_iff] at hdash
          exact hdash.1
      rw [opensPlain, hblank, Bool.not_false, beq_self_eq_true, Bool.and_self, Bool.or_true,
        Bool.true_or]
    · rw [beq_self_eq_true, Bool.true_and] at hquestion
      rw [opensPlain, hquestion, beq_self_eq_true, Bool.true_or, Bool.not_false, Bool.and_self,
        Bool.and_self, Bool.or_true]
    · rw [beq_self_eq_true, Bool.true_and] at hcolon
      rw [opensPlain, hcolon, beq_self_eq_true, Bool.or_true, Bool.not_false, Bool.and_self,
        Bool.and_self, Bool.or_true]
  · have hcontains : indicators.contains c = false := by simpa using hmem
    rw [opensPlain, isBlank_eq_false hprintable hspace, hbreak, hcontains]
    rfl

/-- A plain text begins with no character that begins something else. -/
theorem run_tokenAt_plain {c : Char} {cs rest : List Char} (h : StandsPlain (c :: cs))
    (hrest : s.rest = c :: (cs ++ rest)) (hin : InDocument (c :: (cs ++ rest)) s.mark) :
    (tokenAt c (cs ++ rest).head? false).run s = (keyLike plainScalar).run s := by
  obtain ⟨hspace, hindicator⟩ := h.head c rfl
  obtain ⟨hprintable, hbreak⟩ := h.inLine c List.mem_cons_self
  have hne (d : Char) (hd : d ∈ openingIndicators) : (c == d) = false := by
    refine beq_eq_false_iff_ne.2 ?_
    rintro rfl
    exact hindicator hd
  have hmark (hc : c = '?' ∨ c = '-') : isBlankOrGone (cs ++ rest).head? = false :=
    isBlankOrGone_of_isBlankOrEnd (h.mark c rfl hc) rest
  have hdash : (c == '-' && isBlankOrGone (cs ++ rest).head?) = false := by
    by_cases hc : c = '-'
    · rw [hmark (.inr hc), Bool.and_false]
    · rw [beq_eq_false_iff_ne.2 hc, Bool.false_and]
  have hquestion : (c == '?' && isBlankOrGone (cs ++ rest).head?) = false := by
    by_cases hc : c = '?'
    · rw [hmark (.inl hc), Bool.and_false]
    · rw [beq_eq_false_iff_ne.2 hc, Bool.false_and]
  have hcolon : (c == ':' && isBlankOrGone (cs ++ rest).head?) = false := by
    by_cases hc : c = ':'
    · subst hc
      rw [isBlankOrGone_of_isBlankOrEnd (h.colon [] cs rfl) rest, Bool.and_false]
    · rw [beq_eq_false_iff_ne.2 hc, Bool.false_and]
  have hopens := opensPlain_of_not_mem hspace hindicator hprintable hbreak hdash hquestion hcolon
  refine (run_inDocument hrest hin (fun hc => ?_) _).trans ?_
  · exact hindicator (hc ▸ by decide)
  simp only [hne _ (by decide : '[' ∈ openingIndicators), hne _ (by decide : '{' ∈ openingIndicators),
    hne _ (by decide : ']' ∈ openingIndicators), hne _ (by decide : '}' ∈ openingIndicators),
    hne _ (by decide : ',' ∈ openingIndicators), hne _ (by decide : '*' ∈ openingIndicators),
    hne _ (by decide : '&' ∈ openingIndicators), hne _ (by decide : '!' ∈ openingIndicators),
    hne _ (by decide : '|' ∈ openingIndicators), hne _ (by decide : '>' ∈ openingIndicators),
    hne _ (by decide : '\'' ∈ openingIndicators), hne _ (by decide : '"' ∈ openingIndicators),
    hdash, hquestion, hcolon, hopens, Bool.false_or, Bool.false_and, Bool.false_eq_true, if_false,
    if_true]

/-! ### Keys -/

theorem run_removeKey {keys : List PossibleKey} (hkeys : s.keys = k :: keys)
    (h : k.possible = true → k.required = false) :
    removeKey.run s = .ok ((), { s with keys := { k with possible := false } :: keys }) := by
  have hgone : (k.possible && k.required) = false := by
    cases hpossible : k.possible with
    | false => rfl
    | true => rw [h hpossible]; rfl
  unfold removeKey
  rw [run_bind_of_ok (run_get s), hkeys]
  dsimp only
  rw [hgone, if_neg Bool.false_ne_true]
  rfl

/-- The possible key behind a token that may be one. -/
def savedKey (s : TokenReader) (k : PossibleKey) : PossibleKey :=
  if s.keyAllowed then ⟨true, s.indent == s.mark.column, s.handedOut + s.queue.length, s.mark⟩ else k

theorem run_saveKey (hkeys : s.keys = [k]) (h : k.possible = false) :
    saveKey.run s = .ok ((), { s with keys := [savedKey s k] }) := by
  have hrun : saveKey.run s = (if s.keyAllowed then do
        let required := flowLevel s == 0 && s.indent == s.mark.column
        removeKey
        modify fun s => { s with
          keys := ⟨true, required, s.handedOut + s.queue.length, s.mark⟩ :: s.keys.drop 1 }
      else pure () : Scan Unit).run s := rfl
  rw [hrun, savedKey]
  cases hallowed : s.keyAllowed with
  | false =>
    have hself : ({ s with keys := [k] } : TokenReader) = s := by rw [← hkeys]
    rw [if_neg Bool.false_ne_true, if_neg Bool.false_ne_true, ← hallowed, hself]
    rfl
  | true =>
    have hremove := run_removeKey hkeys fun hpossible => absurd (h ▸ hpossible) Bool.false_ne_true
    rw [if_pos rfl, if_pos rfl]
    dsimp only
    rw [run_bind_of_ok hremove, flowLevel_of_keys hkeys, beq_self_eq_true, Bool.true_and, ← hallowed]
    rfl

/-- A token that may be a key is remembered, and then passed. -/
theorem run_keyLike (h : saveKey.run s = .ok ((), { s with keys := [k] })) (p : Scan Token) :
    (keyLike p).run s =
      (do let t ← p; push t : Scan Unit).run { s with keys := [k], keyAllowed := false } := by
  show (saveKey >>= fun _ => (do allowKey false; let t ← p; push t : Scan Unit)).run s = _
  rw [run_bind_of_ok h]
  rfl

theorem StartsLine.endsGap {rest : List Char} (h : StartsLine rest) : EndsGap rest := fun c hc =>
  ⟨(h c hc).1, (h c hc).2.1⟩

theorem run_push (t : Token) (s : TokenReader) :
    (push t).run s = .ok ((), { s with queue := s.queue ++ [t] }) := rfl

end Scan

open Scan

section

variable {s : TokenReader} {column n : Nat} {text rest : List Char} {allowed : Bool} {i : Int}
  {is : List Int} {form : TokenForm} {forms : List TokenForm}

/-! ### Values of one token -/

theorem Placed.inDocument (h : Placed s column text allowed (i :: is)) (hcolumn : column ≠ 0)
    (text' : List Char) : InDocument text' s.mark := .inl (h.column_mark ▸ hcolumn)

/-- Behind the value of a line it goes on with the next line. -/
theorem Finds.of_atLine (h : Continues n rest (i :: is) forms)
    (hfinds : ∀ s, Placed s column text allowed (i :: is) →
      ∃ s' t, (tokenOf text false).run s = .ok ((), s') ∧ s'.queue = s.queue ++ [t] ∧
        t.form = form ∧ AtLine s' n rest (i :: is)) :
    Finds column text allowed (i :: is) (form :: forms) := by
  intro s hs
  obtain ⟨s', t, hrun, hqueue, hform, hline⟩ := hfinds s hs
  have hyields := h.yields s' [] hline (List.forall_mem_nil _)
  rw [heldForms, hqueue, List.map_append, List.map_singleton, hform, List.append_assoc] at hyields
  refine ⟨s', hrun, ?_, hyields⟩
  rw [hqueue, List.length_append, List.length_singleton]
  omega

/-- No key has to begin at a value that lies further right than its block. -/
theorem Placed.exists_run_saveKey (hs : Placed s column text allowed (i :: is)) (hi : i < column) :
    ∃ k, (k.possible = true → k.required = false ∧ k.mark = s.mark) ∧
      saveKey.run s = .ok ((), { s with keys := [k] }) := by
  obtain ⟨k, hkeys, hpossible⟩ := hs.exists_key
  refine ⟨savedKey s k, fun h => ?_, run_saveKey hkeys hpossible⟩
  rw [savedKey] at h ⊢
  split at h
  · rw [if_pos ‹_›]
    have hindent : s.indent = i := (List.cons.inj hs.stack_eq).1
    refine ⟨beq_eq_false_iff_ne.2 ?_, rfl⟩
    rw [hindent, hs.column_mark]
    exact hi.ne
  · rw [hpossible] at h
    cases h

/-- **A plain value is found** up to the next line. -/
theorem Finds.plain {cs : List Char} (hcs : StandsPlain cs) (hn : (n : Int) ≤ i) (hi : i < column)
    (h : Continues n rest (i :: is) forms) :
    Finds column (cs ++ '\n' :: (List.replicate n ' ' ++ rest)) allowed (i :: is)
      (.scalar (String.ofList cs) .plain :: forms) := by
  refine .of_atLine h fun s hs => ?_
  have hindent : s.indent = i := (List.cons.inj hs.stack_eq).1
  have hin : InDocument (cs ++ '\n' :: (List.replicate n ' ' ++ rest)) s.mark :=
    hs.inDocument (by omega) _
  obtain ⟨k, hk, hsave⟩ := hs.exists_run_saveKey hi
  obtain ⟨stop, mark, hcolumn, hline, hrun⟩ := exists_run_plainScalar
    (s := { s with keys := [k], keyAllowed := false }) rfl hcs (StartsLine.endsGap h.startsLine)
    (hindent ▸ hn) hin (by rw [hs.column_mark]; exact hindent ▸ hi.le)
  rw [← hs.rest] at hrun
  obtain ⟨c, cs, rfl⟩ := List.exists_cons_of_ne_nil hcs.ne_nil
  refine ⟨{ s with
      rest := rest, mark := mark, keyAllowed := true, keys := [k]
      queue := s.queue ++ [⟨.scalar (String.ofList (c :: cs)) .plain, s.mark, stop⟩] },
    ⟨.scalar (String.ofList (c :: cs)) .plain, s.mark, stop⟩,
    (run_tokenAt_plain hcs hs.rest hin).trans ((run_keyLike hsave _).trans ?_), rfl, rfl, hs.started, hs.ended,
    hs.stack_eq, k, mark, rfl, .inl ⟨rfl, 0, rfl, rfl⟩, hcolumn, fun hpossible => ?_⟩
  · rw [run_bind_of_ok hrun]
    exact run_push ..
  · obtain ⟨hrequired, hmark⟩ := hk hpossible
    exact ⟨hrequired, hmark ▸ hline⟩

/-- **A quoted value is found.** It may go on to further lines. -/
theorem Finds.quoted {single : Bool} {indent : Nat} {cs spelled : List Char}
    (hspells : Spells single indent cs spelled) (hindent : indent ≠ 0) (hi : i < column)
    (hcolumn : column ≠ 0) (h : Continues n rest (i :: is) forms) :
    Finds column
      (quoteMark single :: (spelled ++ quoteMark single :: '\n' :: (List.replicate n ' ' ++ rest)))
      allowed (i :: is) (.scalar (String.ofList cs) .quoted :: forms) := by
  refine .of_atLine h fun s hs => ?_
  obtain ⟨k, hk, hsave⟩ := hs.exists_run_saveKey hi
  have hbehind : single = true → ('\n' :: (List.replicate n ' ' ++ rest)).head? ≠ some '\'' := by
    simp
  obtain ⟨stop, hline, hgives⟩ := exists_gives_quotedScalar hspells hindent hbehind
    { s with keys := [k], keyAllowed := false } s.mark
  have hrun := hgives.run
  rw [← hs.rest] at hrun
  refine ⟨{ s with
      rest := '\n' :: (List.replicate n ' ' ++ rest), mark := stop, keyAllowed := false, keys := [k]
      queue := s.queue ++ [⟨.scalar (String.ofList cs) .quoted, s.mark, stop⟩] },
    ⟨.scalar (String.ofList cs) .quoted, s.mark, stop⟩,
    (run_tokenAt_quote single hs.rest (hs.inDocument hcolumn _) _).trans ((run_keyLike hsave _).trans ?_), rfl, rfl,
    hs.started, hs.ended, hs.stack_eq, k, stop.newLine.after n, rfl, .inr ⟨n, rfl, rfl⟩, ?_,
    fun hpossible => ?_⟩
  · rw [run_bind_of_ok hrun]
    exact run_push ..
  · rw [Mark.column_after, Mark.column_newLine, Nat.zero_add]
  · obtain ⟨hrequired, hmark⟩ := hk hpossible
    refine ⟨hrequired, ?_⟩
    rw [hmark, Mark.line_after, Mark.line_newLine]
    exact Nat.lt_succ_of_le hline

theorem Placed.exists_run_blockText (hs : Placed s column text allowed (i :: is)) :
    ∃ k, k.possible = false ∧ (blockText true).run s =
      (do let t ← blockScalar true; push t : Scan Unit).run
        { s with keys := [k], keyAllowed := true } := by
  obtain ⟨k, hkeys, hpossible⟩ := hs.exists_key
  have hremove := run_removeKey hkeys fun h => absurd (hpossible ▸ h) Bool.false_ne_true
  refine ⟨{ k with possible := false }, rfl, ?_⟩
  show (removeKey >>= fun _ => (do allowKey true; let t ← blockScalar true; push t :
    Scan Unit)).run s = _
  rw [run_bind_of_ok hremove]
  rfl

/-- **A literal block is found** up to a line that is not indented as far. -/
theorem Finds.literal {cs : List Char} (hchars : ∀ c ∈ cs, isPrintable c = true) (hne : cs ≠ [])
    {i : Nat} (hn : n < i + 2) (hcolumn : column ≠ 0)
    (h : Continues n rest ((i : Int) :: is) forms) :
    Finds column (endLine (literalHead cs ++ '\n' :: literalBody (i + 2) true cs) ++
      (List.replicate n ' ' ++ rest)) allowed ((i : Int) :: is)
      (.scalar (String.ofList cs) .literal :: forms) := by
  refine .of_atLine h fun s hs => ?_
  obtain ⟨k, hk, hblockText⟩ := hs.exists_run_blockText
  obtain ⟨mark, hmark, hline, hgives⟩ := exists_gives_literal
    (s := { s with keys := [k], keyAllowed := true }) hchars hne (List.cons.inj hs.stack_eq).1 hn
    (StartsLine.endsGap h.startsLine) s.mark
  have hrun := hgives.run
  rw [← hs.rest] at hrun
  obtain ⟨tail, htail⟩ : ∃ tail, endLine (literalHead cs ++ '\n' :: literalBody (i + 2) true cs) ++
      (List.replicate n ' ' ++ rest) = '|' :: tail := by
    rw [endLine_literal _ _ hne]
    exact ⟨_, rfl⟩
  have hrest : s.rest = '|' :: tail := hs.rest.trans htail
  refine ⟨{ s with
      rest := rest, mark := mark, keyAllowed := true, keys := [k]
      queue := s.queue ++ [⟨.scalar (String.ofList cs) .literal, s.mark, mark⟩] },
    ⟨.scalar (String.ofList cs) .literal, s.mark, mark⟩, ?_, rfl, rfl, hs.started, hs.ended,
    hs.stack_eq, k, mark, rfl, .inl ⟨rfl, 0, rfl, rfl⟩, hmark, fun hpossible => ?_⟩
  · rw [htail]
    refine (run_tokenAt_literal hrest (hs.inDocument hcolumn _) _).trans (hblockText.trans ?_)
    rw [run_bind_of_ok hrun]
    exact run_push ..
  · rw [hk] at hpossible
    cases hpossible

/-! ### Empty lists and records -/

/-- Whether a state stands in front of the bracket that closes what was just opened. -/
structure Bracketed (s : TokenReader) (column : Nat) (text : List Char) (stack : List Int) : Prop where
  started : s.started = true
  ended : s.ended = false
  rest_eq : s.rest = text
  column_mark : s.mark.column = column
  stack_eq : s.indent :: s.indents = stack
  exists_key : ∃ k, s.keys = [.none, k] ∧
    (k.possible = true → k.required = false ∧ k.mark.line = s.mark.line ∧
      s.mark.index ≤ k.mark.index + longestKey)

/-- A bracket that opens is found. -/
theorem Placed.exists_run_openBracket (hs : Placed s column text allowed (i :: is)) (hi : i < column)
    {c : Char} {cs : List Char} (htext : text = c :: cs) (form : TokenForm) :
    ∃ s', (openBracket form).run s = .ok ((), s') ∧
      s'.queue = s.queue ++ [⟨form, s.mark, s.mark.after 1⟩] ∧
      Bracketed s' (column + 1) cs (i :: is) := by
  obtain ⟨k, hk, hsave⟩ := hs.exists_run_saveKey hi
  have hdrop : cs = s.rest.drop 1 := by rw [hs.rest, htext]; rfl
  refine ⟨{ s with
      rest := cs, mark := s.mark.after 1, keyAllowed := true, keys := [.none, k]
      queue := s.queue ++ [⟨form, s.mark, s.mark.after 1⟩] }, ?_, rfl, hs.started, hs.ended, rfl,
    congrArg (· + 1) hs.column_mark, hs.stack_eq, k, rfl, fun hpossible => ?_⟩
  · show (saveKey >>= fun _ => (do enterFlow; allowKey true; pushMark form 1 : Scan Unit)).run s = _
    rw [run_bind_of_ok hsave, hdrop]
    rfl
  · obtain ⟨hrequired, hmark⟩ := hk hpossible
    have hindex : s.mark.index + 1 ≤ s.mark.index + longestKey :=
      Nat.add_le_add_left (by decide) _
    exact ⟨hrequired, by rw [hmark, Mark.line_after], hmark ▸ hindex⟩

theorem Bracketed.forall_not_isStale (h : Bracketed s column text (i :: is)) :
    ∀ k ∈ s.keys, k.isStale s.mark = false := by
  obtain ⟨k, hkeys, hk⟩ := h.exists_key
  rw [hkeys, List.forall_mem_cons, List.forall_mem_singleton]
  refine ⟨rfl, ?_⟩
  cases hpossible : k.possible with
  | false => rw [PossibleKey.isStale, hpossible, Bool.false_and]
  | true =>
    obtain ⟨-, hline, hindex⟩ := hk hpossible
    rw [PossibleKey.isStale, decide_eq_false (by omega), decide_eq_false (by omega), Bool.or_self,
      Bool.and_false]

/-- **The bracket that closes is found**, and then the next line. -/
theorem Bracketed.exists_run_fetch {d : Char} {closing : TokenForm}
    (hs : Bracketed s column (d :: '\n' :: (List.replicate n ' ' ++ rest)) (i :: is))
    (hstarts : StartsLine (d :: '\n' :: (List.replicate n ' ' ++ rest)))
    (hclose : ∀ after, (tokenAt d after true).run s = (closeBracket closing).run s)
    (hi : i ≤ column) :
    ∃ s' t, fetch.run s = .ok ((), s') ∧ s'.queue = s.queue ++ [t] ∧ t.form = closing ∧
      AtLine s' n rest (i :: is) := by
  obtain ⟨k, hkeys, hk⟩ := hs.exists_key
  have hindent : s.indent = i := (List.cons.inj hs.stack_eq).1
  have hunroll : (unrollIndent s.mark.column).run s = .ok ((), s) :=
    run_unrollIndent_of_le (by rw [hs.column_mark, hindent]; exact hi)
  have hfetch := run_fetch hs.started (run_skipLayout_of_startsLine (by rw [hs.rest_eq]; exact hstarts))
    (not_missed_of_forall hs.forall_not_isStale) (currentKeys_of_forall hs.forall_not_isStale) hunroll
  refine ⟨{ s with
      rest := '\n' :: (List.replicate n ' ' ++ rest), mark := s.mark.after 1, keyAllowed := false
      keys := [k], queue := s.queue ++ [⟨closing, s.mark, s.mark.after 1⟩] },
    ⟨closing, s.mark, s.mark.after 1⟩, ?_, rfl, rfl, hs.started, hs.ended, hs.stack_eq, k,
    (s.mark.after 1).newLine.after n, rfl, .inr ⟨n, rfl, rfl⟩, ?_, fun hpossible => ?_⟩
  · have hdrop : '\n' :: (List.replicate n ' ' ++ rest) = s.rest.drop 1 := by rw [hs.rest_eq]; rfl
    have hflow : (flowLevel s != 0) = true := by rw [flowLevel, hkeys]; rfl
    have hremove : removeKey.run s = .ok ((), s) := by
      have hrun := run_removeKey hkeys fun h => absurd h Bool.false_ne_true
      -- where no key was possible, giving it up changes nothing
      have hself : ({ s with keys := { PossibleKey.none with possible := false } :: [k] } :
          TokenReader) = s := by
        show ({ s with keys := [.none, k] } : TokenReader) = s
        rw [← hkeys]
      rwa [hself] at hrun
    have hleave : leaveFlow.run s = .ok ((), { s with keys := [k] }) := by
      show Except.ok ((), if flowLevel s == 0 then s else { s with keys := s.keys.drop 1 }) = _
      rw [flowLevel, hkeys]
      rfl
    rw [hfetch, hflow, hs.rest_eq]
    refine (hclose _).trans ?_
    show (removeKey >>= fun _ => leaveFlow >>= fun _ =>
      (do allowKey false; pushMark closing 1 : Scan Unit)).run s = _
    rw [run_bind_of_ok hremove, run_bind_of_ok hleave, hdrop]
    rfl
  · rw [Mark.column_after, Mark.column_newLine, Nat.zero_add]
  · obtain ⟨hrequired, hmark, -⟩ := hk hpossible
    refine ⟨hrequired, ?_⟩
    rw [hmark, Mark.line_after, Mark.line_newLine]
    exact Nat.lt_succ_self _

/-- **Brackets with nothing between them are found.** -/
theorem Finds.brackets {c d : Char} {opening closing : TokenForm}
    (hopen : ∀ s cs, s.rest = c :: cs → InDocument (c :: cs) s.mark →
      ∀ after, (tokenAt c after false).run s = (openBracket opening).run s)
    (hclose : ∀ s cs, s.rest = d :: cs → InDocument (d :: cs) s.mark →
      ∀ after, (tokenAt d after true).run s = (closeBracket closing).run s)
    (hd : isBlank d = false ∧ isBreak d = false ∧ d ≠ '#' ∧ d.toNat ≠ 0xFEFF) (hi : i < column)
    (hcolumn : column ≠ 0) (h : Continues n rest (i :: is) forms) :
    Finds column (c :: d :: '\n' :: (List.replicate n ' ' ++ rest)) allowed (i :: is)
      (opening :: closing :: forms) := by
  intro s hs
  obtain ⟨s₁, hrun, hqueue, hs₁⟩ := hs.exists_run_openBracket hi rfl opening
  obtain ⟨front, back, keys, hsettles⟩ :=
    exists_settles (not_missed_of_forall hs₁.forall_not_isStale)
  obtain rfl := hsettles.keys_eq_of_forall hs₁.forall_not_isStale
  have hs₂ : Bracketed (s₁.handedOn front back s₁.keys) (column + 1)
      (d :: '\n' :: (List.replicate n ' ' ++ rest)) (i :: is) :=
    ⟨hs₁.started, hs₁.ended, hs₁.rest_eq, hs₁.column_mark, hs₁.stack_eq, hs₁.exists_key⟩
  have hin : InDocument (d :: '\n' :: (List.replicate n ' ' ++ rest)) s₁.mark :=
    .inl (by rw [hs₁.column_mark]; omega)
  obtain ⟨s', t, hfetch, hqueue', hform, hline⟩ := hs₂.exists_run_fetch (startsLine_cons hd _)
    (hclose _ _ hs₂.rest_eq hin) (by push_cast; omega)
  have hyields := h.yields s' [] hline (List.forall_mem_nil _)
  have hheld : heldForms s' = heldForms (s₁.handedOn front back s₁.keys) ++ [closing] := by
    rw [heldForms, hqueue', List.map_append, List.map_singleton, hform]
    rfl
  have hheld₁ : heldForms s₁ = heldForms s ++ [opening] := by
    rw [heldForms, hqueue, List.map_append]
    rfl
  have hmore : (s₁.handedOn front back s₁.keys).queue.length < s'.queue.length := by
    rw [hqueue', List.length_append, List.length_singleton]
    exact Nat.lt_succ_self _
  have hall := hsettles.yields (hyields.of_fetch hsettles.needsMore hs₁.ended hfetch hmore)
  rw [hheld, List.length_nil, List.replicate_zero, List.nil_append, ← List.append_assoc,
    ← List.append_assoc, ← hsettles.heldForms_eq, hheld₁, List.append_assoc, List.append_assoc] at hall
  refine ⟨s₁, (hopen s _ hs.rest (hs.inDocument hcolumn _) _).trans hrun, ?_, hall⟩
  rw [hqueue, List.length_append, List.length_singleton]
  exact Nat.lt_succ_self _

theorem Finds.emptyList (hi : i < column) (hcolumn : column ≠ 0)
    (h : Continues n rest (i :: is) forms) :
    Finds column ('[' :: ']' :: '\n' :: (List.replicate n ' ' ++ rest)) allowed (i :: is)
      (.flowSequenceStart :: .flowSequenceEnd :: forms) :=
  .brackets (fun _ _ hrest hin _ => run_inDocument hrest hin (by decide) _)
    (fun _ _ hrest hin _ => run_inDocument hrest hin (by decide) _) (by decide) hi hcolumn h

theorem Finds.emptyRecord (hi : i < column) (hcolumn : column ≠ 0)
    (h : Continues n rest (i :: is) forms) :
    Finds column ('\x7b' :: '\x7d' :: '\n' :: (List.replicate n ' ' ++ rest)) allowed (i :: is)
      (.flowMappingStart :: .flowMappingEnd :: forms) :=
  .brackets (fun _ _ hrest hin _ => run_inDocument hrest hin (by decide) _)
    (fun _ _ hrest hin _ => run_inDocument hrest hin (by decide) _) (by decide) hi hcolumn h

/-! ### Items -/

/-- **The mark of an item is found**, and with the first one its list. -/
theorem Finds.item {after : List Int} {starts : List TokenForm}
    (hroll : Rolls column .blockSequenceStart (i :: is) after starts)
    (h : Follows (column + 1) (' ' :: text) true after forms) :
    Finds column ('-' :: ' ' :: text) true (i :: is) (starts ++ .blockEntry :: forms) := by
  intro s hs
  obtain ⟨k, hkeys, hpossible⟩ := hs.exists_key
  have hflow := flowLevel_of_keys hkeys
  rw [← hs.stack_eq, ← hs.column_mark] at hroll
  obtain ⟨tokens, is', hstarts, rfl, hrun, -⟩ := exists_run_rollIndent hflow hroll s.mark
  obtain ⟨s', hs'⟩ : ∃ s' : TokenReader, s' = { s with
      rest := ' ' :: text, mark := s.mark.after 1, keyAllowed := true
      keys := [{ k with possible := false }], indent := s.mark.column, indents := is'
      queue := s.queue ++ tokens ++ [⟨.blockEntry, s.mark, s.mark.after 1⟩] } := ⟨_, rfl⟩
  have hmark : (blockMark .blockSequenceStart .blockEntry "block sequence entries").run s =
      .ok ((), s') := by
    have hremove := run_removeKey (s := { s with
      queue := s.queue ++ tokens, indent := s.mark.column, indents := is' }) hkeys fun h =>
      absurd (hpossible ▸ h) Bool.false_ne_true
    have hdrop : ' ' :: text = s.rest.drop 1 := by rw [hs.rest]; rfl
    unfold blockMark
    rw [run_bind_of_ok (run_get s), hflow, hs.keyAllowed]
    simp only [beq_self_eq_true, if_true, Bool.not_true, Bool.false_eq_true, if_false]
    rw [run_bind_of_ok hrun, run_bind_of_ok hremove, hs', hdrop]
    rfl
  have hplaced : Placed s' (column + 1) (' ' :: text) true ((s.mark.column : Int) :: is') := by
    subst hs'
    exact ⟨hs.started, hs.ended, rfl, congrArg (· + 1) hs.column_mark, rfl, rfl, _, rfl, rfl⟩
  have hqueue : s'.queue = s.queue ++ tokens ++ [⟨.blockEntry, s.mark, s.mark.after 1⟩] := by
    rw [hs']
  have hyields := h s' hplaced
  rw [heldForms, hqueue, List.map_append, List.map_append, hstarts, List.append_assoc,
    List.append_assoc] at hyields
  refine ⟨s', (run_tokenAt_item hs.rest).trans hmark, ?_, hyields⟩
  rw [hqueue, List.length_append, List.length_append, List.length_singleton]
  omega

/-! ### Fields -/

theorem opensDocument_append_colon {cs : List Char} (h : opensDocument cs = false)
    (rest : List Char) : opensDocument (cs ++ ':' :: rest) = false := by
  rw [opensDocument, Bool.or_eq_false_iff] at h ⊢
  rcases cs with - | ⟨a, - | ⟨b, - | ⟨c, cs⟩⟩⟩
  · exact ⟨rfl, rfl⟩
  · simp [List.isPrefixOf]
  · simp [List.isPrefixOf]
  · exact h

/-- Whether a state stands in front of a colon, with the name before it held as a possible key. -/
structure Named (s : TokenReader) (front : List Token) (t : Token) (k : PossibleKey)
    (column length : Nat) (rest : List Char) (stack : List Int) : Prop where
  started : s.started = true
  ended : s.ended = false
  rest_eq : s.rest = ':' :: rest
  column_mark : s.mark.column = column + length
  column_key : k.mark.column = column
  queue_eq : s.queue = front ++ [t]
  stack_eq : s.indent :: s.indents = stack
  keys_eq : s.keys = [k]
  possible : k.possible = true
  isStale : k.isStale s.mark = false
  token : k.token = s.handedOut + front.length

section

variable {front : List Token} {t : Token} {k : PossibleKey} {length : Nat} {stack after : List Int}
  {starts : List TokenForm}

theorem Named.handedOn (h : Named s front t k column length rest stack) :
    Named (s.handedOn front [t] [k]) [] t k column length rest stack :=
  ⟨h.started, h.ended, h.rest_eq, h.column_mark, h.column_key, rfl, h.stack_eq, rfl, h.possible,
    h.isStale, h.token⟩

/-- **A name is found**, and held. -/
theorem Placed.exists_named {cs : List Char} (hs : Placed s column (cs ++ ':' :: rest) true (i :: is))
    (hcs : StandsPlain cs) (hlength : cs.length ≤ longestKey)
    (hbehind : isBlankOrGone rest.head? = true) (hi : i ≤ column) :
    ∃ s' t k, (tokenOf (cs ++ ':' :: rest) false).run s = .ok ((), s') ∧
      t.form = .scalar (String.ofList cs) .plain ∧
      Named s' s.queue t k column cs.length rest (i :: is) := by
  obtain ⟨k, hkeys, hpossible⟩ := hs.exists_key
  have hindent : s.indent = i := (List.cons.inj hs.stack_eq).1
  have hin : InDocument (cs ++ ':' :: rest) s.mark :=
    .inr (opensDocument_append_colon hcs.document rest)
  have hsaved : savedKey s k =
      ⟨true, s.indent == s.mark.column, s.handedOut + s.queue.length, s.mark⟩ := by
    rw [savedKey, hs.keyAllowed, if_pos rfl]
  have hsave := run_saveKey hkeys hpossible
  rw [hsaved] at hsave
  have hscalar := (gives_plainScalar (s := { s with
      keys := [⟨true, s.indent == s.mark.column, s.handedOut + s.queue.length, s.mark⟩]
      keyAllowed := false }) rfl hcs hbehind hin
    (by rw [hs.column_mark]; exact hindent ▸ hi)).run
  rw [← hs.rest] at hscalar
  have hline : ¬s.mark.line < s.mark.line := lt_irrefl _
  have hindex : ¬s.mark.index + longestKey < s.mark.index + cs.length := by omega
  have hstale : PossibleKey.isStale
      ⟨true, s.indent == s.mark.column, s.handedOut + s.queue.length, s.mark⟩
      (s.mark.after cs.length) = false := by
    rw [PossibleKey.isStale, Bool.true_and, Mark.line_after, decide_eq_false hline, Bool.false_or]
    exact decide_eq_false hindex
  refine ⟨{ s with
      rest := ':' :: rest, mark := s.mark.after cs.length, keyAllowed := false
      keys := [⟨true, s.indent == s.mark.column, s.handedOut + s.queue.length, s.mark⟩]
      queue := s.queue ++ [⟨.scalar (String.ofList cs) .plain, s.mark, s.mark.after cs.length⟩] },
    ⟨.scalar (String.ofList cs) .plain, s.mark, s.mark.after cs.length⟩,
    ⟨true, s.indent == s.mark.column, s.handedOut + s.queue.length, s.mark⟩, ?_, rfl,
    hs.started, hs.ended, rfl, ?_, hs.column_mark, rfl, hs.stack_eq, rfl, rfl, hstale, rfl⟩
  · obtain ⟨c, cs, rfl⟩ := List.exists_cons_of_ne_nil hcs.ne_nil
    refine (run_tokenAt_plain hcs hs.rest hin).trans ((run_keyLike hsave _).trans ?_)
    rw [run_bind_of_ok hscalar]
    exact run_push ..
  · rw [Mark.column_after, hs.column_mark]

/-- **A colon makes the name in front of it a key**, and the first one opens a record. -/
theorem Named.exists_run_fetch (h : Named s [] t k column length rest stack)
    (hbehind : isBlankOrGone rest.head? = true) (hlength : 0 < length)
    (hroll : Rolls column .blockMappingStart stack after starts) :
    ∃ s', fetch.run s = .ok ((), s') ∧ heldForms s' = starts ++ [.key, t.form, .value] ∧
      Placed s' (column + length + 1) rest false after := by
  have hstarts : StartsLine s.rest := by
    rw [h.rest_eq]
    exact startsLine_cons (by decide) rest
  have hcurrent : ∀ k' ∈ s.keys, k'.isStale s.mark = false := by
    rw [h.keys_eq, List.forall_mem_singleton]
    exact h.isStale
  have hindent : s.indent ≤ s.mark.column := by
    rw [← h.stack_eq] at hroll
    have := hroll.head_le
    have := h.column_mark
    omega
  have hcolumn : s.mark.column ≠ 0 := by
    have := h.column_mark
    omega
  rw [← h.stack_eq, ← h.column_key] at hroll
  obtain ⟨tokens, is, htokens, rfl, -, hrun⟩ := exists_run_rollIndent (s := { s with
    queue := [⟨.key, k.mark, k.mark⟩, t] }) (flowLevel_of_keys h.keys_eq) hroll k.mark
  have htoken : k.token = s.handedOut := h.token
  have hinsert : (insertToken k.token ⟨.key, k.mark, k.mark⟩).run s =
      .ok ((), { s with queue := [⟨.key, k.mark, k.mark⟩, t] }) := by
    have hfirst : s.queue.insertIdx (k.token - s.handedOut) ⟨.key, k.mark, k.mark⟩ =
        [⟨.key, k.mark, k.mark⟩, t] := by
      rw [h.queue_eq, htoken, Nat.sub_self]
      rfl
    rw [← hfirst]
    rfl
  have hvalue : valueMark.run s = (do
      insertToken k.token ⟨.key, k.mark, k.mark⟩
      rollIndent k.mark.column .blockMappingStart k.mark (some k.token)
      modify fun s => { s with keys := [{ k with possible := false }], keyAllowed := false }
      pushMark .value 1 : Scan Unit).run s := by
    unfold valueMark
    rw [run_bind_of_ok (run_get s), h.keys_eq]
    simp only [h.possible, if_true]
  refine ⟨{ s with
      rest := rest, mark := s.mark.after 1, keyAllowed := false, keys := [{ k with possible := false }]
      queue := tokens ++ [⟨.key, k.mark, k.mark⟩, t] ++ [⟨.value, s.mark, s.mark.after 1⟩]
      indent := k.mark.column, indents := is }, ?_, ?_, h.started, h.ended, rfl, ?_, rfl, rfl, _, rfl,
    rfl⟩
  · have hmark : (tokenOf s.rest (flowLevel s != 0)).run s = valueMark.run s := by
      rw [h.rest_eq, flowLevel_of_keys h.keys_eq]
      exact run_tokenAt_colon h.rest_eq (.inl hcolumn) hbehind
    have hdrop : rest = s.rest.drop 1 := by rw [h.rest_eq]; rfl
    rw [run_fetch h.started (run_skipLayout_of_startsLine hstarts) (not_missed_of_forall hcurrent)
      (currentKeys_of_forall hcurrent) (run_unrollIndent_of_le hindent), hmark, hvalue,
      run_bind_of_ok hinsert, htoken, run_bind_of_ok hrun, hdrop]
    rfl
  · rw [heldForms, List.map_append, List.map_append, htokens, List.append_assoc]
    rfl
  · rw [Mark.column_after, h.column_mark]

/-- **A name with its colon is found**, and with the first one its record. -/
theorem Finds.field {cs : List Char} (hcs : StandsPlain cs) (hlength : cs.length ≤ longestKey)
    (hbehind : isBlankOrGone rest.head? = true)
    (hroll : Rolls column .blockMappingStart (i :: is) after starts)
    (h : Follows (column + cs.length + 1) rest false after forms) :
    Finds column (cs ++ ':' :: rest) true (i :: is)
      (starts ++ .key :: .scalar (String.ofList cs) .plain :: .value :: forms) := by
  intro s hs
  obtain ⟨s₁, t, k, hrun, hform, hnamed⟩ := hs.exists_named hcs hlength hbehind hroll.head_le
  have hpos : 0 < cs.length := List.length_pos_iff.2 hcs.ne_nil
  have hqueue := hnamed.queue_eq
  refine ⟨s₁, hrun, by rw [hqueue, List.length_append, List.length_singleton]; omega, ?_⟩
  refine Yields.of_held hqueue hnamed.keys_eq hnamed.possible hnamed.isStale hnamed.token
    fun hneeds => ?_
  -- the name is the only token that is left when the colon is met
  obtain ⟨s₂, hfetch, hheld, hplaced⟩ := hnamed.handedOn.exists_run_fetch hbehind hpos hroll
  have hyields := h s₂ hplaced
  rw [hheld, hform, List.append_assoc] at hyields
  refine hyields.of_fetch hneeds hnamed.ended hfetch ?_
  have hcount := congrArg List.length hheld
  rw [heldForms, List.length_map, List.length_append] at hcount
  rw [hcount]
  show 1 < starts.length + 3
  omega

end

/-! ### The end of the text -/

/-- **At the end of the text the last block is closed.** -/
theorem Finds.ending : Finds 0 [] true [0, -1] [.blockEnd, .streamEnd] := by
  intro s hs
  obtain ⟨k, hkeys, hpossible⟩ := hs.exists_key
  have hfront : (modify fun s : TokenReader => if s.mark.column == 0 then s
      else { s with mark := ⟨s.mark.index, s.mark.line + 1, 0⟩ } : Scan Unit).run s = .ok ((), s) := by
    show Except.ok ((), if s.mark.column == 0 then s else _) = _
    rw [hs.column_mark]
    rfl
  have hunroll : (unrollIndent (-1)).run s = .ok ((), { s with
      queue := s.queue ++ [⟨.blockEnd, s.mark, s.mark⟩], indent := -1, indents := [] }) :=
    run_unrollIndent (flowLevel_of_keys hkeys) (List.forall_mem_singleton.2 (by decide)) le_rfl
      hs.stack_eq
  have hremove := run_removeKey (s := { s with
    queue := s.queue ++ [⟨.blockEnd, s.mark, s.mark⟩], indent := -1, indents := [] }) hkeys fun h =>
    absurd (hpossible ▸ h) Bool.false_ne_true
  obtain ⟨s', hs'⟩ : ∃ s' : TokenReader, s' = { s with
      keyAllowed := false, keys := [{ k with possible := false }], indent := -1, indents := []
      ended := true
      queue := s.queue ++ [⟨.blockEnd, s.mark, s.mark⟩] ++ [⟨.streamEnd, s.mark, s.mark⟩] } := ⟨_, rfl⟩
  have hrun : streamEnd.run s = .ok ((), s') := by
    unfold streamEnd
    rw [run_bind_of_ok hfront, run_bind_of_ok hunroll, run_bind_of_ok hremove, hs']
    rfl
  have hheld : heldForms s' = heldForms s ++ [.blockEnd, .streamEnd] := by
    rw [heldForms, hs', List.map_append, List.map_append, List.append_assoc]
    rfl
  have hmissed : ¬Missed s' := by
    refine not_missed_of_forall ?_
    rw [hs', List.forall_mem_singleton]
    rfl
  have hyields := Yields.of_ended (by rw [hs']) hmissed
  rw [hheld] at hyields
  refine ⟨s', hrun, ?_, hyields⟩
  rw [hs']
  simp only [List.length_append, List.length_singleton]
  omega

end

end DocBlocks.Yaml
