import DocBlocks.Proofs.Format.Yaml.Event
import DocBlocks.Proofs.Format.Yaml.Literal
import DocBlocks.Proofs.Format.Yaml.Quoted

/-!
# Written text

What data is written as: a text in one of its styles, a value of one line (`WritesLine`), or the
lines of a list or a record below each other. Every item has a mark in front of its value, and every
field has a colon, so what is written is long enough for its tokens, and it is printable
(`fills_writeBlock`).

Only data whose numbers are canonical and whose names can stand as keys is considered
(`IsWritable`).
-/

namespace DocBlocks.Yaml

open Scan

/-! ### What can be written -/

/-- Whether a text can stand as the name of a field. -/
def IsKey (name : String) : Prop := styleOf name = .plain ∧ name.toList.length ≤ longestKey

instance (name : String) : Decidable (IsKey name) := inferInstanceAs (Decidable (_ ∧ _))

mutual

/-- Whether the names in data can stand as keys, and its numbers are canonical. -/
def IsWritable : Data → Prop
  | .float x => x.Canonical
  | .list ds => AreWritable ds
  | .record fs => HasWritable fs
  | _ => True

/-- Whether all of some data is writable. -/
def AreWritable : List Data → Prop
  | [] => True
  | d :: ds => IsWritable d ∧ AreWritable ds

/-- Whether all fields are writable under their names. -/
def HasWritable : List (String × Data) → Prop
  | [] => True
  | (name, d) :: fs => IsKey name ∧ IsWritable d ∧ HasWritable fs

end

/-! ### Styles of text -/

theorem standsPlain_of_styleOf {s : String} (h : styleOf s = .plain) : StandsPlain s.toList := by
  simp only [styleOf] at h
  split_ifs at h with hbreak hliteral hbare hsingle
  simp only [Bool.and_eq_true, beq_iff_eq] at hbare
  refine .of_allowsPlain hbare.2 fun hnil => ?_
  have hread : readScalar s = .null := by
    rw [String.toList_eq_nil_iff.1 hnil]
    rfl
  rw [hread] at hbare
  cases hbare.1.1

theorem allowsSingle_of_styleOf {s : String} (h : styleOf s = .single) :
    allowsSingle s.toList = true ∧ '\n' ∉ s.toList := by
  simp only [styleOf] at h
  split_ifs at h with hbreak hliteral hbare hsingle
  exact ⟨hsingle, fun hmem => hbreak (List.contains_iff_mem.2 hmem)⟩

theorem allowsLiteral_of_styleOf {s : String} (h : styleOf s = .literal) :
    allowsLiteral s.toList = true ∧ '\n' ∈ s.toList := by
  simp only [styleOf] at h
  split_ifs at h with hbreak hliteral hbare hsingle
  exact ⟨hliteral, List.contains_iff_mem.1 hbreak⟩

theorem isPrintable_of_allowsSingle {cs : List Char} (h : allowsSingle cs = true) :
    ∀ c ∈ cs, isPrintable c = true := by
  simp only [allowsSingle, Bool.and_eq_true, List.all_eq_true] at h
  exact h.1.1

theorem isPrintable_of_allowsLiteral {cs : List Char} (h : allowsLiteral cs = true) :
    ∀ c ∈ cs, isPrintable c = true := by
  simp only [allowsLiteral, Bool.and_eq_true, List.all_eq_true] at h
  exact h.1.1

theorem spells_single_of_allowsSingle (indent : Nat) {cs : List Char} (h : allowsSingle cs = true)
    (hline : '\n' ∉ cs) : Spells true indent cs (singleQuoted indent false cs) := by
  have hprintable := isPrintable_of_allowsSingle h
  simp only [allowsSingle, Bool.and_eq_true, Bool.not_eq_true'] at h
  obtain ⟨⟨-, hbefore⟩, hafter⟩ := h
  refine spells_single indent (fun c hc => ⟨hprintable c hc, ?_⟩) (fun front c back hcs => ?_)
    (fun front c back hcs => ?_)
  · rintro rfl
    exact hline hc
  · exact anyNext_eq_false hbefore hcs
  · have hcs' : cs = (front ++ [c]) ++ ' ' :: back := by
      rw [hcs, List.append_assoc]
      rfl
    have hnext := anyNext_eq_false hafter hcs'
    rwa [List.getLast?_concat, beq_self_eq_true, Bool.true_and] at hnext

/-! ### Printable text -/

theorem isPrintable_indentation (n : Nat) : ∀ c ∈ indentation n, isPrintable c = true := by
  intro c hc
  rw [List.eq_of_mem_replicate hc]
  decide

theorem isPrintable_singleQuoted (n : Nat) (after : Bool) {cs : List Char}
    (h : ∀ c ∈ cs, isPrintable c = true) : ∀ c ∈ singleQuoted n after cs, isPrintable c = true := by
  have hindent (after : Bool) :
      ∀ c ∈ (if after then indentation n else []), isPrintable c = true := by
    cases after
    · exact List.forall_mem_nil _
    · exact isPrintable_indentation n
  induction cs generalizing after with
  | nil =>
    rw [singleQuoted]
    exact hindent after
  | cons c cs ih =>
    rw [List.forall_mem_cons] at h
    rw [singleQuoted]
    split
    · rw [List.forall_mem_cons]
      exact ⟨h.1, ih true h.2⟩
    · rw [List.forall_mem_append, List.forall_mem_append]
      refine ⟨⟨hindent after, ?_⟩, ih false h.2⟩
      split
      · exact List.all_eq_true.1 rfl
      · rw [List.forall_mem_singleton]
        exact h.1

theorem isPrintable_literalBody (n : Nat) (after : Bool) {cs : List Char}
    (h : ∀ c ∈ cs, isPrintable c = true) : ∀ c ∈ literalBody n after cs, isPrintable c = true := by
  induction cs generalizing after with
  | nil => exact List.forall_mem_nil _
  | cons c cs ih =>
    rw [List.forall_mem_cons] at h
    rw [literalBody]
    split
    · rw [List.forall_mem_cons]
      exact ⟨h.1, ih true h.2⟩
    · rw [List.forall_mem_append, List.forall_mem_cons]
      refine ⟨?_, h.1, ih false h.2⟩
      split
      · exact isPrintable_indentation n
      · exact List.forall_mem_nil _

theorem isPrintable_literalHead (cs : List Char) : ∀ c ∈ literalHead cs, isPrintable c = true := by
  rw [literalHead_eq, blockHead]
  cases isBlankEnd cs.head? <;> cases signOf cs <;> exact List.all_eq_true.1 rfl

theorem isPrintable_hexDigits (count n : Nat) : ∀ c ∈ hexDigits count n, isPrintable c = true := by
  have hdigit : ∀ d < 16, isPrintable (hexChar d) = true := by decide
  obtain ⟨ds, hds, hdigits, -⟩ := exists_toDigits_eq_map n
  rw [hexDigits, hdigits, List.map_map, List.forall_mem_append, List.forall_mem_map]
  constructor
  · intro c hc
    rw [List.eq_of_mem_replicate hc]
    decide
  · exact fun d hd => hdigit d (hds d hd)

theorem isPrintable_escapeChar (c : Char) : ∀ d ∈ escapeChar c, isPrintable d = true := by
  rw [escapeChar]
  split
  · rename_i h
    rw [List.forall_mem_singleton]
    simp only [Bool.and_eq_true] at h
    exact h.1.1.1
  · split
    · rename_i e hlookup
      have hall : ∀ f ∈ namedEscapes, isPrintable f.2 = true := by decide
      have hescape : isPrintable e = true := hall _ (mem_of_lookup_eq_some hlookup)
      rw [List.forall_mem_cons, List.forall_mem_singleton]
      exact ⟨by decide, hescape⟩
    · split_ifs <;> rw [List.forall_mem_append] <;>
        exact ⟨List.all_eq_true.1 rfl, isPrintable_hexDigits _ _⟩

/-- **A text is printable in its style.** -/
theorem isPrintable_writeText (k : Nat) (s : String) :
    ∀ c ∈ writeText k s, isPrintable c = true := by
  rw [writeText]
  cases hstyle : styleOf s with
  | plain => exact fun c hc => ((standsPlain_of_styleOf hstyle).inLine c hc).1
  | single =>
    have hchars := isPrintable_of_allowsSingle (allowsSingle_of_styleOf hstyle).1
    dsimp only
    rw [List.forall_mem_append, List.forall_mem_cons]
    exact ⟨⟨by decide, isPrintable_singleQuoted k false hchars⟩, List.all_eq_true.1 rfl⟩
  | double =>
    dsimp only
    rw [List.forall_mem_append, List.forall_mem_cons]
    refine ⟨⟨by decide, fun c hc => ?_⟩, List.all_eq_true.1 rfl⟩
    obtain ⟨d, -, hd⟩ := List.mem_flatMap.1 hc
    exact isPrintable_escapeChar d c hd
  | literal =>
    have hchars := isPrintable_of_allowsLiteral (allowsLiteral_of_styleOf hstyle).1
    dsimp only
    rw [List.forall_mem_append, List.forall_mem_cons]
    exact ⟨isPrintable_literalHead _, by decide, isPrintable_literalBody k true hchars⟩

/-! ### Ends of lines -/

theorem endLine_of_inLine {cs : List Char} (h : ∀ c ∈ cs, isBreak c = false) :
    endLine cs = cs ++ ['\n'] := by
  rw [endLine]
  cases hlast : cs.getLast? with
  | none => rfl
  | some c => rw [Option.any_some, h c (List.mem_of_getLast? hlast), if_neg Bool.false_ne_true]

theorem endLine_append {front cs : List Char} (hne : cs ≠ []) :
    endLine (front ++ cs) = front ++ endLine cs := by
  rw [endLine, endLine, List.getLast?_append_of_ne_nil _ hne]
  split
  · rfl
  · rw [List.append_assoc]

/-! ### Values of one line -/

/-- How a value of one line is written: as a plain word, as a text, or as nothing between brackets.
-/
inductive WritesLine (k : Nat) : Data → List Char → Prop
  | word {d : Data} {cs : List Char} (plain : StandsPlain cs)
      (tokens : ∀ indentless, tokensFor indentless d = [.scalar (String.ofList cs) .plain]) :
      WritesLine k d cs
  | text (s : String) : WritesLine k (.text s) (writeText k s)
  | emptyList : WritesLine k (.list []) ['[', ']']
  | emptyRecord : WritesLine k (.record []) ['\x7b', '\x7d']

section

variable {k : Nat} {d : Data} {cs : List Char}

theorem WritesLine.of_writeSimple? (h : writeSimple? k d = some cs) (hd : IsWritable d) :
    WritesLine k d cs := by
  have hword {word : String} (hword : StandsPlain word.toList)
      (htokens : ∀ indentless, tokensFor indentless d = [.scalar word .plain]) :
      WritesLine k d word.toList := .word hword fun indentless => by
    rw [htokens, String.ofList_toList]
  cases d with
  | null =>
    obtain rfl := Option.some.inj h
    exact hword (.of_allowsPlain (by decide) (by decide)) fun _ => by rw [tokensFor]
  | flag b =>
    obtain rfl := Option.some.inj h
    refine hword ?_ fun _ => by rw [tokensFor]
    cases b <;> exact .of_allowsPlain (by decide) (by decide)
  | integer i =>
    obtain rfl := Option.some.inj h
    exact hword (standsPlain_toString i) fun _ => by rw [tokensFor]
  | float x =>
    obtain rfl := Option.some.inj h
    exact hword (standsPlain_write hd) fun _ => by rw [tokensFor]
  | text s =>
    obtain rfl := Option.some.inj h
    exact .text s
  | list ds =>
    cases ds with
    | nil =>
      obtain rfl := Option.some.inj h
      exact .emptyList
    | cons d ds => cases h
  | record fs =>
    cases fs with
    | nil =>
      obtain rfl := Option.some.inj h
      exact .emptyRecord
    | cons f fs => cases h

theorem WritesLine.ne_nil (h : WritesLine k d cs) : cs ≠ [] := by
  cases h with
  | word plain tokens => exact plain.ne_nil
  | text s =>
    cases hstyle : styleOf s with
    | plain => simpa only [writeText, hstyle] using (standsPlain_of_styleOf hstyle).ne_nil
    | single => simp [writeText, hstyle]
    | double => simp [writeText, hstyle]
    | literal => simp [writeText, hstyle, literalHead]
  | emptyList => decide
  | emptyRecord => decide

theorem WritesLine.isPrintable (h : WritesLine k d cs) : ∀ c ∈ cs, isPrintable c = true := by
  cases h with
  | word plain tokens => exact fun c hc => (plain.inLine c hc).1
  | text s => exact isPrintable_writeText k s
  | emptyList => exact List.all_eq_true.1 rfl
  | emptyRecord => exact List.all_eq_true.1 rfl

theorem WritesLine.length_tokensFor_le (h : WritesLine k d cs) (indentless : Bool) :
    (tokensFor indentless d).length ≤ 2 := by
  cases h with
  | word plain tokens => simp [tokens]
  | text s => simp [tokensFor]
  | emptyList => simp [tokensFor]
  | emptyRecord => simp [tokensFor]

/-! ### Items and fields -/

theorem writeBlock_of_writeSimple? (h : writeSimple? k d = some cs) : writeBlock k d = endLine cs := by
  cases d with
  | list ds => cases ds <;> simp_all [writeSimple?, writeBlock]
  | record fs => cases fs <;> simp_all [writeSimple?, writeBlock]
  | _ => simp only [writeBlock, h, Option.getD_some]

/-- An item is its value behind a mark. -/
theorem writeItem_eq (k : Nat) (hd : IsWritable d) :
    writeItem k d = '-' :: ' ' :: writeBlock (k + 2) d := by
  cases hsimple : writeSimple? (k + 2) d with
  | none =>
    simp only [writeItem, hsimple]
    rfl
  | some cs =>
    simp only [writeItem, hsimple]
    rw [endLine_append (WritesLine.of_writeSimple? hsimple hd).ne_nil,
      writeBlock_of_writeSimple? hsimple]
    rfl

/-- A field is a value behind its name, on the same line if there is only one. -/
theorem writeField_of_writeSimple? (name : String) (h : writeSimple? (k + 2) d = some cs)
    (hd : IsWritable d) :
    writeField k (name, d) = writeText k name ++ ':' :: ' ' :: endLine cs := by
  have hfield : writeField k (name, d) = endLine (writeText k name ++ [':', ' '] ++ cs) := by
    cases d <;> simp only [writeField, h]
  rw [hfield, endLine_append (WritesLine.of_writeSimple? h hd).ne_nil, List.append_assoc]
  rfl

/-- Where a list or record stands as the value of a field. -/
def innerIndent (k : Nat) : Data → Nat
  | .list _ => k
  | _ => k + 2

theorem writeField_of_writeSimple?_eq_none (name : String) (h : writeSimple? (k + 2) d = none) :
    writeField k (name, d) = writeText k name ++ ':' :: '\n' ::
      (indentation (innerIndent k d) ++ writeBlock (innerIndent k d) d) := by
  have hfield : writeField k (name, d) = writeText k name ++ [':', '\n'] ++
      indentation (innerIndent k d) ++ writeBlock (innerIndent k d) d := by
    cases d <;> simp only [writeField, h, innerIndent]
  rw [hfield, List.append_assoc, List.append_assoc]
  rfl

end

/-! ### The length of a text -/

/-- Whether a text is printable and long enough for a number of tokens. -/
structure Fills (cs : List Char) (n : Nat) : Prop where
  isPrintable : ∀ c ∈ cs, isPrintable c = true
  le_length : n ≤ 4 * cs.length

section

variable {cs cs' : List Char} {m n : Nat}

theorem fills_zero (h : ∀ c ∈ cs, isPrintable c = true) : Fills cs 0 := ⟨h, Nat.zero_le _⟩

theorem Fills.mono (h : Fills cs n) (hmn : m ≤ n) : Fills cs m := ⟨h.isPrintable, hmn.trans h.le_length⟩

theorem Fills.append (h : Fills cs m) (h' : Fills cs' n) : Fills (cs ++ cs') (m + n) := by
  refine ⟨List.forall_mem_append.2 ⟨h.isPrintable, h'.isPrintable⟩, ?_⟩
  have := h.le_length
  have := h'.le_length
  rw [List.length_append]
  omega

theorem Fills.cons {c : Char} (hc : Yaml.isPrintable c = true) (h : Fills cs n) :
    Fills (c :: cs) (4 + n) := by
  refine ⟨List.forall_mem_cons.2 ⟨hc, h.isPrintable⟩, ?_⟩
  have := h.le_length
  rw [List.length_cons]
  omega

theorem Fills.indented (k : Nat) (h : Fills cs n) : Fills (indentation k ++ cs) n :=
  ((fills_zero (isPrintable_indentation k)).append h).mono (by omega)

theorem WritesLine.fills {k : Nat} {d : Data} (h : WritesLine k d cs) (indentless : Bool) :
    Fills (endLine cs) (tokensFor indentless d).length := by
  have hcs : Fills cs 4 :=
    ⟨h.isPrintable, by have := List.length_pos_iff.2 h.ne_nil; omega⟩
  have hline : Fills (endLine cs) 4 := by
    rw [endLine]
    split
    · exact hcs
    · exact (hcs.append (fills_zero (List.all_eq_true.1 rfl))).mono (by omega)
  have := h.length_tokensFor_le indentless
  exact hline.mono (by omega)

/-- An item takes one token more than its value. -/
theorem Fills.item {k : Nat} {d : Data} (hd : IsWritable d) (h : Fills (writeBlock (k + 2) d) n) :
    Fills (writeItem k d) (n + 8) := by
  rw [writeItem_eq k hd]
  exact ((h.cons (by decide)).cons (by decide)).mono (by omega)

/-- A field takes three tokens more than its value. -/
theorem Fills.field (k : Nat) {d : Data} (hd : IsWritable d) (name : String)
    (h : ∀ k, Fills (writeBlock k d) n) : Fills (writeField k (name, d)) (n + 8) := by
  have hname := fills_zero (isPrintable_writeText k name)
  cases hsimple : writeSimple? (k + 2) d with
  | some cs =>
    have hline : Fills (endLine cs) n := writeBlock_of_writeSimple? hsimple ▸ h (k + 2)
    rw [writeField_of_writeSimple? name hsimple hd]
    exact (hname.append ((hline.cons (by decide)).cons (by decide))).mono (by omega)
  | none =>
    have hblock := (h (innerIndent k d)).indented (innerIndent k d)
    rw [writeField_of_writeSimple?_eq_none name hsimple]
    exact (hname.append ((hblock.cons (by decide)).cons (by decide))).mono (by omega)

end

mutual

/-- **What is written for data is printable, and long enough for its tokens.** -/
theorem fills_writeBlock (k : Nat) (d : Data) (hd : IsWritable d) (indentless : Bool) :
    Fills (writeBlock k d) (tokensFor indentless d).length := by
  cases hsimple : writeSimple? k d with
  | some cs =>
    rw [writeBlock_of_writeSimple? hsimple]
    exact (WritesLine.of_writeSimple? hsimple hd).fills indentless
  | none =>
    cases d with
    | list ds =>
      cases ds with
      | nil => cases hsimple
      | cons d ds =>
        have hitem := (fills_writeBlock (k + 2) d hd.1 false).item hd.1
        have hitems := fills_writeItems k ds hd.2
        rw [writeBlock]
        refine (hitem.append hitems).mono ?_
        have hcount : (tokensFor indentless (.list (d :: ds))).length ≤
            (tokensForAll (d :: ds)).length + 2 := by
          rw [tokensFor]
          cases indentless <;> simp
        rw [tokensForAll, List.length_cons, List.length_append] at hcount
        omega
    | record fs =>
      cases fs with
      | nil => cases hsimple
      | cons f fs =>
        obtain ⟨name, d⟩ := f
        have hfield := Fills.field k hd.2.1 name fun k => fills_writeBlock k d hd.2.1 true
        have hfields := fills_writeFields k fs hd.2.2
        rw [writeBlock]
        refine (hfield.append hfields).mono ?_
        simp [tokensFor, tokensForFields]
        omega
    | _ => cases hsimple

theorem fills_writeItems (k : Nat) (ds : List Data) (hds : AreWritable ds) :
    Fills (writeItems k ds) (tokensForAll ds).length := by
  cases ds with
  | nil =>
    rw [writeItems, tokensForAll]
    exact fills_zero (List.forall_mem_nil _)
  | cons d ds =>
    have hitem := ((fills_writeBlock (k + 2) d hds.1 false).item hds.1).indented k
    have hitems := fills_writeItems k ds hds.2
    rw [writeItems]
    refine (hitem.append hitems).mono ?_
    rw [tokensForAll, List.length_cons, List.length_append]
    omega

theorem fills_writeFields (k : Nat) (fs : List (String × Data)) (hfs : HasWritable fs) :
    Fills (writeFields k fs) (tokensForFields fs).length := by
  cases fs with
  | nil =>
    rw [writeFields, tokensForFields]
    exact fills_zero (List.forall_mem_nil _)
  | cons f fs =>
    obtain ⟨name, d⟩ := f
    have hfield := Fills.field k hfs.2.1 name fun k => fills_writeBlock k d hfs.2.1 true
    have hfields := fills_writeFields k fs hfs.2.2
    rw [writeFields]
    refine ((hfield.indented k).append hfields).mono ?_
    rw [tokensForFields, List.length_cons, List.length_cons, List.length_cons, List.length_append]
    omega

end

/-! ### Characters that no text may hold -/

theorem isAllowed_of_isPrintable {c : Char} (h : isPrintable c = true) : isAllowed c = true := by
  simp only [isPrintable, Bool.or_eq_true, Bool.and_eq_true, beq_iff_eq, bne_iff_ne,
    decide_eq_true_eq] at h
  simp only [isAllowed, Bool.or_eq_true, Bool.and_eq_true, beq_iff_eq, decide_eq_true_eq]
  omega

theorem forbiddenFault?_eq_none {cs : List Char} (h : ∀ c ∈ cs, isAllowed c = true) (offset : Nat) :
    forbiddenFault? offset cs = none := by
  induction cs generalizing offset with
  | nil => rfl
  | cons c cs ih =>
    rw [List.forall_mem_cons] at h
    rw [forbiddenFault?, if_pos h.1, ih h.2]

end DocBlocks.Yaml
