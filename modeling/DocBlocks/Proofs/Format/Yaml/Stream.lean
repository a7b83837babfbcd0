import DocBlocks.Proofs.Format.Yaml.Tokens
import DocBlocks.Proofs.Format.Yaml.Written

/-!
# The tokens of what is written

The text that is written for a record is read as the tokens of that record (`tokensOf_write`), so
data of a form is read back from it (`read_write`), and so is every description
(`read_write_toData`).

The proof goes through the text from its end: what stands behind a value is known to yield its
tokens (`Continues`) before the value is looked at. A list or record leaves the indentation as it
was (`continues_block`); its items or fields stand at one column, where the first of them opens the
block (`Rolls.opens`) and the others find it open (`Rolls.stays`). The list in a field may stand at
the column of its record and then opens nothing.
-/

namespace DocBlocks.Yaml

open Scan

section

variable {column n i : Nat} {rest : List Char} {allowed : Bool} {is : List Int}
  {forms : List TokenForm}

/-! ### Values of one line -/

theorem startsLine_of_standsPlain {cs : List Char} (h : StandsPlain cs) (more : List Char) :
    StartsLine (cs ++ more) := by
  intro c hc
  rw [List.head?_append_of_ne_nil _ h.ne_nil] at hc
  obtain ⟨hspace, hindicator⟩ := h.head c hc
  obtain ⟨hprintable, hbreak⟩ := h.inLine c (List.mem_of_mem_head? hc)
  refine ⟨isBlank_eq_false hprintable hspace, hbreak, ?_, fun hmark => ?_⟩
  · rintro rfl
    exact hindicator (by decide)
  · simp [isPrintable, hmark] at hprintable

section

variable (column : Nat) (allowed : Bool)

/-- A blank stands between a mark and a value. -/
theorem Follows.of_blank {text : List Char} (hstarts : StartsLine text) (hi : i ≤ column)
    (h : Finds (column + 1) text allowed ((i : Int) :: is) forms) :
    Follows column (' ' :: text) allowed ((i : Int) :: is) forms :=
  .of_finds (n := 1) hstarts (by push_cast; omega) h

/-- A plain value follows a mark. -/
theorem Follows.plain {cs : List Char} (hcs : StandsPlain cs) (hn : n ≤ i) (hi : i ≤ column)
    (h : Continues n rest ((i : Int) :: is) forms) :
    Follows column (' ' :: (endLine cs ++ (List.replicate n ' ' ++ rest))) allowed ((i : Int) :: is)
      (.scalar (String.ofList cs) .plain :: forms) := by
  rw [endLine_of_inLine fun c hc => (hcs.inLine c hc).2, List.append_assoc, List.singleton_append]
  refine .of_blank column allowed (startsLine_of_standsPlain hcs _) hi ?_
  exact .plain hcs (by omega) (by push_cast; omega) h

/-- A quoted value follows a mark. -/
theorem Follows.quoted {single : Bool} {cs spelled : List Char}
    (hspells : Spells single (i + 2) cs spelled) (hi : i ≤ column)
    (h : Continues n rest ((i : Int) :: is) forms) :
    Follows column
      (' ' :: (endLine (quoteMark single :: (spelled ++ [quoteMark single])) ++
        (List.replicate n ' ' ++ rest))) allowed ((i : Int) :: is)
      (.scalar (String.ofList cs) .quoted :: forms) := by
  have hend : endLine (quoteMark single :: (spelled ++ [quoteMark single])) =
      quoteMark single :: (spelled ++ quoteMark single :: ['\n']) := by
    rw [← List.cons_append, endLine_of_not_break _ isBreak_quoteMark]
    simp
  rw [hend, List.cons_append, List.append_assoc]
  refine .of_blank column allowed (startsLine_cons (by cases single <;> decide) _) hi ?_
  exact .quoted hspells (by omega) (by push_cast; omega) (by omega) h

/-- A literal block follows a mark. -/
theorem Follows.literal {cs : List Char} (hchars : ∀ c ∈ cs, isPrintable c = true) (hne : cs ≠ [])
    (hn : n ≤ i) (hi : i ≤ column) (h : Continues n rest ((i : Int) :: is) forms) :
    Follows column
      (' ' :: (endLine (literalHead cs ++ '\n' :: literalBody (i + 2) true cs) ++
        (List.replicate n ' ' ++ rest))) allowed ((i : Int) :: is)
      (.scalar (String.ofList cs) .literal :: forms) := by
  refine .of_blank column allowed ?_ hi (.literal hchars hne (by omega) (by omega) h)
  rw [endLine_literal _ _ hne]
  exact startsLine_cons (by decide) _

/-- **A text in its style follows a mark.** -/
theorem Follows.text (s : String) (hn : n ≤ i) (hi : i ≤ column)
    (h : Continues n rest ((i : Int) :: is) forms) :
    Follows column (' ' :: (endLine (writeText (i + 2) s) ++ (List.replicate n ' ' ++ rest))) allowed
      ((i : Int) :: is) (.scalar s (styleOf s).scalarStyle :: forms) := by
  cases hstyle : styleOf s with
  | plain =>
    have hplain := Follows.plain column allowed (standsPlain_of_styleOf hstyle) hn hi h
    rw [String.ofList_toList] at hplain
    simp only [writeText, hstyle]
    exact hplain
  | single =>
    obtain ⟨hallows, hline⟩ := allowsSingle_of_styleOf hstyle
    have hquoted := Follows.quoted column allowed
      (spells_single_of_allowsSingle (i + 2) hallows hline) hi h
    rw [String.ofList_toList] at hquoted
    simp only [writeText, hstyle]
    exact hquoted
  | double =>
    have hquoted := Follows.quoted column allowed (spells_double (i + 2) s.toList) hi h
    rw [String.ofList_toList] at hquoted
    simp only [writeText, hstyle]
    exact hquoted
  | literal =>
    obtain ⟨hallows, hline⟩ := allowsLiteral_of_styleOf hstyle
    have hliteral := Follows.literal column allowed (isPrintable_of_allowsLiteral hallows)
      (List.ne_nil_of_mem hline) hn hi h
    rw [String.ofList_toList] at hliteral
    simp only [writeText, hstyle]
    exact hliteral

/-- **A value of one line follows a mark.** -/
theorem Follows.value {d : Data} {cs : List Char} (hcs : WritesLine (i + 2) d cs)
    (indentless : Bool) (hn : n ≤ i) (hi : i ≤ column)
    (h : Continues n rest ((i : Int) :: is) forms) :
    Follows column (' ' :: (endLine cs ++ (List.replicate n ' ' ++ rest))) allowed ((i : Int) :: is)
      (tokensFor indentless d ++ forms) := by
  cases hcs with
  | word plain tokens =>
    rw [tokens]
    exact .plain column allowed plain hn hi h
  | text s =>
    rw [tokensFor]
    exact .text column allowed s hn hi h
  | emptyList =>
    rw [tokensFor]
    exact .of_blank column allowed (startsLine_cons (by decide) _) hi
      (.emptyList (by omega) (by omega) h)
  | emptyRecord =>
    rw [tokensFor]
    exact .of_blank column allowed (startsLine_cons (by decide) _) hi
      (.emptyRecord (by omega) (by omega) h)

end

/-! ### Items and fields -/

variable {before after : List Int} {starts : List TokenForm}

/-- **An item of a list**, if a list or record in it is read. -/
theorem Continues.item {d : Data} (hd : IsWritable d)
    (hroll : Rolls column .blockSequenceStart before after starts) (hn : n ≤ column)
    (h : Continues n rest after forms)
    (hblock : writeSimple? (column + 2) d = none → Continues (column + 2)
      (writeBlock (column + 2) d ++ (List.replicate n ' ' ++ rest)) after
      (tokensFor false d ++ forms)) :
    Continues column (writeItem column d ++ (List.replicate n ' ' ++ rest)) before
      (starts ++ .blockEntry :: (tokensFor false d ++ forms)) := by
  obtain ⟨i, is, rfl⟩ := hroll.exists_before
  rw [writeItem_eq column hd]
  refine .of_finds (startsLine_cons (by decide) _) hroll.head_le (.item hroll ?_)
  cases hsimple : writeSimple? (column + 2) d with
  | none => exact (hblock hsimple).follows (n := 1)
  | some cs =>
    obtain ⟨is', rfl⟩ := hroll.exists_after
    rw [writeBlock_of_writeSimple? hsimple]
    exact .value (column + 1) true (.of_writeSimple? hsimple hd) false hn (by omega) h

/-- **A field of a record**, if a list or record in it is read. -/
theorem Continues.field {name : String} {d : Data} (hname : IsKey name) (hd : IsWritable d)
    (hroll : Rolls column .blockMappingStart before after starts) (hn : n ≤ column)
    (h : Continues n rest after forms)
    (hblock : writeSimple? (column + 2) d = none → Continues (innerIndent column d)
      (writeBlock (innerIndent column d) d ++ (List.replicate n ' ' ++ rest)) after
      (tokensFor true d ++ forms)) :
    Continues column (writeField column (name, d) ++ (List.replicate n ' ' ++ rest)) before
      (starts ++ .key :: .scalar name (styleOf name).scalarStyle :: .value ::
        (tokensFor true d ++ forms)) := by
  have hplain := standsPlain_of_styleOf hname.1
  obtain ⟨i, is, rfl⟩ := hroll.exists_before
  -- what stands behind the colon is blank at first
  obtain ⟨text, hwrite, hbehind, hvalue⟩ : ∃ text,
      writeField column (name, d) ++ (List.replicate n ' ' ++ rest) = name.toList ++ ':' :: text ∧
        isBlankOrGone text.head? = true ∧
        Follows (column + name.toList.length + 1) text false after (tokensFor true d ++ forms) := by
    have hspelled : writeText column name = name.toList := by simp only [writeText, hname.1]
    cases hsimple : writeSimple? (column + 2) d with
    | none =>
      refine ⟨_, ?_, rfl, (hblock hsimple).follows_newLine _ false⟩
      rw [writeField_of_writeSimple?_eq_none name hsimple, hspelled, indentation]
      simp
    | some cs =>
      obtain ⟨is', rfl⟩ := hroll.exists_after
      refine ⟨_, ?_, rfl, .value _ false (.of_writeSimple? hsimple hd) true hn (by omega) h⟩
      rw [writeField_of_writeSimple? name hsimple hd, hspelled]
      simp
  rw [hwrite, hname.1]
  refine .of_finds (startsLine_of_standsPlain hplain _) hroll.head_le ?_
  have hfinds := Finds.field hplain hname.2 hbehind hroll hvalue
  rwa [String.ofList_toList] at hfinds

/-! ### Any data -/

mutual

/-- **A list or record is read as its tokens.** -/
theorem continues_block (d : Data) (hd : IsWritable d) {k column n : Nat} (hk : writeSimple? k d = none)
    {i : Int} {is : List Int} (hi : i < column) (hn : (n : Int) ≤ i) {rest : List Char}
    {forms : List TokenForm} (h : Continues n rest (i :: is) forms) :
    Continues column (writeBlock column d ++ (List.replicate n ' ' ++ rest)) (i :: is)
      (tokensFor false d ++ forms) := by
  cases d with
  | list ds =>
    cases ds with
    | nil => cases hk
    | cons d ds =>
      have hclosing : Continues n rest ((column : Int) :: i :: is) (.blockEnd :: forms) :=
        h.closing (by omega)
      have hitems := continues_items (d :: ds) (by simp) hd (.opens is hi) (by omega) hclosing
      rw [tokensFor, if_neg Bool.false_ne_true]
      simpa using hitems
  | record fs =>
    cases fs with
    | nil => cases hk
    | cons f fs =>
      have hclosing : Continues n rest ((column : Int) :: i :: is) (.blockEnd :: forms) :=
        h.closing (by omega)
      have hfields := continues_fields (f :: fs) (by simp) hd (.opens is hi) (by omega) hclosing
      rw [tokensFor]
      simpa using hfields
  | _ => cases hk

/-- **The items of a list are read as their tokens.** -/
theorem continues_items (ds : List Data) (hne : ds ≠ []) (hds : AreWritable ds) {column n : Nat}
    {before after : List Int} {starts : List TokenForm}
    (hroll : Rolls column .blockSequenceStart before after starts) (hn : n ≤ column)
    {rest : List Char} {forms : List TokenForm} (h : Continues n rest after forms) :
    Continues column (writeBlock column (.list ds) ++ (List.replicate n ' ' ++ rest)) before
      (starts ++ (tokensForAll ds ++ forms)) := by
  cases ds with
  | nil => exact absurd rfl hne
  | cons d ds =>
    obtain ⟨is, rfl⟩ := hroll.exists_after
    -- behind the first item stand the other ones, or what follows the list
    obtain ⟨n', text, htext, hn', htail⟩ : ∃ n' text,
        writeItems column ds ++ (List.replicate n ' ' ++ rest) = List.replicate n' ' ' ++ text ∧
          n' ≤ column ∧ Continues n' text ((column : Int) :: is) (tokensForAll ds ++ forms) := by
      cases ds with
      | nil => exact ⟨n, rest, by rw [writeItems, List.nil_append], hn, h⟩
      | cons d' ds =>
        refine ⟨column, _, ?_, le_rfl, continues_items (d' :: ds) (by simp) hds.2 (.stays is) hn h⟩
        simp [writeItems, writeBlock, indentation]
    have hitem := Continues.item hds.1 hroll hn' htail fun hnone =>
      continues_block d hds.1 hnone (by omega) (by omega) htail
    rw [writeBlock, List.append_assoc, htext, tokensForAll]
    simpa using hitem

/-- **The fields of a record are read as their tokens.** -/
theorem continues_fields (fs : List (String × Data)) (hne : fs ≠ []) (hfs : HasWritable fs)
    {column n : Nat} {before after : List Int} {starts : List TokenForm}
    (hroll : Rolls column .blockMappingStart before after starts) (hn : n ≤ column)
    {rest : List Char} {forms : List TokenForm} (h : Continues n rest after forms) :
    Continues column (writeBlock column (.record fs) ++ (List.replicate n ' ' ++ rest)) before
      (starts ++ (tokensForFields fs ++ forms)) := by
  cases fs with
  | nil => exact absurd rfl hne
  | cons f fs' =>
    obtain ⟨name, d⟩ := f
    obtain ⟨hname, hd, hfs⟩ := hfs
    obtain ⟨is, rfl⟩ := hroll.exists_after
    obtain ⟨n', text, htext, hn', htail⟩ : ∃ n' text,
        writeFields column fs' ++ (List.replicate n ' ' ++ rest) = List.replicate n' ' ' ++ text ∧
          n' ≤ column ∧ Continues n' text ((column : Int) :: is) (tokensForFields fs' ++ forms) := by
      cases fs' with
      | nil => exact ⟨n, rest, by rw [writeFields, List.nil_append], hn, h⟩
      | cons f fs =>
        refine ⟨column, _, ?_, le_rfl, continues_fields (f :: fs) (by simp) hfs (.stays is) hn h⟩
        simp [writeFields, writeBlock, indentation]
    have hfield := Continues.field hname hd hroll hn' htail fun hnone => by
      cases d with
      | list ds =>
        -- a list has no ends of its own as the value of a field
        cases ds with
        | nil => cases hnone
        | cons d ds =>
          have hitems := continues_items (d :: ds) (by simp) hd (.stays is) hn' htail
          rwa [List.nil_append] at hitems
      | record fs =>
        cases fs with
        | nil => cases hnone
        | cons f fs =>
          have hblock : Continues (column + 2)
              (writeBlock (column + 2) (.record (f :: fs)) ++ (List.replicate n' ' ' ++ text))
              ((column : Int) :: is)
              (tokensFor false (.record (f :: fs)) ++ (tokensForFields fs' ++ forms)) :=
            continues_block (.record (f :: fs)) hd hnone (by push_cast; omega) (by omega) htail
          rwa [tokensFor] at hblock ⊢
      | _ => cases hnone
    rw [writeBlock, List.append_assoc, htext, tokensForFields]
    simpa using hfield

end

end

/-! ### The whole text -/

/-- A text begins with a token of its own. -/
theorem yields_start {cs : List Char} {forms : List TokenForm} (h : Continues 0 cs [-1] forms) :
    Yields ⟨cs, .start, [], 0, -1, [], false, [], false, false⟩ (.streamStart :: forms) := by
  have hline : AtLine
      ⟨cs, .start, [⟨.streamStart, .start, .start⟩], 0, -1, [], true, [.none], true, false⟩ 0 cs [-1] :=
    ⟨rfl, rfl, rfl, .none, .start, rfl, .inl ⟨rfl, 0, rfl, rfl⟩, rfl, nofun⟩
  exact (h.yields _ [] hline (List.forall_mem_nil _)).of_fetch (run_needsMore_of_nil rfl) rfl rfl
    Nat.zero_lt_one

/-- The fields of a record, and the end of the text behind them. -/
theorem continues_document {f : String × Data} {fs : List (String × Data)}
    (h : HasWritable (f :: fs)) : Continues 0 (writeBlock 0 (.record (f :: fs))) [-1]
      (tokensFor false (.record (f :: fs)) ++ [.streamEnd]) := by
  have hending : Continues 0 [] [0, -1] [.blockEnd, .streamEnd] :=
    .of_finds startsLine_nil le_rfl .ending
  have hfields := continues_fields (f :: fs) (by simp) h (.opens [] (by decide)) le_rfl hending
  rw [tokensFor]
  simpa using hfields

/-- **The tokens of what is written for a record** are the tokens of the record. -/
theorem tokensOf_write {f : String × Data} {fs : List (String × Data)}
    (h : IsWritable (.record (f :: fs))) :
    ∃ tokens, tokensOf (write (.record (f :: fs))) = ⟨tokens, none⟩ ∧ tokens.map Token.form =
      .streamStart :: (tokensFor false (.record (f :: fs)) ++ [.streamEnd]) := by
  have hfills := fills_writeBlock 0 (.record (f :: fs)) h false
  have hallowed : forbiddenFault? 0 (writeBlock 0 (.record (f :: fs))) = none :=
    forbiddenFault?_eq_none (fun c hc => isAllowed_of_isPrintable (hfills.isPrintable c hc)) 0
  have hlength := hfills.le_length
  obtain ⟨tokens, hforms, hrun⟩ := (yields_start (continues_document h)).handsOut
    (8 * (writeBlock 0 (.record (f :: fs))).length + 32) [] (by
      simp only [List.length_cons, List.length_append, List.length_nil]
      omega)
  refine ⟨tokens, ?_, hforms⟩
  simp only [tokensOf, write, String.toList_ofList, hallowed]
  exact hrun

/-! ### Data of a form -/

mutual

/-- Whether the names of all fields in a form can stand as keys. -/
def hasKeys : Schema → Bool
  | .optional content => hasKeys content
  | .list item => hasKeys item
  | .record _ fields => haveKeys fields
  | _ => true

/-- Whether all names of fields, and those in their forms, can stand as keys. -/
def haveKeys : List (String × Schema × Bool) → Bool
  | [] => true
  | (name, schema, _) :: fs => decide (IsKey name) && hasKeys schema && haveKeys fs

end

theorem hasKeys_classDescriptor : hasKeys .classDescriptor = true := by decide

theorem isWritable_argument {v : ArgumentValue} (h : v.Fits Binary64.Canonical) :
    IsWritable v.toData := by
  have hkind : IsKey "kind" := by decide
  have hvalue : IsKey "value" := by decide
  cases v with
  | float x => exact ⟨hkind, trivial, hvalue, h, trivial⟩
  | unresolved => exact ⟨hkind, trivial, trivial⟩
  | _ => exact ⟨hkind, trivial, hvalue, trivial, trivial⟩

mutual

/-- Data of a form with names that can stand as keys is writable. -/
theorem isWritable_of_takes (schema : Schema) (hkeys : hasKeys schema = true) {w r : Data}
    (h : schema.Takes Binary64.Canonical w r) : IsWritable w := by
  cases schema with
  | optional content =>
    rcases h with ⟨rfl, -⟩ | ⟨-, h⟩
    · trivial
    · exact isWritable_of_takes content hkeys h
  | list item =>
    obtain ⟨ws, rs, rfl, -, h⟩ := h
    have hitem : ∀ w r, item.Takes Binary64.Canonical w r → IsWritable w := fun w r h =>
      isWritable_of_takes item hkeys h
    rw [IsWritable]
    induction h with
    | nil => trivial
    | cons head tail ih => exact ⟨hitem _ _ head, ih⟩
  | record name fields =>
    obtain ⟨ws, rs, rfl, -, -, h⟩ := h
    exact hasWritable_of_takes fields hkeys h
  | argument =>
    obtain ⟨⟨v, hv, rfl⟩, -⟩ := h
    exact isWritable_argument hv
  | table => exact h.elim
  | natural =>
    obtain ⟨⟨n, -, rfl⟩, -⟩ := h
    trivial
  | _ =>
    obtain ⟨⟨x, rfl⟩, -⟩ := h
    trivial

theorem hasWritable_of_takes (fields : List (String × Schema × Bool))
    (hkeys : haveKeys fields = true) {ws rs : List (String × Data)}
    (h : Schema.FieldsTake Binary64.Canonical fields ws rs) : HasWritable ws := by
  cases fields with
  | nil =>
    obtain ⟨rfl, -⟩ := h
    trivial
  | cons f fields =>
    obtain ⟨name, schema, skippable⟩ := f
    rw [haveKeys, Bool.and_eq_true, Bool.and_eq_true, decide_eq_true_eq] at hkeys
    obtain ⟨⟨hname, hschema⟩, hfields⟩ := hkeys
    rcases h with ⟨w, r, ws', rs', rfl, -, head, tail⟩ | ⟨-, rs', -, tail⟩
    · exact ⟨hname, isWritable_of_takes schema hschema head,
        hasWritable_of_takes fields hfields tail⟩
    · exact hasWritable_of_takes fields hfields tail

end

/-- **Data of a form is read back** from the YAML text that is written for it. -/
theorem read_write {schema : Schema} {f : String × Data} {fs : List (String × Data)} {r : Data}
    (hdistinct : schema.IsDistinct) (hdepth : schema.depth ≤ depthLimit)
    (hkeys : hasKeys schema = true)
    (h : schema.Takes Binary64.Canonical (.record (f :: fs)) r) :
    read schema (write (.record (f :: fs))) = .ok r := by
  obtain ⟨tokens, hsource, htokens⟩ := tokensOf_write (isWritable_of_takes schema hkeys h)
  exact read_of_tokensOf hdistinct hdepth h hsource htokens

/-- **A description is read back** from the YAML text that is written for it. -/
theorem read_write_toData {c : ClassDescriptor} (h : c.Fits Binary64.Canonical) :
    read .classDescriptor (write c.toData) = .ok c.filled := by
  have htakes := Schema.takes_toData h
  have hdepth : Schema.classDescriptor.depth ≤ depthLimit := by
    rw [Schema.depth_classDescriptor]
    decide
  exact read_write Schema.isDistinct_classDescriptor hdepth hasKeys_classDescriptor htakes

end DocBlocks.Yaml
