import DocBlocks.Proofs.Format.Json.Number
import DocBlocks.Proofs.Format.Schema

/-!
# JSON is read back

Data that has a form is read back from its JSON text by the reader of that form (`read_write`). A
reader `ReadsBack` data if it does so wherever the data stands: behind any layout, at any level, and
in front of whatever may follow a value. That is shown for each form from the same for its parts
(`readsBack_ofSchema`), in the way that the reader is put together.

Lists and records cost one level of depth each, so that depth is a hypothesis of every step.
-/

namespace DocBlocks.Json

theorem toList_newLine (level : Nat) :
    (newLine level).toList = '\n' :: List.replicate (2 * level) ' ' := String.toList_ofList

theorem toList_quoted (s : String) :
    (quoted s).toList = '"' :: (s.toList.flatMap escapeChar ++ ['"']) := by
  simp [quoted]

namespace Read

theorem isLayout_newLine (level : Nat) : ∀ c ∈ (newLine level).toList, isLayout c = true := by
  rw [toList_newLine, List.forall_mem_cons]
  exact ⟨rfl, fun c hc => by rw [List.eq_of_mem_replicate hc]; rfl⟩

theorem isLayout_space : ∀ c ∈ [' '], isLayout c = true := by simp [isLayout]

/-- What stands on a new line ends a value. -/
theorem endsValue_newLine (level : Nat) (rest : List Char) :
    EndsValue ((newLine level).toList ++ rest) := by
  rw [toList_newLine]
  exact endsValue_lineFeed _

/-- Whether a reader reads written data as other data wherever it stands. -/
def ReadsBack (p : Read Data) (depth : Nat) (w r : Data) : Prop :=
  ∀ (level : Nat) {blanks rest : List Char}, (∀ c ∈ blanks, isLayout c = true) → EndsValue rest →
    Gives p depth (blanks ++ ((writeAt level w).toList ++ rest)) r rest

section

variable {α : Type} {depth level : Nat} {text rest mid blanks : List Char} {w r : Data}

/-! ### Frames -/

/-- A list or record is passed if its inside is, one level deeper. -/
theorem Gives.framed {inside : Read α} {finish : Read Unit} {a : α} {c : Char}
    (hinside : Gives inside depth text a mid) (hfinish : Gives finish depth mid () rest) :
    Gives (framed inside finish) (depth + 1) (c :: text) a rest := ⟨fun passed => by
  obtain ⟨passed', h⟩ := (hinside.map (Except.ok (ε := Failure))).run (passed + c.utf8Size)
  obtain ⟨passed'', h'⟩ := hfinish.run passed'
  have hcaught : (tryCatch (Except.ok <$> inside) fun e => pure (.error e) :
      Read (Except Failure α)).run ⟨text, passed + c.utf8Size, depth⟩ =
      (.ok (.ok a), ⟨mid, passed', depth⟩) := by
    rw [run_tryCatch, h, run_pure]
  refine ⟨passed'', ?_⟩
  unfold Read.framed
  -- behind the bracket, one level down
  show ((tryCatch (Except.ok <$> inside) fun e => pure (.error e) :
      Read (Except Failure α)) >>= _).run ⟨text, passed + c.utf8Size, depth⟩ = _
  rw [run_bind, hcaught]
  dsimp only
  rw [run_bind, h', run_pure]
  rfl⟩

/-! ### Lists -/

/-- Whether a text begins with an item of a list. -/
def StartsItem (text : List Char) : Prop :=
  ∃ c, text.head? = some c ∧ isLayout c = false ∧ c ≠ ']'

theorem StartsItem.gives_skipLayout (h : StartsItem text)
    (hblanks : ∀ c ∈ blanks, isLayout c = true) :
    Gives skipLayout depth (blanks ++ text) text.head? text := by
  obtain ⟨c, hhead, hc, -⟩ := h
  exact Read.gives_skipLayout hblanks (by simpa [hhead] using hc)

theorem gives_moreItems_first (hblanks : ∀ c ∈ blanks, isLayout c = true) (h : StartsItem text) :
    Gives (moreItems true) depth (blanks ++ text) true text := by
  refine Gives.bind (h.gives_skipLayout hblanks) ?_
  obtain ⟨c, hhead, -, hend⟩ := h
  rw [hhead]
  split
  · exact absurd (Option.some.inj ‹_›) hend
  · simp only [Bool.not_true, Bool.and_false, Bool.false_eq_true, if_false, if_true]
    exact gives_pure ..
  · cases ‹some c = none›

theorem gives_moreItems_comma (hblanks : ∀ c ∈ blanks, isLayout c = true) (h : StartsItem text) :
    Gives (moreItems false) depth (',' :: (blanks ++ text)) true text := by
  refine Gives.bind (gives_skipLayout (List.forall_mem_nil _) rfl) ?_
  refine Gives.bind (gives_eat ..) (Gives.bind (h.gives_skipLayout hblanks) ?_)
  obtain ⟨c, hhead, -, hend⟩ := h
  rw [hhead]
  split
  · exact absurd (Option.some.inj ‹_›) hend
  · exact gives_pure ..
  · cases ‹some c = none›

theorem gives_moreItems_end {blanks : List Char} (hblanks : ∀ c ∈ blanks, isLayout c = true)
    (first : Bool) : Gives (moreItems first) depth (blanks ++ ']' :: text) false (']' :: text) :=
  Gives.bind (gives_skipLayout hblanks rfl) (gives_pure ..)

theorem gives_endList (depth : Nat) (text : List Char) :
    Gives endList depth (']' :: text) () text :=
  Gives.bind (gives_skipLayout (List.forall_mem_nil _) rfl) (gives_eat ..)

/-- Whether written data begins like an item of a list, and like nothing only if it is that. -/
def Begins (w : Data) : Prop :=
  ∀ level, ∃ c cs, (writeAt level w).toList = c :: cs ∧ isLayout c = false ∧ c ≠ ']' ∧
    (c = 'n' → w = .null)

theorem Begins.startsItem (h : Begins w) (level : Nat) (rest : List Char) :
    StartsItem ((writeAt level w).toList ++ rest) := by
  obtain ⟨c, cs, hcs, hlayout, hend, -⟩ := h level
  exact ⟨c, by rw [hcs]; rfl, hlayout, hend⟩

/-- What follows an item ends a value. -/
theorem endsValue_writeItems (level : Nat) (ws : List Data) (rest : List Char) :
    EndsValue ((writeItems (level + 1) ws).toList ++ ((newLine level).toList ++ rest)) := by
  cases ws with
  | nil => exact endsValue_newLine level rest
  | cons w ws =>
    simp only [writeItems, String.toList_append, List.append_assoc]
    exact endsValue_comma _

theorem length_le_length_writeItems (level : Nat) (ws : List Data) :
    ws.length ≤ (writeItems level ws).toList.length := by
  induction ws with
  | nil => simp
  | cons w ws ih =>
    simp only [writeItems, String.toList_append, List.length_append, List.length_cons,
      toList_newLine]
    omega

/-- The items of a list behind the first one are read back. -/
theorem gives_itemsOf {item : Read Data} {ws rs : List Data}
    (h : List.Forall₂ (fun w r => ReadsBack item depth w r ∧ Begins w) ws rs) (level : Nat)
    (rest : List Char) :
    ∀ (fuel : Nat) (acc : List Data), ws.length < fuel →
      Gives (itemsOf item fuel false acc) depth
        ((writeItems (level + 1) ws).toList ++ ((newLine level).toList ++ ']' :: rest))
        (acc.reverse ++ rs) (']' :: rest) := by
  induction h with
  | nil =>
    rintro (- | fuel) acc hfuel
    · omega
    refine Gives.bind (gives_moreItems_end (isLayout_newLine level) false) ?_
    simp only [Bool.false_eq_true, if_false, List.append_nil]
    exact gives_pure ..
  | @cons w r ws rs head tail ih =>
    rintro (- | fuel) acc hfuel
    · simp at hfuel
    obtain ⟨hitem, hbegins⟩ := head
    have hmore : Gives (moreItems false) depth _ true _ :=
      gives_moreItems_comma (isLayout_newLine (level + 1)) (hbegins.startsItem (level + 1)
        ((writeItems (level + 1) ws).toList ++ ((newLine level).toList ++ ']' :: rest)))
    have hcontent := hitem (level + 1) (List.forall_mem_nil _)
      (endsValue_writeItems level ws (']' :: rest))
    have htail := ih fuel (r :: acc) (by simpa using hfuel)
    rw [List.reverse_cons, List.append_assoc, List.singleton_append] at htail
    simp only [writeItems, String.toList_append, List.append_assoc]
    refine Gives.bind hmore ?_
    rw [if_pos rfl]
    exact Gives.bind hcontent htail

theorem writeAt_nil_append (level : Nat) (rest : List Char) :
    (writeAt level (.list [])).toList ++ rest = '[' :: ']' :: rest := by
  simp [writeAt]

theorem writeAt_cons_append (level : Nat) (w : Data) (ws : List Data) (rest : List Char) :
    (writeAt level (.list (w :: ws))).toList ++ rest =
      '[' :: ((newLine (level + 1)).toList ++ ((writeAt (level + 1) w).toList ++
        ((writeItems (level + 1) ws).toList ++ ((newLine level).toList ++ ']' :: rest)))) := by
  simp [writeAt]

/-- **A list is read back** if its items are. -/
theorem readsBack_listOf {item : Read Data} {ws rs : List Data} (expected : String)
    (h : List.Forall₂ (fun w r => ReadsBack item depth w r ∧ Begins w) ws rs) :
    ReadsBack (listOf expected item) (depth + 1) (.list ws) (.list rs) := by
  intro level blanks rest hblanks hrest
  refine Gives.placed ?_
  cases h with
  | nil =>
    rw [writeAt_nil_append]
    refine Gives.bind (gives_valueStart hblanks rfl) (leads_get_bind fun passed => ?_)
    refine (Gives.framed ?_ (gives_endList depth rest)).map Data.list
    exact Gives.bind (gives_moreItems_end (List.forall_mem_nil _) true) (gives_pure ..)
  | @cons w r ws rs head tail =>
    obtain ⟨hitem, hbegins⟩ := head
    rw [writeAt_cons_append]
    have hstart := hbegins.startsItem (level + 1)
      ((writeItems (level + 1) ws).toList ++ ((newLine level).toList ++ ']' :: rest))
    have hfirst := hitem (level + 1) (List.forall_mem_nil _)
      (endsValue_writeItems level ws (']' :: rest))
    have hlength := length_le_length_writeItems (level + 1) ws
    refine Gives.bind (gives_valueStart hblanks rfl) (leads_get_bind fun passed => ?_)
    refine (Gives.framed ?_ (gives_endList depth rest)).map Data.list
    refine Gives.bind (gives_moreItems_first (isLayout_newLine (level + 1)) hstart) ?_
    rw [if_pos rfl]
    refine Gives.bind hfirst (gives_itemsOf tail level rest _ [r] ?_)
    simp only [List.length_append, List.length_cons]
    omega

/-! ### Records -/

theorem gives_name (depth : Nat) (name : String) (text : List Char) :
    Gives (do eat; some <$> textBody) depth ((quoted name).toList ++ text) (some name) text := by
  rw [toList_quoted, List.cons_append, List.append_assoc]
  exact Gives.bind (gives_eat ..) ((gives_textBody ..).map some)

theorem gives_moreFields_first (hblanks : ∀ c ∈ blanks, isLayout c = true) :
    Gives (moreFields true) depth (blanks ++ '"' :: text) true ('"' :: text) :=
  Gives.bind (gives_skipLayout hblanks rfl) (gives_pure ..)

theorem gives_moreFields_comma (hblanks : ∀ c ∈ blanks, isLayout c = true) :
    Gives (moreFields false) depth (',' :: (blanks ++ '"' :: text)) true ('"' :: text) :=
  Gives.bind (gives_skipLayout (List.forall_mem_nil _) rfl)
    (Gives.bind (gives_eat ..) (Gives.bind (gives_skipLayout hblanks rfl) (gives_pure ..)))

theorem gives_fieldName {first : Bool} {name : String} {text' : List Char}
    (h : Gives (moreFields first) depth text true ((quoted name).toList ++ text')) :
    Gives (fieldName first) depth text (some name) text' := by
  refine Gives.bind h ?_
  rw [if_pos rfl]
  exact gives_name ..

theorem gives_fieldName_first (hblanks : ∀ c ∈ blanks, isLayout c = true) (name : String)
    (depth : Nat) (text : List Char) :
    Gives (fieldName true) depth (blanks ++ ((quoted name).toList ++ text)) (some name) text := by
  refine gives_fieldName ?_
  rw [toList_quoted]
  exact gives_moreFields_first hblanks

theorem gives_fieldName_comma (hblanks : ∀ c ∈ blanks, isLayout c = true) (name : String)
    (depth : Nat) (text : List Char) :
    Gives (fieldName false) depth (',' :: (blanks ++ ((quoted name).toList ++ text))) (some name)
      text := by
  refine gives_fieldName ?_
  rw [toList_quoted]
  exact gives_moreFields_comma hblanks

theorem gives_fieldName_end (hblanks : ∀ c ∈ blanks, isLayout c = true) (first : Bool) :
    Gives (fieldName first) depth (blanks ++ '}' :: text) none ('}' :: text) :=
  Gives.bind (Gives.bind (gives_skipLayout hblanks rfl) (gives_pure false ..)) (gives_pure ..)

theorem gives_colon (depth : Nat) (text : List Char) : Gives colon depth (':' :: text) () text :=
  Gives.bind (gives_skipLayout (List.forall_mem_nil _) rfl) (gives_eat ..)

theorem gives_endRecord (depth : Nat) (text : List Char) :
    Gives endRecord depth ('}' :: text) () text :=
  Gives.bind (gives_skipLayout (List.forall_mem_nil _) rfl) (gives_eat ..)

/-- A field that is read back has a reader of its name. -/
def FieldReadsBack (fields : List FieldReader) (depth : Nat) (w r : String × Data) : Prop :=
  w.1 = r.1 ∧ ∃ f ∈ fields, f.name = w.1 ∧ ReadsBack f.read depth w.2 r.2

theorem endsValue_writeFields (level : Nat) (ws : List (String × Data)) (rest : List Char) :
    EndsValue ((writeFields (level + 1) ws).toList ++ ((newLine level).toList ++ rest)) := by
  cases ws with
  | nil => exact endsValue_newLine level rest
  | cons w ws =>
    simp only [writeFields, String.toList_append, List.append_assoc]
    exact endsValue_comma _

theorem length_le_length_writeFields (level : Nat) (ws : List (String × Data)) :
    ws.length ≤ (writeFields level ws).toList.length := by
  induction ws with
  | nil => simp
  | cons w ws ih =>
    simp only [writeFields, String.toList_append, List.length_append, List.length_cons,
      toList_newLine]
    omega

variable {fields : List FieldReader}

/-- A field is read behind its name. -/
theorem leads_field {w r : String × Data} (hnodup : (fields.map FieldReader.name).Nodup)
    (h : FieldReadsBack fields depth w r) (acc : List (String × Data))
    (hacc : acc.lookup w.1 = none) (level fuel : Nat) {first : Bool} {rest : List Char}
    (hname : Gives (fieldName first) depth text (some w.1)
      (':' :: ' ' :: ((writeAt level w.2).toList ++ rest)))
    (hrest : EndsValue rest) :
    Leads (namedFields fields (fuel + 1) first acc) depth text
      (namedFields fields fuel false (r :: acc)) rest := by
  obtain ⟨hr, f, hf, hname', hread⟩ := h
  refine Gives.bind hname ?_
  have hfind := find?_name hnodup hf
  rw [hname'] at hfind
  simp only [hfind, hacc, Option.isSome_none, Bool.false_eq_true, if_false]
  refine Gives.bind (gives_colon ..) ?_
  refine Gives.bind (hread level isLayout_space hrest) ?_
  rw [hr]
  exact Leads.refl ..

/-- The fields of a record behind the first one are read back. -/
theorem gives_namedFields {ws rs : List (String × Data)}
    (hnodup : (fields.map FieldReader.name).Nodup)
    (h : List.Forall₂ (FieldReadsBack fields depth) ws rs) (level : Nat) (rest : List Char) :
    ∀ (fuel : Nat) (acc : List (String × Data)), ws.length < fuel →
      ((acc ++ rs).map Prod.fst).Nodup →
      Gives (namedFields fields fuel false acc) depth
        ((writeFields (level + 1) ws).toList ++ ((newLine level).toList ++ '}' :: rest))
        (rs.reverse ++ acc) ('}' :: rest) := by
  induction h with
  | nil =>
    rintro (- | fuel) acc hfuel -
    · omega
    exact Gives.bind (gives_fieldName_end (isLayout_newLine level) false) (gives_pure ..)
  | @cons w r ws rs head tail ih =>
    rintro (- | fuel) acc hfuel hacc
    · simp at hfuel
    have hfresh : acc.lookup w.1 = none := by
      refine lookup_eq_none_of_forall_ne fun f hf hname => ?_
      rw [List.map_append, List.map_cons, List.nodup_append] at hacc
      exact hacc.2.2 _ (List.mem_map_of_mem hf) _ (by simp) (hname.trans head.1)
    have hname := gives_fieldName_comma (isLayout_newLine (level + 1)) w.1 depth
      (':' :: ' ' :: ((writeAt (level + 1) w.2).toList ++
        ((writeFields (level + 1) ws).toList ++ ((newLine level).toList ++ '}' :: rest))))
    have hperm : (acc ++ r :: rs).Perm (r :: acc ++ rs) := List.perm_middle
    have htail := ih fuel (r :: acc) (by simpa using hfuel) ((hperm.map _).nodup_iff.1 hacc)
    have hwrite : (writeFields (level + 1) (w :: ws)).toList =
        ',' :: ((newLine (level + 1)).toList ++ ((quoted w.1).toList ++ ':' :: ' ' ::
          ((writeAt (level + 1) w.2).toList ++ (writeFields (level + 1) ws).toList))) := by
      simp [writeFields]
    rw [hwrite, List.reverse_cons, List.append_assoc, List.singleton_append]
    simp only [List.cons_append, List.append_assoc]
    exact (leads_field hnodup head acc hfresh (level + 1) fuel hname
      (endsValue_writeFields level ws _)).trans htail

/-- The fields that were read are put in order. -/
theorem arranged_eq_pure {given : List (String × Data)}
    (h : ∀ f ∈ fields, given.lookup f.name = none → f.isOptional = true) :
    arranged fields given =
      pure (fields.map fun f => (f.name, (given.lookup f.name).getD .null)) := by
  refine mapM_eq_pure_map fun f hf => ?_
  cases hlookup : given.lookup f.name with
  | none => simp [h f hf hlookup]
  | some d => rfl

theorem writeAt_record_append (level : Nat) (w : String × Data) (ws : List (String × Data))
    (rest : List Char) :
    (writeAt level (.record (w :: ws))).toList ++ rest =
      '{' :: ((newLine (level + 1)).toList ++ ((quoted w.1).toList ++ ':' :: ' ' ::
        ((writeAt (level + 1) w.2).toList ++ ((writeFields (level + 1) ws).toList ++
          ((newLine level).toList ++ '}' :: rest))))) := by
  simp [writeAt]

/-- **A record is read back** if its fields are. -/
theorem readsBack_recordOf {ws rs : List (String × Data)} (expected : String)
    (hnodup : (fields.map FieldReader.name).Nodup) (hne : ws ≠ [])
    (h : Chosen FieldReader.name FieldReader.isOptional (fun f => ReadsBack f.read depth) fields
      ws rs) :
    ReadsBack (recordOf expected fields) (depth + 1) (.record ws) (.record rs) := by
  intro level blanks rest hblanks hrest
  obtain ⟨found, hfound, hsub, rfl, hoptional⟩ := h.exists_found hnodup
  have hdistinct : (found.map Prod.fst).Nodup := hsub.nodup hnodup
  have hlookup : ∀ name, (found.reverse).lookup name = found.lookup name :=
    fun name => (lookup_eq_of_perm found.reverse_perm.symm hdistinct name).symm
  cases hfound with
  | nil => exact absurd rfl hne
  | @cons w g ws found head tail =>
    rw [writeAt_record_append]
    have hname := gives_fieldName_first (isLayout_newLine (level + 1)) w.1 depth
      (':' :: ' ' :: ((writeAt (level + 1) w.2).toList ++
        ((writeFields (level + 1) ws).toList ++ ((newLine level).toList ++ '}' :: rest))))
    have hlength := length_le_length_writeFields (level + 1) ws
    have hgiven (fuel : Nat) (hfuel : ws.length < fuel) :=
      (leads_field hnodup head [] rfl (level + 1) fuel hname
        (endsValue_writeFields level ws _)).trans
        (gives_namedFields hnodup tail level rest fuel [g] hfuel hdistinct)
    refine Gives.placed (Gives.bind (gives_valueStart hblanks rfl) ?_)
    simp only [Char.reduceEq, if_false, if_true]
    refine leads_get_bind fun passed => ?_
    refine (Gives.framed ?_ (gives_endRecord depth rest)).map Data.record
    refine Gives.bind (hgiven _ ?_) ?_
    · simp only [List.length_append, List.length_cons]
      omega
    · rw [← List.reverse_cons]
      simp only [← hlookup] at hoptional ⊢
      rw [arranged_eq_pure hoptional]
      exact gives_pure ..

/-! ### Arguments -/

theorem lookup_tag (kind : ArgumentKind) : ArgumentKind.tags.lookup kind.tag = some kind := by
  cases kind <;> rfl

theorem gives_kindText (hblanks : ∀ c ∈ blanks, isLayout c = true) (kind : ArgumentKind) :
    Gives kindText depth (blanks ++ ((quoted kind.tag).toList ++ text)) kind text := by
  rw [toList_quoted, List.cons_append, List.append_assoc]
  refine Gives.placed (Gives.bind (gives_valueStart hblanks rfl) ?_)
  rw [if_pos rfl]
  refine Gives.bind (gives_eat ..) (Gives.bind (gives_textBody ..) ?_)
  rw [lookup_tag]
  exact gives_pure ..

theorem gives_argumentKind (hblanks : ∀ c ∈ blanks, isLayout c = true) (kind : ArgumentKind) :
    Gives argumentKind depth (blanks ++ ((quoted kind.tag).toList ++ text)) kind text := by
  have h : Gives kindText depth ([] ++ ((quoted kind.tag).toList ++ text)) kind text :=
    gives_kindText (List.forall_mem_nil _) kind
  rw [toList_quoted] at h ⊢
  exact Gives.bind (gives_skipLayout hblanks rfl) h

/-- Whether a character may begin the value of an argument of a kind. -/
def OpensArgument : ArgumentKind → Char → Prop
  | .string, c | .constant, c => c = '"'
  | .integer, c | .float, c => opensNumber c = true
  | .unresolved, _ => False

theorem opensNumber_spec {c : Char} (h : opensNumber c = true) :
    isLayout c = false ∧ c ≠ ']' ∧ c ≠ 'n' := by
  refine ⟨Bool.eq_false_iff.2 fun hlayout => ?_, ?_, ?_⟩
  · simp only [isLayout, Bool.or_eq_true, beq_iff_eq] at hlayout
    rcases hlayout with ((rfl | rfl) | rfl) | rfl <;> cases h
  · rintro rfl
    cases h
  · rintro rfl
    cases h

theorem OpensArgument.isLayout_eq_false {kind : ArgumentKind} {c : Char}
    (h : OpensArgument kind c) : isLayout c = false := by
  cases kind with
  | string | constant =>
    cases (show c = '"' from h)
    rfl
  | integer | float => exact (opensNumber_spec h).1
  | unresolved => exact h.elim

/-- The value of an argument is read as what is found there. -/
theorem gives_argumentOf {kind : ArgumentKind} {found : Found} {v : ArgumentValue} {c : Char}
    (hblanks : ∀ c ∈ blanks, isLayout c = true) (hc : OpensArgument kind c)
    (hfound : Gives foundAhead depth (c :: text) found rest) (hcheck : kind.check found = .ok v) :
    Gives (argumentOf kind) depth (blanks ++ c :: text) v.toData rest := by
  refine Gives.placed (Gives.bind (gives_valueStart hblanks hc.isLayout_eq_false) ?_)
  have hfits : Gives (do
      let found ← foundAhead
      fitting kind found) depth (c :: text) v.toData rest := by
    refine Gives.bind hfound ?_
    simp only [fitting, hcheck]
    exact gives_pure ..
  cases kind with
  | string | constant | integer | float =>
    dsimp only [OpensArgument] at hc ⊢
    rwa [if_pos hc]
  | unresolved => exact hc.elim

theorem gives_argumentField {first : Bool} {name : String} (field : ArgumentField)
    (hname : (name, field) ∈ [("kind", ArgumentField.kind), ("value", .value)]) (fuel : Nat)
    (h : Gives (fieldName first) depth text (some name) rest) :
    Gives (argumentField (fuel + 1) first) depth text (some field) rest := by
  refine Gives.bind h ?_
  rcases List.mem_pair.1 hname with h | h <;> cases h <;> exact gives_pure ..

theorem gives_argumentField_end (level fuel : Nat) (rest : List Char) :
    Gives (argumentField (fuel + 1) false) depth ((newLine level).toList ++ '}' :: rest) none
      ('}' :: rest) :=
  Gives.bind (gives_fieldName_end (isLayout_newLine level) false) (gives_pure ..)

/-- The tag of an argument is read, and what follows it is its turn. -/
theorem leads_argumentFields (kind : ArgumentKind) (level fuel : Nat) (rest : List Char)
    {q : Read Data} {rest' : List Char}
    (h : Leads (do
      match ← argumentField (fuel + 1) false with
      | none => withoutValue kind
      | some .kind => failForm (.duplicateField "kind")
      | some .value =>
        colon
        let d ← argumentOf kind
        argumentEnd (fuel + 1) d) depth rest q rest') :
    Leads (argumentFields (fuel + 1)) depth
      ((newLine level).toList ++ ((quoted "kind").toList ++ ':' :: ' ' ::
        ((quoted kind.tag).toList ++ rest))) q rest' := by
  refine Gives.bind (gives_argumentField .kind (by simp) fuel
    (gives_fieldName_first (isLayout_newLine level) "kind" ..)) ?_
  refine Gives.bind (gives_colon ..) ?_
  exact Gives.bind (gives_argumentKind isLayout_space kind) h

/-- An argument is read if its fields are. -/
theorem gives_argumentValue {d : Data} (hblanks : ∀ c ∈ blanks, isLayout c = true)
    (h : ∀ fuel, Gives (argumentFields (fuel + 1)) depth text d ('}' :: rest)) :
    Gives argumentValue (depth + 1) (blanks ++ '{' :: text) d rest := by
  refine Gives.placed (Gives.bind (gives_valueStart hblanks rfl) ?_)
  simp only [Char.reduceEq, if_false, if_true]
  exact leads_get_bind fun passed => (h _).framed (gives_endRecord ..)

/-- An argument without a value is read back. -/
theorem readsBack_argumentValue_unresolved :
    ReadsBack argumentValue (depth + 1) ArgumentValue.unresolved.toData
      ArgumentValue.unresolved.toData := by
  intro level blanks rest hblanks hrest
  rw [ArgumentValue.toData, writeAt_record_append]
  refine gives_argumentValue hblanks fun fuel => ?_
  exact leads_argumentFields .unresolved _ fuel _
    (Gives.bind (gives_argumentField_end level fuel rest) (gives_pure ..))

/-- An argument with a value is read back if the value is. -/
theorem readsBack_argumentValue {v : ArgumentValue} (kind : ArgumentKind) {w : Data}
    (hv : v.toData = .record [("kind", .text kind.tag), ("value", w)])
    (hw : ∀ level rest, EndsValue rest →
      Gives (argumentOf kind) depth (' ' :: ((writeAt level w).toList ++ rest)) v.toData rest) :
    ReadsBack argumentValue (depth + 1) v.toData v.toData := by
  intro level blanks rest hblanks hrest
  have hvalue := hw (level + 1) _ (endsValue_newLine level ('}' :: rest))
  rw [hv] at hvalue ⊢
  rw [writeAt_record_append]
  refine gives_argumentValue hblanks fun fuel => ?_
  refine leads_argumentFields kind (level + 1) fuel _ ?_
  have hfields : (writeFields (level + 1) [("value", w)]).toList =
      ',' :: ((newLine (level + 1)).toList ++ ((quoted "value").toList ++ ':' :: ' ' ::
        (writeAt (level + 1) w).toList)) := by
    simp [writeFields]
  rw [hfields]
  simp only [List.cons_append, List.append_assoc]
  refine Gives.bind (gives_argumentField .value (by simp) fuel
    (gives_fieldName_comma (isLayout_newLine (level + 1)) "value" ..)) ?_
  refine Gives.bind (gives_colon ..) (Gives.bind hvalue ?_)
  exact Gives.bind (gives_argumentField_end level fuel rest) (gives_pure ..)

/-- **An argument is read back** if its numbers can be. -/
theorem readsBack_argument {v : ArgumentValue} (hv : v.Fits Keeps) :
    ReadsBack argumentValue (depth + 1) v.toData v.toData := by
  have htext (s : String) (rest : List Char) :
      Gives foundAhead depth ((quoted s).toList ++ rest) (.text s) rest := by
    rw [toList_quoted, List.cons_append, List.append_assoc]
    refine Gives.bind (gives_peek ..) (Gives.bind (gives_eat ..) ?_)
    exact (gives_textBody ..).map _
  cases v with
  | string s =>
    refine readsBack_argumentValue .string rfl fun level rest _ => ?_
    have h := htext s rest
    simp only [writeAt, toList_quoted] at h ⊢
    exact gives_argumentOf isLayout_space rfl h rfl
  | constant s =>
    refine readsBack_argumentValue .constant rfl fun level rest _ => ?_
    have h := htext s rest
    simp only [writeAt, toList_quoted] at h ⊢
    exact gives_argumentOf isLayout_space rfl h rfl
  | integer i =>
    refine readsBack_argumentValue .integer rfl fun level rest hrest => ?_
    have hfits : fitsWord i = true := hv
    have hbounds : -2 ^ 63 ≤ i ∧ i < 2 ^ 63 := by
      simpa [fitsWord, Int.pow_eq] using hfits
    obtain ⟨c, cs, hcs, hc, hgives⟩ :=
      exists_gives_signedNumber_int (i := i) hbounds.1 (by omega)
    rw [writeAt, hcs]
    refine gives_argumentOf isLayout_space hc
      ((leads_foundAhead hc ..).trans ((hgives depth rest hrest).map Number.found)) ?_
    simp [ArgumentKind.check, Number.found, hfits]
  | float x =>
    refine readsBack_argumentValue .float rfl fun level rest hrest => ?_
    have hx : Keeps x := hv
    have hfound := gives_foundAhead_float hx hrest depth
    cases x with
    | infinite negative => exact absurd hx (not_keeps_infinite negative)
    | undefined => exact absurd hx not_keeps_undefined
    | finite negative m e =>
      obtain ⟨c, cs, hcs, hc, -⟩ := exists_leads_foundAhead hx.1
      rw [hcs] at hfound
      rw [writeAt, hcs]
      exact gives_argumentOf isLayout_space hc hfound rfl
  | unresolved => exact readsBack_argumentValue_unresolved

/-! ### Single values -/

theorem readsBack_textAs (expected : String) (s : String) :
    ReadsBack (textAs expected) depth (.text s) (.text s) := by
  intro level blanks rest hblanks hrest
  rw [writeAt, toList_quoted, List.cons_append, List.append_assoc]
  refine Gives.placed (Gives.bind (gives_valueStart hblanks rfl) ?_)
  rw [if_pos rfl]
  exact Gives.bind (gives_eat ..) ((gives_textBody ..).map _)

theorem readsBack_flagValue (expected : String) (b : Bool) :
    ReadsBack (flagValue expected) depth (.flag b) (.flag b) := by
  intro level blanks rest hblanks hrest
  refine Gives.placed ?_
  cases b with
  | false =>
    have hwrite : (writeAt level (.flag false)).toList ++ rest = 'f' :: (['a', 'l', 's', 'e'] ++ rest) := by
      simp [writeAt]
    rw [hwrite]
    refine Gives.bind (gives_valueStart hblanks rfl) ?_
    simp only [Char.reduceEq, if_false, if_true]
    exact Gives.bind (gives_eat ..) (Gives.bind (gives_word ..) (gives_pure ..))
  | true =>
    have hwrite : (writeAt level (.flag true)).toList ++ rest = 't' :: (['r', 'u', 'e'] ++ rest) := by
      simp [writeAt]
    rw [hwrite]
    refine Gives.bind (gives_valueStart hblanks rfl) ?_
    rw [if_pos rfl]
    exact Gives.bind (gives_eat ..) (Gives.bind (gives_word ..) (gives_pure ..))

theorem readsBack_naturalValue (expected : String) {n : Nat} (hn : n < 2 ^ 64) :
    ReadsBack (naturalValue expected) depth (.integer n) (.integer n) := by
  intro level blanks rest hblanks hrest
  obtain ⟨c, cs, hcs, hc, hgives⟩ := exists_gives_signedNumber_int (i := n) (by omega) (by omega)
  rw [writeAt, hcs]
  refine Gives.placed (Gives.bind (gives_valueStart hblanks (opensNumber_spec hc).1) ?_)
  rw [if_pos hc]
  exact Gives.bind (hgives depth rest hrest) (gives_pure ..)

theorem readsBack_optionalOf_null (content : Read Data) :
    ReadsBack (optionalOf content) depth .null .null := by
  intro level blanks rest hblanks hrest
  have hwrite : (writeAt level .null).toList ++ rest = 'n' :: (['u', 'l', 'l'] ++ rest) := by
    simp [writeAt]
  rw [hwrite]
  refine Gives.bind (gives_skipLayout hblanks rfl) ?_
  exact Gives.bind (gives_eat ..) (Gives.bind (gives_word ..) (gives_pure ..))

/-- What is there is read back by the reader of its form. -/
theorem ReadsBack.optionalOf {content : Read Data} (h : ReadsBack content depth w r)
    (hbegins : Begins w) (hnull : w ≠ .null) : ReadsBack (optionalOf content) depth w r := by
  intro level blanks rest hblanks hrest
  obtain ⟨c, cs, hcs, hlayout, -, hn⟩ := hbegins level
  have hcontent := h level (List.forall_mem_nil _) hrest
  rw [hcs] at hcontent ⊢
  refine Gives.bind (gives_skipLayout hblanks (by simpa using hlayout)) ?_
  simp only [List.cons_append, List.head?_cons]
  split
  · exact absurd (hn (Option.some.inj ‹_›)) hnull
  · exact hcontent

/-! ### Any form -/

theorem begins_of_ne_float (h : ∀ x, w ≠ .float x) : Begins w := by
  intro level
  cases w with
  | null => exact ⟨'n', _, by rw [writeAt]; rfl, rfl, by decide, fun _ => rfl⟩
  | flag b =>
    cases b with
    | false => exact ⟨'f', _, by rw [writeAt]; rfl, rfl, by decide, nofun⟩
    | true => exact ⟨'t', _, by rw [writeAt]; rfl, rfl, by decide, nofun⟩
  | integer i =>
    obtain ⟨d, ds, hd, hdigits⟩ := exists_toDigits_eq_cons i.natAbs
    obtain ⟨c, cs, hcs, hc, -⟩ := exists_leads_signedNumber (decide (i < 0)) (hdigits d (by simp)) ds
    obtain ⟨hlayout, hend, hn⟩ := opensNumber_spec hc
    refine ⟨c, cs, ?_, hlayout, hend, fun h => absurd h hn⟩
    rw [writeAt, toList_toString_int, hd, ← hcs]
    simp
  | float x => exact absurd rfl (h x)
  | text s => exact ⟨'"', _, by rw [writeAt, toList_quoted], rfl, by decide, nofun⟩
  | list ws =>
    cases ws with
    | nil => exact ⟨'[', _, by rw [writeAt]; rfl, rfl, by decide, nofun⟩
    | cons w ws =>
      exact ⟨'[', _, by simpa using writeAt_cons_append level w ws [], rfl, by decide, nofun⟩
  | record ws =>
    cases ws with
    | nil => exact ⟨'{', _, by rw [writeAt]; rfl, rfl, by decide, nofun⟩
    | cons w ws =>
      exact ⟨'{', _, by simpa using writeAt_record_append level w ws [], rfl, by decide, nofun⟩

end

/-- The reader of a field. -/
def fieldReader (f : String × Schema × Bool) : FieldReader :=
  ⟨f.1, ofSchema f.2.1, f.2.1.isOptional, f.2.2⟩

theorem fieldReaders_eq_map (fields : List (String × Schema × Bool)) :
    fieldReaders fields = fields.map fieldReader := by
  induction fields with
  | nil => rfl
  | cons f fields ih => rw [fieldReaders, ih, List.map_cons, fieldReader]

mutual

/-- **Data of a form is read back** by the reader of the form. -/
theorem readsBack_ofSchema (schema : Schema) {depth : Nat} {w r : Data}
    (hdistinct : schema.IsDistinct) (hdepth : schema.depth ≤ depth)
    (h : schema.Takes Keeps w r) : ReadsBack (ofSchema schema) depth w r := by
  cases schema with
  | text =>
    obtain ⟨⟨s, rfl⟩, rfl⟩ := h
    exact readsBack_textAs _ s
  | path =>
    obtain ⟨⟨s, rfl⟩, rfl⟩ := h
    exact readsBack_textAs _ s
  | flag =>
    obtain ⟨⟨b, rfl⟩, rfl⟩ := h
    exact readsBack_flagValue _ b
  | natural =>
    obtain ⟨⟨n, hn, rfl⟩, rfl⟩ := h
    exact readsBack_naturalValue _ hn
  | optional content =>
    rcases h with ⟨rfl, rfl⟩ | ⟨hnull, h⟩
    · exact readsBack_optionalOf_null _
    · have hcontent := readsBack_ofSchema content hdistinct hdepth h
      exact hcontent.optionalOf (begins_of_ne_float h.ne_float) hnull
  | list item =>
    obtain ⟨ws, rs, rfl, rfl, h⟩ := h
    rw [Schema.depth] at hdepth
    obtain ⟨depth, rfl⟩ := Nat.exists_eq_add_one_of_ne_zero (n := depth) (by omega)
    refine readsBack_listOf _ (h.imp fun w r h => ⟨?_, begins_of_ne_float h.ne_float⟩)
    exact readsBack_ofSchema item hdistinct (by omega) h
  | record name fields =>
    obtain ⟨ws, rs, rfl, rfl, hne, h⟩ := h
    rw [Schema.depth] at hdepth
    obtain ⟨depth, rfl⟩ := Nat.exists_eq_add_one_of_ne_zero (n := depth) (by omega)
    have hfields := readsBack_fieldReaders fields hdistinct.2 (Nat.le_of_succ_le_succ hdepth)
    rw [ofSchema, fieldReaders_eq_map]
    refine readsBack_recordOf _ ?_ hne (h.chosen.map fieldReader hfields)
    rw [List.map_map]
    exact hdistinct.1
  | argument =>
    obtain ⟨⟨v, hv, rfl⟩, rfl⟩ := h
    rw [Schema.depth] at hdepth
    obtain ⟨depth, rfl⟩ := Nat.exists_eq_add_one_of_ne_zero (n := depth) (by omega)
    exact readsBack_argument hv
  | table => exact h.elim

/-- The fields of a record are read back. -/
theorem readsBack_fieldReaders (fields : List (String × Schema × Bool)) {depth : Nat}
    (hdistinct : Schema.AreDistinct fields) (hdepth : Schema.depthOfFields fields ≤ depth) :
    ∀ f ∈ fields, ∀ w r, f.2.1.Takes Keeps w r → ReadsBack (ofSchema f.2.1) depth w r := by
  cases fields with
  | nil => simp
  | cons f fields =>
    obtain ⟨name, schema, skippable⟩ := f
    rw [Schema.depthOfFields, max_le_iff] at hdepth
    rw [List.forall_mem_cons]
    exact ⟨fun w r h => readsBack_ofSchema schema hdistinct.1 hdepth.1 h,
      readsBack_fieldReaders fields hdistinct.2 hdepth.2⟩

end

/-- A whole text is read to its end. -/
theorem run_wholeText {p : Read Data} {source : String} {d : Data}
    (h : Gives p depthLimit source.toList d []) :
    ∃ s, (wholeText p).run (.start source) = (.ok d, s) := by
  have hwhole : Gives (wholeText p) depthLimit source.toList d [] :=
    Gives.bind h (Gives.bind (gives_skipLayout (List.forall_mem_nil _) rfl) (gives_pure ..))
  obtain ⟨passed, hrun⟩ := hwhole.run 0
  exact ⟨_, hrun⟩

end Read

/-- **Data of a form is read back** from the JSON text that is written for it. -/
theorem read_write {schema : Schema} {w r : Data} (hdistinct : schema.IsDistinct)
    (hdepth : schema.depth ≤ depthLimit) (h : schema.Takes Read.Keeps w r) :
    read schema (write w) = .ok r := by
  have hread := Read.readsBack_ofSchema schema hdistinct hdepth h 0 (List.forall_mem_nil _)
    Read.endsValue_nil
  rw [List.nil_append, List.append_nil] at hread
  obtain ⟨s, hrun⟩ := Read.run_wholeText hread
  rw [read, write, hrun]

/-- **A description is read back** from the JSON text that is written for it. -/
theorem read_write_toData {c : ClassDescriptor} (h : c.Fits Read.Keeps) :
    read .classDescriptor (write c.toData) = .ok c.filled := by
  refine read_write Schema.isDistinct_classDescriptor ?_ (Schema.takes_toData h)
  rw [Schema.depth_classDescriptor]
  decide

end DocBlocks.Json
