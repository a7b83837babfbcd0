import DocBlocks.Format.Yaml.Decode
import DocBlocks.Format.Yaml.Write
import DocBlocks.Proofs.Format.Schema
import DocBlocks.Proofs.Format.Yaml.Scalar

/-!
# YAML is read back from its items

`itemsFor` is what a reader of items should meet where data was written: a scalar with its text and
style for everything that is no list or record, and the ends of lists and records. Data that has a
form is read back from these items by the reader of that form (`readsBack_ofSchema`), wherever they
stand. Where a text was read, its style only matters in that plain texts are none that say nothing.

The places of items are of no interest, since they only tell where a fault is.
-/

namespace DocBlocks.Yaml

/-! ### Items of data -/

/-- The style of a scalar that is read where a text was written in a style. -/
def TextStyle.scalarStyle : TextStyle → ScalarStyle
  | plain => .plain
  | single => .quoted
  | double => .quoted
  | literal => .literal

/-- The scalar of a text. -/
def scalarOf (s : String) : Scalar := ⟨none, s, (styleOf s).scalarStyle⟩

/-- The scalar of a word or number. -/
def plainOf (s : String) : Scalar := ⟨none, s, .plain⟩

mutual

/-- The items of data. -/
def itemsFor : Data → List Item
  | .null => [.scalar (plainOf "null")]
  | .flag b => [.scalar (plainOf (if b then "true" else "false"))]
  | .integer i => [.scalar (plainOf (toString i))]
  | .float x => [.scalar (plainOf (numberStyle.write x))]
  | .text s => [.scalar (scalarOf s)]
  | .list ds => .listStart none :: (itemsForAll ds ++ [.listEnd])
  | .record fs => .recordStart none :: (itemsForFields fs ++ [.recordEnd])

/-- The items of neighbouring data. -/
def itemsForAll : List Data → List Item
  | [] => []
  | d :: ds => itemsFor d ++ itemsForAll ds

/-- The items of fields with their names. -/
def itemsForFields : List (String × Data) → List Item
  | [] => []
  | (name, d) :: fs => .scalar (scalarOf name) :: (itemsFor d ++ itemsForFields fs)

end

namespace Read

/-! ### Putting readers together -/

/-- Whether a reader gives a value on items, in any document. -/
structure Gives {α : Type} (p : Read α) (depth : Nat) (items : List (Item × Mark)) (a : α)
    (rest : List (Item × Mark)) : Prop where
  run : ∀ document followed,
    (p ⟨document, depth⟩).run ⟨items, followed⟩ = .ok (a, ⟨rest, followed⟩)

section

variable {α β : Type} {p : Read α} {a : α} {b : β} {depth : Nat}
  {items mid rest : List (Item × Mark)} {item : Item} {mark : Mark}

/-- A reader that gives a value hands it on. -/
theorem Gives.bind {f : α → Read β} (h : Gives p depth items a mid)
    (h' : Gives (f a) depth mid b rest) : Gives (p >>= f) depth items b rest :=
  ⟨fun document followed => by
    show Except.bind ((p ⟨document, depth⟩).run ⟨items, followed⟩) _ = _
    rw [h.run]
    exact h'.run document followed⟩

theorem gives_pure (a : α) (depth : Nat) (items : List (Item × Mark)) :
    Gives (pure a) depth items a items := ⟨fun _ _ => rfl⟩

theorem Gives.map (f : α → β) (h : Gives p depth items a rest) :
    Gives (f <$> p) depth items (f a) rest := by
  rw [map_eq_pure_bind]
  exact h.bind (gives_pure ..)

theorem gives_peek (depth : Nat) (item : Item × Mark) (rest : List (Item × Mark)) :
    Gives peek depth (item :: rest) item (item :: rest) := ⟨fun _ _ => rfl⟩

theorem gives_next (depth : Nat) (item : Item × Mark) (rest : List (Item × Mark)) :
    Gives next depth (item :: rest) item rest := ⟨fun _ _ => rfl⟩

theorem gives_room (depth : Nat) (items : List (Item × Mark)) :
    Gives room depth items (items.length + 1) items := ⟨fun _ _ => rfl⟩

theorem Gives.placed {path : String} (h : Gives p depth items a rest) :
    Gives (placed mark path p) depth items a rest := ⟨fun document followed => by
  show tryCatchThe Error ((p ⟨document, depth⟩).run ⟨items, followed⟩) _ = _
  rw [h.run]
  rfl⟩

/-- The inside of a list or record is read one level deeper. -/
theorem Gives.nested (h : Gives p depth items a rest) :
    Gives (nested mark p) (depth + 1) items a rest :=
  ⟨fun document followed => h.run document followed⟩

/-- A value that is no reference is read where it stands. -/
theorem gives_value {path : String} {p : Item → Mark → Read α}
    (hitem : ∀ anchor, item ≠ .reference anchor)
    (h : Gives (p item mark) depth items a rest) :
    Gives (value path p) depth ((item, mark) :: items) a rest := by
  refine Gives.bind (gives_next ..) ?_
  cases item with
  | reference anchor => exact absurd rfl (hitem anchor)
  | _ => exact h.placed

/-! ### Single values -/

theorem gives_textAs (expected path : String) (s : Scalar) (depth : Nat)
    (rest : List (Item × Mark)) :
    Gives (textAs expected path) depth ((.scalar s, mark) :: rest) s.text rest :=
  gives_value (by simp) (gives_pure ..)

theorem gives_scalarAs {tag : CommonTag} {f : String → Option α} {s : String} {a : α}
    (h : f s = some a) (expected path : String) (depth : Nat) (rest : List (Item × Mark)) :
    Gives (scalarAs tag expected path f) depth ((.scalar (plainOf s), mark) :: rest) a rest := by
  refine gives_value (by simp) ?_
  simp only [plainOf, Scalar.allows, decide_true, Bool.true_or, if_true, h]
  exact gives_pure ..

/-- Whether items with any places are those of data. -/
def Items (d : Data) (items : List (Item × Mark)) : Prop := items.map Prod.fst = itemsFor d

/-- Whether a reader reads data as other data wherever it stands. -/
def ReadsBack (p : String → Read Data) (depth : Nat) (w r : Data) : Prop :=
  ∀ (path : String) {items : List (Item × Mark)} (rest : List (Item × Mark)), Items w items →
    Gives (p path) depth (items ++ rest) r rest

/-- A record stands between its ends. -/
theorem Items.exists_record {ws : List (String × Data)} {items : List (Item × Mark)}
    (h : Items (.record ws) items) :
    ∃ start inner stop, inner.map Prod.fst = itemsForFields ws ∧
      items = (.recordStart none, start) :: (inner ++ [(.recordEnd, stop)]) := by
  rw [Items, itemsFor] at h
  obtain ⟨⟨_, start⟩, items', rfl, rfl, hitems'⟩ := List.map_eq_cons_iff.1 h
  obtain ⟨inner, last, rfl, hinner, hlast⟩ := List.map_eq_append_iff.1 hitems'
  obtain ⟨⟨_, stop⟩, rfl, rfl⟩ := List.map_eq_singleton_iff.1 hlast
  exact ⟨start, inner, stop, hinner, rfl⟩

/-- A field stands behind its name. -/
theorem exists_of_itemsForFields_cons {w : String × Data} {ws : List (String × Data)}
    {items : List (Item × Mark)} (h : items.map Prod.fst = itemsForFields (w :: ws)) :
    ∃ mark front back, Items w.2 front ∧ back.map Prod.fst = itemsForFields ws ∧
      items = (.scalar (scalarOf w.1), mark) :: (front ++ back) := by
  rw [itemsForFields] at h
  obtain ⟨⟨_, mark⟩, items', rfl, rfl, hitems'⟩ := List.map_eq_cons_iff.1 h
  obtain ⟨front, back, rfl, hfront, hback⟩ := List.map_eq_append_iff.1 hitems'
  exact ⟨mark, front, back, hfront, hback, rfl⟩

theorem Items.exists_single {w : Data} {items : List (Item × Mark)} (h : Items w items)
    {item : Item} (hw : itemsFor w = [item]) : ∃ mark, items = [(item, mark)] := by
  obtain ⟨⟨item', mark⟩, rfl, hitem'⟩ := List.map_eq_singleton_iff.1 (h.trans hw)
  exact ⟨mark, by rw [← hitem']⟩

/-- Data with a single item is read back if that item is read. -/
theorem readsBack_of_single {p : String → Read Data} {w r : Data} {item : Item}
    (hitem : itemsFor w = [item])
    (h : ∀ path mark rest, Gives (p path) depth ((item, mark) :: rest) r rest) :
    ReadsBack p depth w r := by
  intro path items rest hitems
  obtain ⟨mark, rfl⟩ := hitems.exists_single hitem
  exact h path mark rest

theorem readsBack_textAs (expected s : String) :
    ReadsBack (fun path => .text <$> textAs expected path) depth (.text s) (.text s) :=
  readsBack_of_single rfl fun path _ rest => (gives_textAs expected path (scalarOf s) depth rest).map _

theorem readsBack_flag (expected : String) (b : Bool) :
    ReadsBack (fun path => .flag <$> scalarAs .flag expected path fun s => flagWords.lookup s) depth
      (.flag b) (.flag b) := by
  refine readsBack_of_single (by rw [itemsFor]) fun path mark rest => ?_
  refine (gives_scalarAs ?_ expected path depth rest).map _
  cases b <;> rfl

theorem readNatural?_toString {n : Nat} (hn : n < 2 ^ 64) :
    readNatural? (toString (n : Int)) = some (.integer n) := by
  have hread := readScalarInteger?_toString (i := n) (by omega) (by omega)
  obtain ⟨c, cs, hd, hdigits⟩ := exists_toDigits_eq_cons n
  have htext : (toString (n : Int)).toList = c :: cs := by
    rw [toList_toString_int, if_neg (by omega), List.nil_append, Int.natAbs_natCast, hd]
  rw [htext] at hread
  have hsmall : n < Nat.pow 2 64 := hn
  simp only [readNatural?, htext]
  split
  · rename_i heq
    cases heq
    cases hdigits '-' (by simp)
  · simp only [hread, hsmall, if_true]

theorem readsBack_natural (expected : String) {n : Nat} (hn : n < 2 ^ 64) :
    ReadsBack (fun path => scalarAs .integer expected path readNatural?) depth (.integer n)
      (.integer n) :=
  readsBack_of_single (by rw [itemsFor]) fun path _ rest =>
    gives_scalarAs (readNatural?_toString hn) expected path depth rest

/-! ### Values that may be absent -/

/-- Whether the items of data begin with one that says something and ends no list. -/
def Begins (w : Data) : Prop :=
  ∃ item tail, itemsFor w = item :: tail ∧ item ≠ .listEnd ∧
    (∀ anchor, item ≠ .reference anchor) ∧
    (w ≠ .null → ∀ depth items, Gives (isNothing item) depth items false items)

theorem isNullText_of_styleOf {s : String} (h : styleOf s = .plain) :
    Scalar.isNullText s = false := by
  simp only [styleOf] at h
  split_ifs at h with hbreak hliteral hbare hsingle
  simp only [Bool.and_eq_true, beq_iff_eq] at hbare
  refine Bool.eq_false_iff.2 fun hnull => ?_
  have hread : readScalar s = .null := if_pos hnull
  rw [hread] at hbare
  cases hbare.1.1

theorem isAbsent_scalarOf (s : String) : (scalarOf s).isAbsent = .ok false := by
  cases h : styleOf s <;> simp [Scalar.isAbsent, scalarOf, h, TextStyle.scalarStyle]
  exact isNullText_of_styleOf h

theorem isNullText_toString (i : Int) : Scalar.isNullText (toString i) = false := by
  have hwords : ∀ w ∈ "" :: nullWords, (takeSign w.toList).2.head?.any Char.isDigit = false := by
    decide
  obtain ⟨c, cs, hd, hdigits⟩ := exists_toDigits_eq_cons i.natAbs
  have hnot : toString i ∉ "" :: nullWords := fun hmem => by
    have h := hwords _ hmem
    rw [takeSign_toString, hd] at h
    simp [hdigits c (by simp)] at h
  simpa [Scalar.isNullText, String.isEmpty_iff] using hnot

theorem gives_isNothing_scalar {s : Scalar} {b : Bool} (h : s.isAbsent = .ok b) (depth : Nat)
    (items : List (Item × Mark)) : Gives (isNothing (.scalar s)) depth items b items :=
  ⟨fun _ _ => by simp only [isNothing, h, ofExcept]; rfl⟩

theorem isAbsent_plainOf (s : String) : (plainOf s).isAbsent = .ok (Scalar.isNullText s) := rfl

theorem begins_of_ne_float {w : Data} (h : ∀ x, w ≠ .float x) : Begins w := by
  cases w with
  | null => exact ⟨_, _, by rw [itemsFor], by simp, by simp, fun h => absurd rfl h⟩
  | flag b =>
    refine ⟨_, _, by rw [itemsFor], by simp, by simp, fun _ => gives_isNothing_scalar ?_⟩
    rw [isAbsent_plainOf]
    cases b <;> rfl
  | integer i =>
    refine ⟨_, _, by rw [itemsFor], by simp, by simp, fun _ => gives_isNothing_scalar ?_⟩
    rw [isAbsent_plainOf, isNullText_toString]
  | float x => exact absurd rfl (h x)
  | text s =>
    exact ⟨_, _, by rw [itemsFor], by simp, by simp,
      fun _ => gives_isNothing_scalar (isAbsent_scalarOf s)⟩
  | list ws => exact ⟨_, _, by rw [itemsFor], by simp, by simp, fun _ _ _ => gives_pure ..⟩
  | record ws => exact ⟨_, _, by rw [itemsFor], by simp, by simp, fun _ _ _ => gives_pure ..⟩

theorem gives_optionalOf {content : String → Read Data} {path : String} {r : Data}
    (hitem : ∀ anchor, item ≠ .reference anchor)
    (h : Gives (optionalOf.here content path) depth ((item, mark) :: items) r rest) :
    Gives (optionalOf content path) depth ((item, mark) :: items) r rest := by
  refine Gives.bind (gives_peek ..) ?_
  cases item with
  | reference anchor => exact absurd rfl (hitem anchor)
  | _ => exact h

theorem readsBack_optionalOf_null (content : String → Read Data) :
    ReadsBack (optionalOf content) depth .null .null := by
  refine readsBack_of_single (by rw [itemsFor]) fun path mark rest => ?_
  refine gives_optionalOf (by simp) (Gives.bind (gives_peek ..) ?_)
  refine Gives.bind (gives_isNothing_scalar (isAbsent_plainOf _) ..) ?_
  exact Gives.bind (gives_next ..) (gives_pure ..)

/-- What is there is read back by the reader of its form. -/
theorem ReadsBack.optionalOf {content : String → Read Data} {w r : Data}
    (h : ReadsBack content depth w r) (hbegins : Begins w) (hnull : w ≠ .null) :
    ReadsBack (optionalOf content) depth w r := by
  intro path items rest hitems
  have hcontent := h path rest hitems
  obtain ⟨item, tail, hw, -, hreference, hpresent⟩ := hbegins
  obtain ⟨⟨item', mark⟩, items', rfl, rfl, -⟩ := List.map_eq_cons_iff.1 (hitems.trans hw)
  refine gives_optionalOf hreference (Gives.bind (gives_peek ..) ?_)
  exact Gives.bind (hpresent hnull ..) hcontent

/-! ### Lists -/

theorem length_le_length_itemsForAll (ws : List Data) (h : ∀ w ∈ ws, Begins w) :
    ws.length ≤ (itemsForAll ws).length := by
  induction ws with
  | nil => simp
  | cons w ws ih =>
    rw [List.forall_mem_cons] at h
    obtain ⟨item, tail, hw, -⟩ := h.1
    have := ih h.2
    simp only [itemsForAll, hw, List.length_append, List.length_cons]
    omega

/-- The items of a list are read back. -/
theorem gives_itemsOf {item : String → Read Data} {ws rs : List Data}
    (h : List.Forall₂ (fun w r => ReadsBack item depth w r ∧ Begins w) ws rs) (path : String)
    (rest : List (Item × Mark)) :
    ∀ (fuel index : Nat) (acc : List Data) {items : List (Item × Mark)},
      items.map Prod.fst = itemsForAll ws → ws.length < fuel →
      Gives (itemsOf item path fuel index acc) depth (items ++ (.listEnd, mark) :: rest)
        (acc.reverse ++ rs) rest := by
  induction h with
  | nil =>
    rintro (- | fuel) index acc items hitems hfuel
    · omega
    obtain rfl := List.map_eq_nil_iff.1 hitems
    refine Gives.bind (gives_peek ..) ?_
    rw [if_pos (by rfl), List.append_nil]
    exact Gives.bind (gives_next ..) (gives_pure ..)
  | @cons w r ws rs head tail ih =>
    rintro (- | fuel) index acc items hitems hfuel
    · simp at hfuel
    obtain ⟨hread, first, more, hw, hend, -⟩ := head
    obtain ⟨front, back, rfl, hfront, hback⟩ := List.map_eq_append_iff.1 hitems
    have htail := ih fuel (index + 1) (r :: acc) hback (by simpa using hfuel)
    rw [List.reverse_cons, List.append_assoc, List.singleton_append] at htail
    have hcontent := hread (path ++ "[" ++ toString index ++ "]") (back ++ (.listEnd, mark) :: rest)
      hfront
    obtain ⟨⟨first', mark'⟩, front, rfl, rfl, -⟩ := List.map_eq_cons_iff.1 (hfront.trans hw)
    rw [List.append_assoc]
    refine Gives.bind (gives_peek ..) ?_
    rw [if_neg (by simpa using hend)]
    exact Gives.bind hcontent htail

/-- **A list is read back** if its items are. -/
theorem readsBack_listOf {item : String → Read Data} {ws rs : List Data}
    (h : List.Forall₂ (fun w r => ReadsBack item depth w r ∧ Begins w) ws rs) :
    ReadsBack (listOf item) (depth + 1) (.list ws) (.list rs) := by
  intro path items rest hitems
  rw [Items, itemsFor] at hitems
  obtain ⟨⟨_, start⟩, items', rfl, rfl, hitems'⟩ := List.map_eq_cons_iff.1 hitems
  obtain ⟨inner, last, rfl, hinner, hlast⟩ := List.map_eq_append_iff.1 hitems'
  obtain ⟨⟨_, stop⟩, rfl, rfl⟩ := List.map_eq_singleton_iff.1 hlast
  rw [List.cons_append, List.append_assoc, List.singleton_append]
  have hlength : ws.length ≤ inner.length := by
    rw [← List.length_map Prod.fst, hinner]
    refine length_le_length_itemsForAll ws fun w hw => ?_
    obtain ⟨i, hi, rfl⟩ := List.getElem_of_mem hw
    exact (h.get hi (h.length_eq ▸ hi)).2
  refine gives_value (by simp) (Gives.map _ (Gives.nested (Gives.bind (gives_room ..) ?_)))
  refine gives_itemsOf h path rest _ 0 [] hinner ?_
  rw [List.length_append]
  omega

/-! ### Records -/

variable {fields : List FieldReader}

/-- A field that is read back has a reader of its name. -/
def FieldReadsBack (fields : List FieldReader) (depth : Nat) (w r : String × Data) : Prop :=
  w.1 = r.1 ∧ ∃ f ∈ fields, f.name = w.1 ∧ ReadsBack f.read depth w.2 r.2

theorem gives_nextKey (expected path : String) (s : Scalar) (rest : List (Item × Mark)) :
    Gives (nextKey expected path) depth ((.scalar s, mark) :: rest)
      (some (s.text, fieldPath path s.text)) rest :=
  Gives.bind (gives_peek ..) (Gives.bind (gives_next ..) (gives_pure ..))

theorem gives_nextKey_end (expected path : String) (rest : List (Item × Mark)) :
    Gives (nextKey expected path) depth ((.recordEnd, mark) :: rest) none rest :=
  Gives.bind (gives_peek ..) (Gives.bind (gives_next ..) (gives_pure ..))

theorem length_le_length_itemsForFields (ws : List (String × Data)) :
    ws.length ≤ (itemsForFields ws).length := by
  induction ws with
  | nil => simp
  | cons w ws ih =>
    simp only [itemsForFields, List.length_append, List.length_cons]
    omega

/-- The fields of a record are read back. -/
theorem gives_namedFields {ws rs : List (String × Data)}
    (hnodup : (fields.map FieldReader.name).Nodup)
    (h : List.Forall₂ (FieldReadsBack fields depth) ws rs) (path : String)
    (rest : List (Item × Mark)) :
    ∀ (fuel : Nat) (acc : List (String × Data)) {items : List (Item × Mark)},
      items.map Prod.fst = itemsForFields ws → ws.length < fuel →
      ((acc ++ rs).map Prod.fst).Nodup →
      Gives (namedFields fields path fuel acc) depth (items ++ (.recordEnd, mark) :: rest)
        (rs.reverse ++ acc) rest := by
  induction h with
  | nil =>
    rintro (- | fuel) acc items hitems hfuel -
    · omega
    obtain rfl := List.map_eq_nil_iff.1 hitems
    exact Gives.bind (gives_nextKey_end ..) (gives_pure ..)
  | @cons w r ws rs head tail ih =>
    rintro (- | fuel) acc items hitems hfuel hacc
    · simp at hfuel
    obtain ⟨hname, f, hf, hfname, hread⟩ := head
    obtain ⟨mark', front, back, hfront, hback, rfl⟩ := exists_of_itemsForFields_cons hitems
    have hfresh : acc.lookup w.1 = none := by
      refine lookup_eq_none_of_forall_ne fun g hg hgname => ?_
      rw [List.map_append, List.map_cons, List.nodup_append] at hacc
      exact hacc.2.2 _ (List.mem_map_of_mem hg) _ (by simp) (hgname.trans hname)
    have hfind := find?_name hnodup hf
    rw [hfname] at hfind
    have hperm : (acc ++ r :: rs).Perm (r :: acc ++ rs) := List.perm_middle
    have htail := ih fuel (r :: acc) hback (by simpa using hfuel)
      ((hperm.map _).nodup_iff.1 hacc)
    rw [List.cons_append, List.append_assoc, List.reverse_cons, List.append_assoc,
      List.singleton_append]
    refine Gives.bind (gives_nextKey ..) ?_
    simp only [scalarOf, hfind, hfresh, Option.isSome_none, Bool.false_eq_true, if_false]
    refine Gives.bind (hread _ _ hfront) ?_
    rw [hname]
    exact htail

/-- The fields that were read are put in order. -/
theorem arranged_eq_pure {given : List (String × Data)}
    (h : ∀ f ∈ fields, given.lookup f.name = none → f.isOptional = true) :
    arranged fields given =
      pure (fields.map fun f => (f.name, (given.lookup f.name).getD .null)) := by
  refine mapM_eq_pure_map fun f hf => ?_
  cases hlookup : given.lookup f.name with
  | none => simp [h f hf hlookup]
  | some d => rfl

/-- A value with named parts is read as its content is. -/
theorem gives_withFields {content empty : Read α} {tag : Option String} {path : String}
    (h : Gives content depth items a rest) (expected : String) :
    Gives (withFields expected path content empty) (depth + 1) ((.recordStart tag, mark) :: items) a
      rest :=
  gives_value (by simp) h.nested

/-- **A record is read back** if its fields are. -/
theorem readsBack_recordOf {ws rs : List (String × Data)} (expected : String)
    (hnodup : (fields.map FieldReader.name).Nodup)
    (h : Chosen FieldReader.name FieldReader.isOptional (fun f => ReadsBack f.read depth) fields
      ws rs) :
    ReadsBack (recordOf expected fields) (depth + 1) (.record ws) (.record rs) := by
  intro path items rest hitems
  obtain ⟨found, hfound, hsub, rfl, hoptional⟩ := h.exists_found hnodup
  have hdistinct : (found.map Prod.fst).Nodup := hsub.nodup hnodup
  have hlookup : ∀ name, (found.reverse).lookup name = found.lookup name :=
    fun name => (lookup_eq_of_perm found.reverse_perm.symm hdistinct name).symm
  obtain ⟨start, inner, stop, hinner, rfl⟩ := hitems.exists_record
  rw [List.cons_append, List.append_assoc, List.singleton_append]
  have hlength : ws.length ≤ inner.length := by
    have := congrArg List.length hinner
    rw [List.length_map] at this
    exact (length_le_length_itemsForFields ws).trans_eq this.symm
  refine gives_withFields (Gives.bind (gives_room ..) ?_) expected
  refine Gives.bind (gives_namedFields hnodup hfound path rest _ [] hinner ?_ hdistinct) ?_
  · rw [List.length_append]
    omega
  · rw [List.append_nil]
    simp only [← hlookup] at hoptional ⊢
    rw [arranged_eq_pure hoptional]
    exact (gives_pure ..).map _

/-! ### Arguments -/

theorem gives_argumentField_kind (depth : Nat) (mark : Mark) (path : String) (fuel : Nat)
    (rest : List (Item × Mark)) :
    ∃ inner, Gives (argumentField path (fuel + 1)) depth
      ((.scalar (scalarOf "kind"), mark) :: rest) (some (.kind inner)) rest :=
  ⟨_, Gives.bind (gives_nextKey ..) (gives_pure ..)⟩

theorem gives_argumentField_value (depth : Nat) (mark : Mark) (path : String) (fuel : Nat)
    (rest : List (Item × Mark)) :
    ∃ inner, Gives (argumentField path (fuel + 1)) depth
      ((.scalar (scalarOf "value"), mark) :: rest) (some (.value inner)) rest :=
  ⟨_, Gives.bind (gives_nextKey ..) (gives_pure ..)⟩

theorem gives_argumentField_end (path : String) (fuel : Nat) (rest : List (Item × Mark)) :
    Gives (argumentField path (fuel + 1)) depth ((.recordEnd, mark) :: rest) none rest :=
  Gives.bind (gives_nextKey_end ..) (gives_pure ..)

theorem gives_argumentKind (kind : ArgumentKind) (path : String) (rest : List (Item × Mark)) :
    Gives (argumentKind path) depth ((.scalar (scalarOf kind.tag), mark) :: rest) kind rest := by
  refine gives_value (by simp) ?_
  cases kind <;> exact gives_pure ..

/-- A found value that has the kind is read as it is. -/
theorem gives_fitting {kind : ArgumentKind} {found : Found} {v : ArgumentValue}
    (h : kind.check found = .ok v) (items : List (Item × Mark)) :
    Gives (fitting kind found) depth items v.toData items := by
  simp only [fitting, h]
  exact gives_pure ..

/-- The tag of an argument is read, and what follows it is its turn. -/
theorem gives_argumentFields (kind : ArgumentKind) {path : String} {d : Data} {m₁ m₂ : Mark}
    (h : ∀ n, Gives (do
      match ← argumentField path (n + 1) with
      | none => match kind with
        | .unresolved => pure ArgumentValue.unresolved.toData
        | _ => failForm (.missingField "value")
      | some (.kind _) => failForm (.duplicateField "kind")
      | some (.value inner) =>
        let d ← argumentOf kind inner
        argumentEnd path (n + 1) d) depth items d rest) :
    Gives (argumentFields path) depth
      ((.scalar (scalarOf "kind"), m₁) :: (.scalar (scalarOf kind.tag), m₂) :: items) d rest := by
  refine Gives.bind (gives_room ..) ?_
  obtain ⟨inner, hkind⟩ := gives_argumentField_kind depth m₁ path (items.length + 2)
    ((.scalar (scalarOf kind.tag), m₂) :: items)
  exact Gives.bind hkind (Gives.bind (gives_argumentKind ..) (h _))

/-- An argument without a value is read back. -/
theorem readsBack_argumentValue_unresolved :
    ReadsBack argumentValue (depth + 1) ArgumentValue.unresolved.toData
      ArgumentValue.unresolved.toData := by
  intro path items rest hitems
  obtain ⟨m₁, inner, m₄, hinner, rfl⟩ := Items.exists_record hitems
  obtain ⟨m₂, tag, _, htag, hend, rfl⟩ := exists_of_itemsForFields_cons hinner
  obtain ⟨m₃, rfl⟩ := htag.exists_single (by rw [itemsFor])
  obtain rfl := List.map_eq_nil_iff.1 hend
  refine gives_withFields (gives_argumentFields .unresolved fun n => ?_) _
  exact Gives.bind (gives_argumentField_end ..) (gives_pure ..)

/-- An argument with a value is read back if the value is. -/
theorem readsBack_argumentValue {v : ArgumentValue} (kind : ArgumentKind) {w : Data}
    (hv : v.toData = .record [("kind", .text kind.tag), ("value", w)])
    (hw : ∀ path {items : List (Item × Mark)} rest, Items w items →
      Gives (argumentOf kind path) depth (items ++ rest) v.toData rest) :
    ReadsBack argumentValue (depth + 1) v.toData v.toData := by
  intro path items rest hitems
  rw [hv] at hitems
  obtain ⟨m₁, inner, m₅, hinner, rfl⟩ := hitems.exists_record
  obtain ⟨m₂, tag, _, htag, hinner', rfl⟩ := exists_of_itemsForFields_cons hinner
  obtain ⟨m₃, rfl⟩ := htag.exists_single (by rw [itemsFor])
  obtain ⟨m₄, value, _, hvalue, hend, rfl⟩ := exists_of_itemsForFields_cons hinner'
  obtain rfl := List.map_eq_nil_iff.1 hend
  simp only [List.cons_append, List.nil_append, List.append_nil, List.append_assoc]
  refine gives_withFields (gives_argumentFields kind fun n => ?_) _
  obtain ⟨path', hfield⟩ := gives_argumentField_value depth m₄ path n
    (value ++ (.recordEnd, m₅) :: rest)
  refine Gives.bind hfield (Gives.bind (hw path' _ hvalue) ?_)
  exact Gives.bind (gives_argumentField_end ..) (gives_pure ..)

/-- **An argument is read back** if its numbers can be. -/
theorem readsBack_argument {v : ArgumentValue} (hv : v.Fits Binary64.Canonical) :
    ReadsBack argumentValue (depth + 1) v.toData v.toData := by
  cases v with
  | string s =>
    refine readsBack_argumentValue .string rfl fun path items rest hitems => ?_
    obtain ⟨mark, rfl⟩ := hitems.exists_single (by rw [itemsFor])
    exact Gives.bind (gives_textAs ..) (gives_fitting rfl ..)
  | constant s =>
    refine readsBack_argumentValue .constant rfl fun path items rest hitems => ?_
    obtain ⟨mark, rfl⟩ := hitems.exists_single (by rw [itemsFor])
    exact Gives.bind (gives_textAs ..) (gives_fitting rfl ..)
  | integer i =>
    have hfits : fitsWord i = true := hv
    have hbounds : -2 ^ 63 ≤ i ∧ i < 2 ^ 63 := by
      simpa [fitsWord, Int.pow_eq] using hfits
    have hread := readScalarInteger?_toString (i := i) (by omega) (by omega)
    refine readsBack_argumentValue .integer rfl fun path items rest hitems => ?_
    obtain ⟨mark, rfl⟩ := hitems.exists_single (by rw [itemsFor])
    refine Gives.bind (gives_scalarAs (a := i) ?_ ..) (gives_fitting ?_ ..)
    · rw [hread, Option.filter_some, if_pos hfits]
    · simp [ArgumentKind.check, hfits]
  | float x =>
    refine readsBack_argumentValue .float rfl fun path items rest hitems => ?_
    obtain ⟨mark, rfl⟩ := hitems.exists_single (by rw [itemsFor])
    exact Gives.bind (gives_scalarAs (readScalarFloat?_write hv) ..) (gives_fitting rfl ..)
  | unresolved => exact readsBack_argumentValue_unresolved

end

/-! ### Any form -/

/-- The reader of a field. -/
def fieldReader (f : String × Schema × Bool) : FieldReader :=
  ⟨f.1, ofSchema f.2.1, f.2.1.isOptional⟩

theorem fieldReaders_eq_map (fields : List (String × Schema × Bool)) :
    fieldReaders fields = fields.map fieldReader := by
  induction fields with
  | nil => rfl
  | cons f fields ih => rw [fieldReaders, ih, List.map_cons, fieldReader]

mutual

/-- **Data of a form is read back** by the reader of the form. -/
theorem readsBack_ofSchema (schema : Schema) {depth : Nat} {w r : Data}
    (hdistinct : schema.IsDistinct) (hdepth : schema.depth ≤ depth)
    (h : schema.Takes Binary64.Canonical w r) : ReadsBack (ofSchema schema) depth w r := by
  cases schema with
  | text =>
    obtain ⟨⟨s, rfl⟩, rfl⟩ := h
    exact readsBack_textAs _ s
  | path =>
    obtain ⟨⟨s, rfl⟩, rfl⟩ := h
    exact readsBack_textAs _ s
  | flag =>
    obtain ⟨⟨b, rfl⟩, rfl⟩ := h
    exact readsBack_flag _ b
  | natural =>
    obtain ⟨⟨n, hn, rfl⟩, rfl⟩ := h
    exact readsBack_natural _ hn
  | optional content =>
    rcases h with ⟨rfl, rfl⟩ | ⟨hnull, h⟩
    · exact readsBack_optionalOf_null _
    · have hcontent := readsBack_ofSchema content hdistinct hdepth h
      exact hcontent.optionalOf (begins_of_ne_float (Schema.Takes.ne_float h)) hnull
  | list item =>
    obtain ⟨ws, rs, rfl, rfl, h⟩ := h
    rw [Schema.depth] at hdepth
    obtain ⟨depth, rfl⟩ := Nat.exists_eq_add_one_of_ne_zero (n := depth) (by omega)
    refine readsBack_listOf (h.imp fun w r h => ⟨?_, begins_of_ne_float h.ne_float⟩)
    exact readsBack_ofSchema item hdistinct (by omega) h
  | record name fields =>
    obtain ⟨ws, rs, rfl, rfl, -, h⟩ := h
    rw [Schema.depth] at hdepth
    obtain ⟨depth, rfl⟩ := Nat.exists_eq_add_one_of_ne_zero (n := depth) (by omega)
    have hfields := readsBack_fieldReaders fields hdistinct.2 (Nat.le_of_succ_le_succ hdepth)
    rw [ofSchema, fieldReaders_eq_map]
    refine readsBack_recordOf _ ?_ (h.chosen.map fieldReader hfields)
    rw [List.map_map]
    exact hdistinct.1
  | argument =>
    obtain ⟨⟨v, hv, rfl⟩, rfl⟩ := h
    rw [Schema.depth] at hdepth
    obtain ⟨depth, rfl⟩ := Nat.exists_eq_add_one_of_ne_zero (n := depth) (by omega)
    exact readsBack_argument hv
  | table => exact h.elim

/-- The fields of a record are read back. -/
theorem readsBack_fieldReaders (fields : List (String × Schema × Bool)) {depth : Nat}
    (hdistinct : Schema.AreDistinct fields) (hdepth : Schema.depthOfFields fields ≤ depth) :
    ∀ f ∈ fields, ∀ w r, f.2.1.Takes Binary64.Canonical w r →
      ReadsBack (ofSchema f.2.1) depth w r := by
  cases fields with
  | nil => simp
  | cons f fields =>
    obtain ⟨name, schema, skippable⟩ := f
    rw [Schema.depthOfFields, max_le_iff] at hdepth
    rw [List.forall_mem_cons]
    exact ⟨fun w r h => readsBack_ofSchema schema hdistinct.1 hdepth.1 h,
      readsBack_fieldReaders fields hdistinct.2 hdepth.2⟩

end

end Read

end DocBlocks.Yaml
