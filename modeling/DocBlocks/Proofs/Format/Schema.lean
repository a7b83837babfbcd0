import DocBlocks.Format.Fault
import Mathlib

/-!
# Data under a form

`Schema.Takes` says that data has a form, and what a reader of that form makes of it. That is the
data itself, but for optional fields that were left out, which are read as nothing. Each format that
is read back by form is shown to be so for this relation, and the data of a description has the form
of descriptions (`takes_toData`) and is read as that description (`ofData?_filled`).

Records are read by looking up their fields by name. `Chosen` is a record whose fields are some of
the fields of its form, in order; what was read of them can be looked up in any order
(`Chosen.exists_found`).
-/

namespace DocBlocks

/-! ### Fields by name -/

theorem lookup_eq_none_of_forall_ne {α : Type} {name : String} {fields : List (String × α)}
    (h : ∀ f ∈ fields, f.1 ≠ name) : fields.lookup name = none := by
  rw [List.lookup_eq_none_iff]
  intro f hf
  exact bne_iff_ne.2 (h f hf).symm

theorem mem_of_lookup_eq_some {κ α : Type} [BEq κ] [LawfulBEq κ] {name : κ} {value : α}
    {fields : List (κ × α)} (h : fields.lookup name = some value) : (name, value) ∈ fields := by
  obtain ⟨front, back, rfl, -⟩ := List.lookup_eq_some_iff.1 h
  simp

theorem lookup_eq_some_of_mem {α : Type} {name : String} {value : α}
    {fields : List (String × α)} (hnodup : (fields.map Prod.fst).Nodup)
    (h : (name, value) ∈ fields) : fields.lookup name = some value := by
  induction fields with
  | nil => simp at h
  | cons f fields ih =>
    rw [List.map_cons, List.nodup_cons] at hnodup
    rw [List.lookup_cons]
    rcases List.mem_cons.1 h with rfl | h
    · simp
    · have hne : (name == f.1) = false :=
        beq_eq_false_iff_ne.2 fun hf => hnodup.1 (hf ▸ List.mem_map_of_mem h)
      rw [hne]
      exact ih hnodup.2 h

/-- Fields with different names can be looked up in any order. -/
theorem lookup_eq_of_perm {α : Type} {fields fields' : List (String × α)}
    (hperm : fields.Perm fields') (hnodup : (fields.map Prod.fst).Nodup) (name : String) :
    fields.lookup name = fields'.lookup name := by
  cases h : fields'.lookup name with
  | none =>
    refine lookup_eq_none_of_forall_ne fun f hf hname => ?_
    subst hname
    have := lookup_eq_some_of_mem ((hperm.map _).nodup_iff.1 hnodup) (hperm.mem_iff.1 hf)
    rw [h] at this
    cases this
  | some value =>
    exact lookup_eq_some_of_mem hnodup (hperm.mem_iff.2 (mem_of_lookup_eq_some h))

/-- What has a name of its own is found by it. -/
theorem find?_name {φ : Type} {name : φ → String} {fs : List φ} (hnodup : (fs.map name).Nodup)
    {f : φ} (hf : f ∈ fs) : fs.find? (name · == name f) = some f := by
  cases h : fs.find? (name · == name f) with
  | none => simpa using List.find?_eq_none.1 h f hf
  | some g =>
    have hname : name g = name f := by simpa using List.find?_some h
    exact congrArg some (List.inj_on_of_nodup_map hnodup (List.mem_of_find?_eq_some h) hf hname)

theorem mapM_eq_pure_map {m : Type → Type} [Monad m] [LawfulMonad m] {α β : Type} {f : α → m β}
    {g : α → β} {as : List α} (h : ∀ a ∈ as, f a = pure (g a)) : as.mapM f = pure (as.map g) := by
  induction as with
  | nil => simp
  | cons a as ih =>
    rw [List.forall_mem_cons] at h
    simp [List.mapM_cons, h.1, ih h.2]

section Chosen

variable {φ : Type} (name : φ → String) (isOptional : φ → Bool) (Reads : φ → Data → Data → Prop)

/-- A record that holds some of the fields of a form, each read by its own reader. The others are
optional and are read as nothing. -/
inductive Chosen : List φ → List (String × Data) → List (String × Data) → Prop
  | nil : Chosen [] [] []
  | given {f : φ} {fs : List φ} {w r : Data} {ws rs : List (String × Data)} (head : Reads f w r)
      (tail : Chosen fs ws rs) : Chosen (f :: fs) ((name f, w) :: ws) ((name f, r) :: rs)
  | absent {f : φ} {fs : List φ} {ws rs : List (String × Data)} (optional : isOptional f = true)
      (tail : Chosen fs ws rs) : Chosen (f :: fs) ws ((name f, .null) :: rs)

variable {name isOptional Reads}

/-- A record is chosen from readers if it is chosen from what the readers are made of. -/
theorem Chosen.map {ψ : Type} {name' : ψ → String} {isOptional' : ψ → Bool}
    {Reads' : ψ → Data → Data → Prop} (g : φ → ψ) {fs : List φ} {ws rs : List (String × Data)}
    (h : Chosen (fun f => name' (g f)) (fun f => isOptional' (g f)) Reads fs ws rs)
    (hreads : ∀ f ∈ fs, ∀ w r, Reads f w r → Reads' (g f) w r) :
    Chosen name' isOptional' Reads' (fs.map g) ws rs := by
  induction h with
  | nil => exact .nil
  | @given f fs _ _ _ _ head tail ih =>
    rw [List.forall_mem_cons] at hreads
    exact Chosen.given (f := g f) (hreads.1 _ _ head) (ih hreads.2)
  | @absent f fs _ _ optional tail ih =>
    rw [List.forall_mem_cons] at hreads
    exact Chosen.absent (f := g f) optional (ih hreads.2)

/-- **What was read of a record can be looked up by name.** -/
theorem Chosen.exists_found {fs : List φ} {ws rs : List (String × Data)}
    (h : Chosen name isOptional Reads fs ws rs) (hnodup : (fs.map name).Nodup) :
    ∃ found : List (String × Data),
      List.Forall₂ (fun w g => w.1 = g.1 ∧ ∃ f ∈ fs, name f = w.1 ∧ Reads f w.2 g.2) ws found ∧
      (found.map Prod.fst).Sublist (fs.map name) ∧
      rs = fs.map (fun f => (name f, (found.lookup (name f)).getD .null)) ∧
      ∀ f ∈ fs, found.lookup (name f) = none → isOptional f = true := by
  induction h with
  | nil => exact ⟨[], .nil, by simp, rfl, by simp⟩
  | @given f fs w r ws rs head tail ih =>
    rw [List.map_cons, List.nodup_cons] at hnodup
    obtain ⟨found, hfound, hsub, rfl, hoptional⟩ := ih hnodup.2
    have hlookup : ∀ g ∈ fs, ((name f, r) :: found).lookup (name g) = found.lookup (name g) := by
      intro g hg
      have hne : (name g == name f) = false :=
        beq_eq_false_iff_ne.2 fun h => hnodup.1 (h ▸ List.mem_map_of_mem hg)
      rw [List.lookup_cons, hne]
    refine ⟨(name f, r) :: found, .cons ⟨rfl, f, by simp, rfl, head⟩ ?_, ?_, ?_, ?_⟩
    · exact hfound.imp fun _ _ ⟨h, f, hf, h'⟩ => ⟨h, f, by simp [hf], h'⟩
    · simpa using hsub.cons_cons (name f)
    · rw [List.map_cons, List.lookup_cons, beq_self_eq_true]
      exact congrArg _ (List.map_congr_left fun g hg => by rw [hlookup g hg])
    · rw [List.forall_mem_cons]
      exact ⟨by simp, fun g hg h => hoptional g hg (by rwa [hlookup g hg] at h)⟩
  | @absent f fs ws rs optional tail ih =>
    rw [List.map_cons, List.nodup_cons] at hnodup
    obtain ⟨found, hfound, hsub, rfl, hoptional⟩ := ih hnodup.2
    have hlookup : found.lookup (name f) = none := by
      refine lookup_eq_none_of_forall_ne fun g hg h => hnodup.1 ?_
      exact h ▸ hsub.subset (List.mem_map_of_mem hg)
    refine ⟨found, hfound.imp fun _ _ ⟨h, f, hf, h'⟩ => ⟨h, f, by simp [hf], h'⟩,
      by simpa using hsub.cons (name f), by simp [hlookup], ?_⟩
    rw [List.forall_mem_cons]
    exact ⟨fun _ => optional, hoptional⟩

end Chosen

/-! ### Forms -/

/-- Whether the numbers of an argument can be read: integers fit 64 bits, and the others are of
those that are kept. -/
def ArgumentValue.Fits (keeps : Binary64 → Prop) : ArgumentValue → Prop
  | integer i => fitsWord i = true
  | float x => keeps x
  | _ => True

namespace Schema

variable (keeps : Binary64 → Prop)

mutual

/-- Whether data that is written under a form is read as the other data. The floating-point numbers
are of those that are kept. -/
def Takes : Schema → Data → Data → Prop
  | text, w, r => (∃ s, w = .text s) ∧ r = w
  | path, w, r => (∃ s, w = .text s) ∧ r = w
  | flag, w, r => (∃ b, w = .flag b) ∧ r = w
  | natural, w, r => (∃ n : Nat, n < 2 ^ 64 ∧ w = .integer n) ∧ r = w
  | optional content, w, r => (w = .null ∧ r = .null) ∨ (w ≠ .null ∧ content.Takes w r)
  | list item, w, r =>
    ∃ ws rs, w = .list ws ∧ r = .list rs ∧ List.Forall₂ item.Takes ws rs
  | record _ fields, w, r =>
    ∃ ws rs, w = .record ws ∧ r = .record rs ∧ ws ≠ [] ∧ FieldsTake fields ws rs
  | argument, w, r => (∃ v : ArgumentValue, v.Fits keeps ∧ w = v.toData) ∧ r = w
  | table, _, _ => False

/-- Whether the fields of a record have the forms of their names. -/
def FieldsTake : List (String × Schema × Bool) → List (String × Data) → List (String × Data) → Prop
  | [], ws, rs => ws = [] ∧ rs = []
  | (name, schema, _) :: fs, ws, rs =>
    (∃ w r ws' rs', ws = (name, w) :: ws' ∧ rs = (name, r) :: rs' ∧ schema.Takes w r ∧
      FieldsTake fs ws' rs') ∨
    (schema.isOptional = true ∧ ∃ rs', rs = (name, .null) :: rs' ∧ FieldsTake fs ws rs')

end

mutual

/-- How deep data of a form nests. -/
def depth : Schema → Nat
  | optional content => content.depth
  | list item => item.depth + 1
  | record _ fields => depthOfFields fields + 1
  | argument => 1
  | _ => 0

/-- How deep the fields of a record nest. -/
def depthOfFields : List (String × Schema × Bool) → Nat
  | [] => 0
  | (_, schema, _) :: fs => max schema.depth (depthOfFields fs)

end

mutual

/-- Whether the fields of every record in a form have different names. -/
def IsDistinct : Schema → Prop
  | optional content => content.IsDistinct
  | list item => item.IsDistinct
  | record _ fields => (fields.map Prod.fst).Nodup ∧ AreDistinct fields
  | _ => True

/-- Whether the forms of fields are distinct. -/
def AreDistinct : List (String × Schema × Bool) → Prop
  | [] => True
  | (_, schema, _) :: fs => schema.IsDistinct ∧ AreDistinct fs

end

variable {keeps}

/-- The fields of a record are chosen from those of its form. -/
theorem FieldsTake.chosen {fields : List (String × Schema × Bool)} {ws rs : List (String × Data)}
    (h : FieldsTake keeps fields ws rs) :
    Chosen Prod.fst (fun f => f.2.1.isOptional) (fun f w r => f.2.1.Takes keeps w r) fields ws rs := by
  induction fields generalizing ws rs with
  | nil =>
    obtain ⟨rfl, rfl⟩ := h
    exact .nil
  | cons f fields ih =>
    obtain ⟨name, schema, skippable⟩ := f
    rcases h with ⟨w, r, ws', rs', rfl, rfl, head, tail⟩ | ⟨hoptional, rs', rfl, tail⟩
    · exact Chosen.given (f := (name, schema, skippable)) head (ih tail)
    · exact Chosen.absent (f := (name, schema, skippable)) hoptional (ih tail)

/-- No form is that of a floating-point number alone. -/
theorem Takes.ne_float :
    ∀ {schema : Schema} {w r : Data}, schema.Takes keeps w r → ∀ x, w ≠ .float x
  | .text, _, _, ⟨⟨_, rfl⟩, _⟩, _ => nofun
  | .path, _, _, ⟨⟨_, rfl⟩, _⟩, _ => nofun
  | .flag, _, _, ⟨⟨_, rfl⟩, _⟩, _ => nofun
  | .natural, _, _, ⟨⟨_, _, rfl⟩, _⟩, _ => nofun
  | .optional _, _, _, .inl ⟨rfl, _⟩, _ => nofun
  | .optional _, _, _, .inr ⟨_, h⟩, x => Takes.ne_float h x
  | .list _, _, _, ⟨_, _, rfl, _⟩, _ => nofun
  | .record _ _, _, _, ⟨_, _, rfl, _⟩, _ => nofun
  | .argument, _, _, ⟨⟨v, _, rfl⟩, _⟩, _ => by cases v <;> nofun

theorem isDistinct_classDescriptor : classDescriptor.IsDistinct := by
  simp [classDescriptor, methodDescriptor, parameter, lineRange, queryChain, callFrame, IsDistinct,
    AreDistinct]

theorem depth_classDescriptor : classDescriptor.depth = 9 := by
  simp [classDescriptor, methodDescriptor, parameter, lineRange, queryChain, callFrame, depth,
    depthOfFields]

end Schema

/-! ### Descriptions -/

namespace ClassDescriptor

/-- All arguments in a description. -/
def arguments (c : ClassDescriptor) : List ArgumentValue :=
  c.methods.flatMap fun m => m.queries.flatMap fun q => q.calls.flatMap CallFrame.args

/-- All numbers of lines in a description. -/
def lines (c : ClassDescriptor) : List Nat :=
  c.methods.flatMap fun m =>
    m.span.startLine :: m.span.endLine :: m.queries.map QueryChain.line

/-- Whether the numbers in a description can be read. -/
structure Fits (keeps : Binary64 → Prop) (c : ClassDescriptor) : Prop where
  arguments : ∀ a ∈ c.arguments, a.Fits keeps
  lines : ∀ n ∈ c.lines, n < 2 ^ 64

/-- What is read of a description: an absent path is read as nothing. -/
def filled (c : ClassDescriptor) : Data :=
  .record [("class_name", .text c.className), ("namespace", .ofText? c.space),
    ("parent", .ofText? c.parent), ("imports", .list (c.imports.map .text)),
    ("methods", .list (c.methods.map MethodDescriptor.toData)), ("path", .ofText? c.path)]

end ClassDescriptor

namespace Schema

variable {keeps : Binary64 → Prop}

theorem fieldsTake_nil : FieldsTake keeps [] [] [] := ⟨rfl, rfl⟩

theorem FieldsTake.cons {name : String} {schema : Schema} {skippable : Bool} {w r : Data}
    {fs : List (String × Schema × Bool)} {ws rs : List (String × Data)}
    (head : schema.Takes keeps w r) (tail : FieldsTake keeps fs ws rs) :
    FieldsTake keeps ((name, schema, skippable) :: fs) ((name, w) :: ws) ((name, r) :: rs) :=
  .inl ⟨w, r, ws, rs, rfl, rfl, head, tail⟩

theorem takes_text (s : String) : text.Takes keeps (.text s) (.text s) := ⟨⟨s, rfl⟩, rfl⟩

theorem takes_flag (b : Bool) : flag.Takes keeps (.flag b) (.flag b) := ⟨⟨b, rfl⟩, rfl⟩

theorem takes_natural {n : Nat} (h : n < 2 ^ 64) :
    natural.Takes keeps (.integer n) (.integer n) := ⟨⟨n, h, rfl⟩, rfl⟩

theorem takes_ofText? (o : Option String) :
    (optional text).Takes keeps (.ofText? o) (.ofText? o) := by
  cases o with
  | none => exact .inl ⟨rfl, rfl⟩
  | some s => exact .inr ⟨nofun, takes_text s⟩

theorem takes_list {α : Type} {item : Schema} {f : α → Data} {as : List α}
    (h : ∀ a ∈ as, item.Takes keeps (f a) (f a)) :
    (list item).Takes keeps (.list (as.map f)) (.list (as.map f)) := by
  refine ⟨_, _, rfl, rfl, List.forall₂_same.2 fun d hd => ?_⟩
  obtain ⟨a, ha, rfl⟩ := List.mem_map.1 hd
  exact h a ha

theorem takes_record {name : String} {fields : List (String × Schema × Bool)}
    {ws rs : List (String × Data)} (hne : ws ≠ []) (h : FieldsTake keeps fields ws rs) :
    (record name fields).Takes keeps (.record ws) (.record rs) := ⟨ws, rs, rfl, rfl, hne, h⟩

theorem takes_callFrame {c : CallFrame} (h : ∀ a ∈ c.args, a.Fits keeps) :
    callFrame.Takes keeps c.toData c.toData :=
  takes_record (by simp) (.cons (takes_text _)
    (.cons (takes_list fun a ha => ⟨⟨a, h a ha, rfl⟩, rfl⟩) fieldsTake_nil))

theorem takes_queryChain {q : QueryChain} (h : ∀ c ∈ q.calls, ∀ a ∈ c.args, a.Fits keeps)
    (hline : q.line < 2 ^ 64) : queryChain.Takes keeps q.toData q.toData :=
  takes_record (by simp) (.cons (takes_text _)
    (.cons (takes_list fun c hc => takes_callFrame (h c hc))
      (.cons (takes_natural hline) (.cons (takes_text _) fieldsTake_nil))))

theorem takes_parameter (p : Parameter) : parameter.Takes keeps p.toData p.toData :=
  takes_record (by simp) (.cons (takes_text _) (.cons (takes_ofText? _) (.cons (takes_ofText? _)
    (.cons (takes_flag _) (.cons (takes_flag _) fieldsTake_nil)))))

theorem takes_lineRange {r : LineRange} (hstart : r.startLine < 2 ^ 64)
    (hend : r.endLine < 2 ^ 64) : lineRange.Takes keeps r.toData r.toData :=
  takes_record (by simp) (.cons (takes_natural hstart) (.cons (takes_natural hend) fieldsTake_nil))

theorem takes_methodDescriptor {m : MethodDescriptor}
    (h : ∀ q ∈ m.queries, ∀ c ∈ q.calls, ∀ a ∈ c.args, a.Fits keeps)
    (hlines : ∀ q ∈ m.queries, q.line < 2 ^ 64) (hstart : m.span.startLine < 2 ^ 64)
    (hend : m.span.endLine < 2 ^ 64) : methodDescriptor.Takes keeps m.toData m.toData :=
  takes_record (by simp) (.cons (takes_text _) (.cons (takes_list fun p _ => takes_parameter p)
    (.cons (takes_ofText? _) (.cons (takes_flag _) (.cons (takes_lineRange hstart hend)
      (.cons (takes_ofText? _) (.cons (takes_list fun q hq => takes_queryChain (h q hq) (hlines q hq))
        (.cons (takes_text _) fieldsTake_nil))))))))

/-- **A description has the form of descriptions.** -/
theorem takes_toData {c : ClassDescriptor} (h : c.Fits keeps) :
    classDescriptor.Takes keeps c.toData c.filled := by
  have hmethods : ∀ m ∈ c.methods, methodDescriptor.Takes keeps m.toData m.toData := by
    intro m hm
    have hline : ∀ n ∈ m.span.startLine :: m.span.endLine :: m.queries.map QueryChain.line,
        n < 2 ^ 64 := fun n hn => h.lines n (List.mem_flatMap.2 ⟨m, hm, hn⟩)
    refine takes_methodDescriptor (fun q hq f hf a ha => h.arguments a ?_)
      (fun q hq => hline _ ?_) (hline _ (by simp)) (hline _ (by simp))
    · exact List.mem_flatMap.2 ⟨m, hm, List.mem_flatMap.2 ⟨q, hq, List.mem_flatMap.2 ⟨f, hf, ha⟩⟩⟩
    · exact List.mem_cons_of_mem _ (List.mem_cons_of_mem _ (List.mem_map_of_mem hq))
  have hpath : FieldsTake keeps [("path", optional path, true)]
      (c.path.elim [] fun p => [("path", .text p)]) [("path", .ofText? c.path)] := by
    cases c.path with
    | none => exact .inr ⟨rfl, [], rfl, fieldsTake_nil⟩
    | some p => exact .cons (.inr ⟨nofun, ⟨p, rfl⟩, rfl⟩) fieldsTake_nil
  exact takes_record (by simp) (.cons (takes_text _) (.cons (takes_ofText? _)
    (.cons (takes_ofText? _) (.cons (takes_list fun s _ => takes_text s)
      (.cons (takes_list hmethods) hpath)))))

end Schema

/-! ### Data as descriptions -/

theorem mapM_map_eq_some {α β : Type} {f : α → β} {g : β → Option α} (h : ∀ a, g (f a) = some a)
    (as : List α) : (as.map f).mapM g = some as := by
  induction as with
  | nil => rfl
  | cons a as ih => rw [List.map_cons, List.mapM_cons, h, ih]; rfl

theorem ArgumentValue.ofData?_toData (v : ArgumentValue) : ofData? v.toData = some v := by
  cases v <;> rfl

theorem CallFrame.ofData?_toData (c : CallFrame) : ofData? c.toData = some c := by
  simp [toData, ofData?, Data.asText?, Data.asList?, mapM_map_eq_some ArgumentValue.ofData?_toData]

theorem QueryChain.ofData?_toData (q : QueryChain) : ofData? q.toData = some q := by
  simp [toData, ofData?, Data.asText?, Data.asList?, mapM_map_eq_some CallFrame.ofData?_toData,
    show Data.asNat? (.integer q.line) = some q.line from rfl]

theorem Data.asOptionalText?_ofText? (o : Option String) : asOptionalText? (ofText? o) = some o := by
  cases o <;> rfl

theorem Parameter.ofData?_toData (p : Parameter) : ofData? p.toData = some p := by
  simp [toData, ofData?, Data.asText?, Data.asFlag?, Data.asOptionalText?_ofText?]

theorem LineRange.ofData?_toData (r : LineRange) : ofData? r.toData = some r := rfl

theorem MethodDescriptor.ofData?_toData (m : MethodDescriptor) : ofData? m.toData = some m := by
  simp [toData, ofData?, Data.asText?, Data.asFlag?, Data.asList?, Data.asOptionalText?_ofText?,
    LineRange.ofData?_toData, mapM_map_eq_some Parameter.ofData?_toData,
    mapM_map_eq_some QueryChain.ofData?_toData]

/-- **What is read of a description is that description.** -/
theorem ClassDescriptor.ofData?_filled (c : ClassDescriptor) : ofData? c.filled = some c := by
  have htext (s : String) : Data.asText? (.text s) = some s := rfl
  simp [filled, ofData?, Data.asList?, Data.asOptionalText?_ofText?, htext,
    mapM_map_eq_some htext, mapM_map_eq_some MethodDescriptor.ofData?_toData]

end DocBlocks
