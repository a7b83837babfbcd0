import DocBlocks.Controller.Descriptor

/-
  Plain data, the common ground of the written formats.

  A description becomes data with named fields in a fixed order, and is read back from it.
-/

namespace DocBlocks

/-- Plain data. -/
inductive Data where
  | null
  | flag (value : Bool)
  | integer (value : Int)
  | float (value : Binary64)
  | text (value : String)
  | list (items : List Data)
  | record (fields : List (String × Data))
  deriving Repr, Inhabited

namespace Data

/-- A text that may be absent. -/
def ofText? : Option String → Data
  | some s => text s
  | none => null

end Data

/-! ### Descriptions as data -/

/-- An argument is tagged with its kind. -/
def ArgumentValue.toData : ArgumentValue → Data
  | .string s => .record [("kind", .text "string"), ("value", .text s)]
  | .integer i => .record [("kind", .text "integer"), ("value", .integer i)]
  | .float x => .record [("kind", .text "float"), ("value", .float x)]
  | .constant s => .record [("kind", .text "constant"), ("value", .text s)]
  | .unresolved => .record [("kind", .text "opaque")]

/-- A call as data. -/
def CallFrame.toData (c : CallFrame) : Data :=
  .record [("method", .text c.method), ("args", .list (c.args.map ArgumentValue.toData))]

/-- A chain as data. -/
def QueryChain.toData (q : QueryChain) : Data :=
  .record [("model", .text q.model), ("calls", .list (q.calls.map CallFrame.toData)),
    ("line", .integer q.line), ("text", .text q.text)]

/-- A parameter as data. -/
def Parameter.toData (p : Parameter) : Data :=
  .record [("name", .text p.name), ("type", .ofText? p.type),
    ("default_value", .ofText? p.defaultValue), ("variadic", .flag p.variadic),
    ("by_reference", .flag p.byReference)]

/-- A range of lines as data. -/
def LineRange.toData (r : LineRange) : Data :=
  .record [("start_line", .integer r.startLine), ("end_line", .integer r.endLine)]

/-- A method as data. -/
def MethodDescriptor.toData (m : MethodDescriptor) : Data :=
  .record [("name", .text m.name), ("parameters", .list (m.parameters.map Parameter.toData)),
    ("return_type", .ofText? m.returnType), ("is_static", .flag m.isStatic),
    ("span", m.span.toData), ("doc_comment", .ofText? m.docComment),
    ("queries", .list (m.queries.map QueryChain.toData)), ("source", .text m.source)]

/-- A class as data. A path that is absent leaves no field. -/
def ClassDescriptor.toData (c : ClassDescriptor) : Data :=
  .record ([("class_name", .text c.className), ("namespace", .ofText? c.space),
    ("parent", .ofText? c.parent), ("imports", .list (c.imports.map .text)),
    ("methods", .list (c.methods.map MethodDescriptor.toData))] ++
    (c.path.elim [] fun p => [("path", .text p)]))

/-! ### Data as descriptions -/

namespace Data

/-- A text. -/
def asText? : Data → Option String
  | text s => some s
  | _ => none

/-- A text that may be absent. -/
def asOptionalText? : Data → Option (Option String)
  | null => some none
  | text s => some (some s)
  | _ => none

/-- A truth value. -/
def asFlag? : Data → Option Bool
  | flag b => some b
  | _ => none

/-- A natural number. -/
def asNat? : Data → Option Nat
  | integer (.ofNat n) => some n
  | _ => none

/-- The items of a list, each read in the same way. -/
def asList? {α : Type} (read : Data → Option α) : Data → Option (List α)
  | list items => items.mapM read
  | _ => none

end Data

/-- Reads an argument. -/
def ArgumentValue.ofData? : Data → Option ArgumentValue
  | .record [("kind", .text "string"), ("value", .text s)] => some (.string s)
  | .record [("kind", .text "integer"), ("value", .integer i)] => some (.integer i)
  | .record [("kind", .text "float"), ("value", .float x)] => some (.float x)
  | .record [("kind", .text "constant"), ("value", .text s)] => some (.constant s)
  | .record [("kind", .text "opaque")] => some .unresolved
  | _ => none

/-- Reads a call. -/
def CallFrame.ofData? : Data → Option CallFrame
  | .record [("method", m), ("args", a)] => do
    pure ⟨← m.asText?, ← a.asList? ArgumentValue.ofData?⟩
  | _ => none

/-- Reads a chain. -/
def QueryChain.ofData? : Data → Option QueryChain
  | .record [("model", m), ("calls", c), ("line", l), ("text", t)] => do
    pure ⟨← m.asText?, ← c.asList? CallFrame.ofData?, ← l.asNat?, ← t.asText?⟩
  | _ => none

/-- Reads a parameter. -/
def Parameter.ofData? : Data → Option Parameter
  | .record [("name", n), ("type", t), ("default_value", d), ("variadic", v),
      ("by_reference", r)] => do
    pure ⟨← n.asText?, ← t.asOptionalText?, ← d.asOptionalText?, ← v.asFlag?, ← r.asFlag?⟩
  | _ => none

/-- Reads a range of lines. -/
def LineRange.ofData? : Data → Option LineRange
  | .record [("start_line", s), ("end_line", e)] => do pure ⟨← s.asNat?, ← e.asNat?⟩
  | _ => none

/-- Reads a method. -/
def MethodDescriptor.ofData? : Data → Option MethodDescriptor
  | .record [("name", n), ("parameters", p), ("return_type", r), ("is_static", s), ("span", l),
      ("doc_comment", d), ("queries", q), ("source", t)] => do
    pure ⟨← n.asText?, ← p.asList? Parameter.ofData?, ← r.asOptionalText?, ← s.asFlag?,
      ← LineRange.ofData? l, ← d.asOptionalText?, ← q.asList? QueryChain.ofData?, ← t.asText?⟩
  | _ => none

/-- Reads a class whose path is absent or given. -/
def ClassDescriptor.ofData? : Data → Option ClassDescriptor
  | .record (("class_name", n) :: ("namespace", s) :: ("parent", p) :: ("imports", i) ::
      ("methods", m) :: rest) => do
    let path ← match rest with
      | [] => pure none
      | [("path", path)] => path.asOptionalText?
      | _ => none
    pure ⟨← n.asText?, ← s.asOptionalText?, ← p.asOptionalText?, ← i.asList? Data.asText?,
      ← m.asList? MethodDescriptor.ofData?, path⟩
  | _ => none

end DocBlocks
