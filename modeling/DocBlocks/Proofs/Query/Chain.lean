import DocBlocks.Query.Chain
import Mathlib.Data.List.Forall2

/-!
# What a chain means

`chainOf?_meaning`: the walk from the last call of a chain down to the static one finds what a chain
means by its structure (`rootedCalls?`), where the chain of a call is that of its receiver with one
call more. The calls it passes are the receivers of the last call (`receivers`), so a chain has a
frame for each of them, the static call first, and a frame has a value for each argument.

The walk gathers frames on its way down and turns them round at the end; `walkChain?_eq` says what
this does to frames that were there before.
-/

namespace DocBlocks

/-! ### Structure -/

/-- The model and the calls of a chain: those of the receiver with one call more, or those of a
static call on a name. -/
def rootedCalls? (n : Node) : Option (String × List CallFrame) :=
  match n.kind with
  | .expr .memberCall =>
    match _h : n.childByField? "object" with
    | none => none
    | some object => do
      let frame ← frameOf? n
      let (model, calls) ← rootedCalls? object
      pure (model, calls ++ [frame])
  | .expr .staticCall => do
    let scope ← n.childByField? "scope"
    if scope.kind = .name then
      let frame ← frameOf? n
      pure (scope.text, [frame])
    else none
  | _ => none
  termination_by n
  decreasing_by exact sizeOf_lt_of_childByField? _h

/-- A node and the receivers below it, the node first. Only a member call has a receiver. -/
def receivers (n : Node) : List Node :=
  n :: match n.kind with
    | .expr .memberCall =>
      match _h : n.childByField? "object" with
      | none => []
      | some object => receivers object
    | _ => []
  termination_by n
  decreasing_by exact sizeOf_lt_of_childByField? _h

/-- The arguments of a call. -/
def argumentsOf (call : Node) : List Node :=
  ((call.childByField? "arguments").elim [] Node.children).filter (·.kind == .argument)

/-- Whether a frame tells a call: it has its name, and a value for each of its arguments in order.
-/
structure CallFrame.Tells (frame : CallFrame) (call : Node) : Prop where
  method : ∃ name, call.childByField? "name" = some name ∧ frame.method = name.text
  args : List.Forall₂ (fun a v => argumentValue a = v) (argumentsOf call) frame.args

theorem CallFrame.tells_of_frameOf? {n : Node} {frame : CallFrame} (h : frameOf? n = some frame) :
    frame.Tells n := by
  obtain ⟨name, hname, rfl⟩ := Option.map_eq_some_iff.1 h
  refine ⟨⟨name, hname, rfl⟩, ?_⟩
  show List.Forall₂ _ (argumentsOf n) ((argumentsOf n).map argumentValue)
  rw [List.forall₂_map_right_iff, List.forall₂_same]
  exact fun _ _ => rfl

/-! ### One step down -/

section Step

variable {n : Node}

theorem rootedCalls?_memberCall (h : n.kind = .expr .memberCall) :
    rootedCalls? n = (n.childByField? "object").bind fun object =>
      (frameOf? n).bind fun frame =>
        (rootedCalls? object).map fun (model, calls) => (model, calls ++ [frame]) := by
  rw [rootedCalls?, h]
  dsimp only
  split
  · rename_i hobject
    rw [hobject, Option.bind_none]
  · rename_i object hobject
    rw [hobject, Option.bind_some]
    cases frameOf? n with
    | none => rfl
    | some frame => cases rootedCalls? object <;> rfl

theorem rootedCalls?_staticCall (h : n.kind = .expr .staticCall) :
    rootedCalls? n = ((n.childByField? "scope").filter (·.kind = .name)).bind fun scope =>
      (frameOf? n).map fun frame => (scope.text, [frame]) := by
  rw [rootedCalls?, h]
  cases n.childByField? "scope" with
  | none => rfl
  | some scope =>
    by_cases hs : scope.kind = .name
    · cases frameOf? n <;> simp [Option.filter_some, hs]
    · simp [Option.filter_some, hs]

theorem rootedCalls?_of_ne (hmember : n.kind ≠ .expr .memberCall)
    (hstatic : n.kind ≠ .expr .staticCall) : rootedCalls? n = none := by
  rw [rootedCalls?]
  split
  · exact absurd ‹_› hmember
  · exact absurd ‹_› hstatic
  · rfl

theorem walkChain?_memberCall (last : Node) (frames : Array CallFrame)
    (h : n.kind = .expr .memberCall) :
    walkChain? last frames n = (frameOf? n).bind fun frame =>
      (n.childByField? "object").bind fun object => walkChain? last (frames.push frame) object := by
  rw [walkChain?, h]
  dsimp only
  cases frameOf? n with
  | none => rfl
  | some frame =>
    rw [Option.bind_some]
    show (match _h : n.childByField? "object" with
      | none => none
      | some object => walkChain? last (frames.push frame) object) = _
    split
    · rename_i hobject
      rw [hobject, Option.bind_none]
    · rename_i object hobject
      rw [hobject, Option.bind_some]

theorem walkChain?_staticCall (last : Node) (frames : Array CallFrame)
    (h : n.kind = .expr .staticCall) :
    walkChain? last frames n = ((n.childByField? "scope").filter (·.kind = .name)).bind fun scope =>
      (frameOf? n).map fun frame =>
        ⟨scope.text, (frames.push frame).reverse.toList, last.span.startLine, last.text⟩ := by
  rw [walkChain?, h]
  cases n.childByField? "scope" with
  | none => rfl
  | some scope =>
    by_cases hs : scope.kind = .name
    · cases frameOf? n <;> simp [Option.filter_some, hs]
    · simp [Option.filter_some, hs]

theorem walkChain?_of_ne (last : Node) (frames : Array CallFrame)
    (hmember : n.kind ≠ .expr .memberCall) (hstatic : n.kind ≠ .expr .staticCall) :
    walkChain? last frames n = none := by
  rw [walkChain?]
  split
  · exact absurd ‹_› hmember
  · exact absurd ‹_› hstatic
  · rfl

theorem receivers_memberCall (h : n.kind = .expr .memberCall) {object : Node}
    (hobject : n.childByField? "object" = some object) : receivers n = n :: receivers object := by
  rw [receivers, h]
  dsimp only
  split
  · simp_all
  · rename_i object' hobject'
    obtain rfl : object = object' := Option.some.inj (hobject.symm.trans hobject')
    rfl

theorem receivers_of_ne (h : n.kind ≠ .expr .memberCall) : receivers n = [n] := by
  rw [receivers]
  split
  · exact absurd ‹_› h
  · rfl

end Step

/-! ### The walk -/

/-- Induction from the receiver of a call to the call. -/
@[elab_as_elim]
theorem Node.receiverInduction {P : Node → Prop}
    (call : ∀ n, (∀ object, n.childByField? "object" = some object → P object) → P n) (n : Node) :
    P n :=
  call n fun object _h => receiverInduction call object
  termination_by n
  decreasing_by exact sizeOf_lt_of_childByField? _h

/-- **The walk finds the structure of a chain.** The frames passed before come behind those it
finds, turned round. -/
theorem walkChain?_eq (last : Node) (frames : Array CallFrame) (n : Node) :
    walkChain? last frames n = (rootedCalls? n).map fun (model, calls) =>
      ⟨model, calls ++ frames.toList.reverse, last.span.startLine, last.text⟩ := by
  induction n using Node.receiverInduction generalizing frames with
  | call n ih =>
    by_cases hmember : n.kind = .expr .memberCall
    · rw [walkChain?_memberCall last frames hmember, rootedCalls?_memberCall hmember]
      cases hobject : n.childByField? "object" with
      | none => cases frameOf? n <;> rfl
      | some object =>
        cases frameOf? n with
        | none => rfl
        | some frame =>
          rw [Option.bind_some, Option.bind_some, Option.bind_some, ih object hobject]
          cases rootedCalls? object <;> simp
    by_cases hstatic : n.kind = .expr .staticCall
    · rw [walkChain?_staticCall last frames hstatic, rootedCalls?_staticCall hstatic]
      cases (n.childByField? "scope").filter (·.kind = .name) with
      | none => rfl
      | some scope => cases frameOf? n <;> simp
    · rw [walkChain?_of_ne last frames hmember hstatic, rootedCalls?_of_ne hmember hstatic,
        Option.map_none]

theorem chainOf?_eq (n : Node) :
    chainOf? n = (rootedCalls? n).map fun (model, calls) =>
      ⟨model, calls, n.span.startLine, n.text⟩ := by
  rw [chainOf?, walkChain?_eq]
  simp

/-- No node but a call ends a chain. -/
theorem chainAt?_eq (n : Node) : chainAt? n = chainOf? n := by
  unfold chainAt?
  split
  · rfl
  · rfl
  · rename_i hstatic hmember
    rw [chainOf?_eq, rootedCalls?_of_ne hmember hstatic, Option.map_none]

/-! ### The calls of a chain -/

/-- What the calls of a chain are, given its last call: the static call that the receivers end with,
and the member calls passed on the way there, the last one first. -/
structure Rooted (n root : Node) (members : List Node) (model : String) (calls : List CallFrame) :
    Prop where
  receivers_eq : receivers n = members ++ [root]
  kind_root : root.kind = .expr .staticCall
  kind_members : ∀ m ∈ members, m.kind = .expr .memberCall
  scope : ∃ scope, root.childByField? "scope" = some scope ∧ scope.kind = .name ∧
    model = scope.text
  tells : List.Forall₂ CallFrame.Tells calls (root :: members.reverse)

theorem Rooted.length_calls {n root : Node} {members : List Node} {model : String}
    {calls : List CallFrame} (h : Rooted n root members model calls) :
    calls.length = 1 + members.length := by
  rw [h.tells.length_eq, List.length_cons, List.length_reverse, Nat.add_comm]

/-- A call of a receiver comes behind the calls of the receiver. -/
theorem Rooted.memberCall {n object root : Node} {members : List Node} {model : String}
    {calls : List CallFrame} {frame : CallFrame} (h : Rooted object root members model calls)
    (hk : n.kind = .expr .memberCall) (hobject : n.childByField? "object" = some object)
    (hframe : frameOf? n = some frame) : Rooted n root (n :: members) model (calls ++ [frame]) where
  receivers_eq := by rw [receivers_memberCall hk hobject, h.receivers_eq, List.cons_append]
  kind_root := h.kind_root
  kind_members := by
    rw [List.forall_mem_cons]
    exact ⟨hk, h.kind_members⟩
  scope := h.scope
  tells := by
    rw [List.reverse_cons, ← List.cons_append]
    exact List.rel_append h.tells (.cons (CallFrame.tells_of_frameOf? hframe) .nil)

theorem exists_rooted {n : Node} {model : String} {calls : List CallFrame}
    (h : rootedCalls? n = some (model, calls)) : ∃ root members, Rooted n root members model calls := by
  induction n using Node.receiverInduction generalizing calls with
  | call n ih =>
    by_cases hmember : n.kind = .expr .memberCall
    · rw [rootedCalls?_memberCall hmember, Option.bind_eq_some_iff] at h
      obtain ⟨object, hobject, h⟩ := h
      obtain ⟨frame, hframe, h⟩ := Option.bind_eq_some_iff.1 h
      obtain ⟨⟨model', calls'⟩, hcalls, h⟩ := Option.map_eq_some_iff.1 h
      obtain ⟨rfl, rfl⟩ := Prod.mk.inj h
      obtain ⟨root, members, hrooted⟩ := ih object hobject hcalls
      exact ⟨root, n :: members, hrooted.memberCall hmember hobject hframe⟩
    by_cases hstatic : n.kind = .expr .staticCall
    · rw [rootedCalls?_staticCall hstatic, Option.bind_eq_some_iff] at h
      obtain ⟨scope, hscope, h⟩ := h
      obtain ⟨hscope, hname⟩ := Option.filter_eq_some_iff.1 hscope
      obtain ⟨frame, hframe, h⟩ := Option.map_eq_some_iff.1 h
      obtain ⟨rfl, rfl⟩ := Prod.mk.inj h
      refine ⟨n, [], ?_⟩
      exact
        { receivers_eq := receivers_of_ne hmember
          kind_root := hstatic
          kind_members := by simp
          scope := ⟨scope, hscope, by simpa using hname, rfl⟩
          tells := .cons (CallFrame.tells_of_frameOf? hframe) .nil }
    · rw [rootedCalls?_of_ne hmember hstatic] at h
      cases h

/-- The chain of a member call is that of its receiver with one call more. -/
theorem exists_chainOf?_receiver {n : Node} {q : QueryChain} (h : chainOf? n = some q)
    (hk : n.kind = .expr .memberCall) :
    ∃ object q', n.childByField? "object" = some object ∧ chainOf? object = some q' ∧
      q'.model = q.model ∧ q'.calls = q.calls.dropLast := by
  rw [chainOf?_eq, Option.map_eq_some_iff] at h
  obtain ⟨⟨model, calls⟩, hcalls, rfl⟩ := h
  rw [rootedCalls?_memberCall hk, Option.bind_eq_some_iff] at hcalls
  obtain ⟨object, hobject, hcalls⟩ := hcalls
  obtain ⟨frame, -, hcalls⟩ := Option.bind_eq_some_iff.1 hcalls
  obtain ⟨⟨model', calls'⟩, hcalls', heq⟩ := Option.map_eq_some_iff.1 hcalls
  obtain ⟨rfl, rfl⟩ := Prod.mk.inj heq
  refine ⟨object, ⟨model', calls', object.span.startLine, object.text⟩, hobject, ?_, rfl, ?_⟩
  · rw [chainOf?_eq, hcalls', Option.map_some]
  · exact List.dropLast_concat.symm

/-- **The walk down a chain finds what the chain means**: its calls are told root first, one call
for the static call and one for each member call passed, without the last one they are the chain of
the receiver, and each has a value for every argument. -/
theorem chainOf?_meaning (n : Node) :
    chainOf? n = ((rootedCalls? n).map fun (model, calls) =>
      ⟨model, calls, n.span.startLine, n.text⟩) ∧
    ∀ q, chainOf? n = some q →
      (∃ root members, Rooted n root members q.model q.calls ∧
        q.calls.length = 1 + members.length) ∧
      (n.kind = .expr .memberCall → ∃ object q', n.childByField? "object" = some object ∧
        chainOf? object = some q' ∧ q'.model = q.model ∧ q'.calls = q.calls.dropLast) := by
  refine ⟨chainOf?_eq n, ?_⟩
  intro q hq
  refine ⟨?_, exists_chainOf?_receiver hq⟩
  rw [chainOf?_eq, Option.map_eq_some_iff] at hq
  obtain ⟨⟨model, calls⟩, hcalls, rfl⟩ := hq
  obtain ⟨root, members, hrooted⟩ := exists_rooted hcalls
  exact ⟨root, members, hrooted, hrooted.length_calls⟩

end DocBlocks
