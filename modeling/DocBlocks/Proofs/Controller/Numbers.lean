import DocBlocks.Proofs.Controller.Extract
import DocBlocks.Proofs.Format.Schema
import DocBlocks.Proofs.Number.Binary64

/-!
# Numbers in what is extracted

The numbers in a description are those that the written formats have room for: integers come out of
literals only if they fit a signed word, floating-point numbers come out of rounding, and lines are
counted in the source (`GrammarReader.fits_of_extractTextWith`).
-/

namespace DocBlocks

open Binary64 (Canonical)

/-! ### Arguments -/

theorem canonical_readNumber? {cs : List Char} {x : Binary64} (h : readNumber? cs = some x) :
    x.Canonical := by
  unfold readNumber? at h
  dsimp only at h
  split_ifs at h
  · cases h
    exact .infinite _
  · cases h
    exact .undefined
  · unfold readDecimal? at h
    dsimp only at h
    split_ifs at h
    obtain ⟨e, -, rfl⟩ := Option.map_eq_some_iff.1 h
    exact Binary64.canonical_ofDecimal ..

theorem fits_floatValue (cs : List Char) : (floatValue cs).Fits Canonical := by
  unfold floatValue
  split
  · exact canonical_readNumber? ‹_›
  · trivial

theorem fits_integerValue (s : String) : (integerValue s).Fits Canonical := by
  unfold integerValue
  dsimp only
  split
  · exact (Option.filter_eq_some_iff.1 ‹_›).2
  · exact fits_floatValue _

theorem fits_valueOf (n : Node) : (valueOf n).Fits Canonical := by
  unfold valueOf quotedValue
  split <;> try trivial
  · split_ifs
    · split <;> trivial
    · trivial
  · exact fits_integerValue _
  · exact fits_floatValue _

theorem fits_argumentValue (n : Node) : (argumentValue n).Fits Canonical := by
  unfold argumentValue
  split
  · exact fits_valueOf _
  · trivial

/-! ### Where arguments come from -/

/-- Whether what is told of a call has been read off arguments in a tree. -/
def CallFrame.ReadOff (n : Node) (c : CallFrame) : Prop :=
  ∀ a ∈ c.args, ∃ d ∈ n.descendants, d.kind = .argument ∧ argumentValue d = a

theorem CallFrame.ReadOff.mono {c : CallFrame} {m n : Node} (h : c.ReadOff m)
    (hm : m ∈ n.descendants) : c.ReadOff n := fun a ha =>
  let ⟨d, hd, hargument⟩ := h a ha
  ⟨d, Node.mem_descendants_trans hd hm, hargument⟩

theorem readOff_of_frameOf? {n : Node} {c : CallFrame} (h : frameOf? n = some c) : c.ReadOff n := by
  obtain ⟨name, -, rfl⟩ := Option.map_eq_some_iff.1 h
  intro a ha
  obtain ⟨d, hd, rfl⟩ := List.mem_map.1 ha
  obtain ⟨hd, hkind⟩ := List.mem_filter.1 hd
  cases hlist : n.childByField? "arguments" with
  | none => simp [hlist] at hd
  | some list =>
    rw [hlist, Option.elim_some] at hd
    have hlist : list ∈ n.children := List.mem_of_find?_eq_some hlist
    exact ⟨d, Node.mem_descendants_trans (Node.mem_descendants_of_mem_children hd)
      (Node.mem_descendants_of_mem_children hlist), by simpa using hkind, rfl⟩

theorem readOff_of_rootedCalls? {n : Node} {model : String} {calls : List CallFrame}
    (h : rootedCalls? n = some (model, calls)) : ∀ c ∈ calls, c.ReadOff n := by
  fun_induction rootedCalls? n generalizing model calls with
  | case1 => cases h
  | case2 n hkind object hobject ih =>
    simp only [Option.bind_eq_bind, Option.bind_eq_some_iff, Option.pure_def, Option.some.injEq,
      Prod.mk.injEq, Prod.exists] at h
    obtain ⟨frame, hframe, model', calls', hcalls, rfl, rfl⟩ := h
    have hmem : object ∈ n.descendants :=
      Node.mem_descendants_of_mem_children (List.mem_of_find?_eq_some hobject)
    rw [List.forall_mem_append, List.forall_mem_singleton]
    exact ⟨fun c hc => (ih hcalls c hc).mono hmem, readOff_of_frameOf? hframe⟩
  | case3 n hkind =>
    simp only [Option.bind_eq_bind, Option.bind_eq_some_iff] at h
    obtain ⟨scope, -, h⟩ := h
    split_ifs at h
    obtain ⟨frame, hframe, h⟩ := Option.bind_eq_some_iff.1 h
    cases h
    rw [List.forall_mem_singleton]
    exact readOff_of_frameOf? hframe
  | case4 => cases h

theorem readOff_of_mem_queriesOf {n : Node} {q : QueryChain} (h : q ∈ queriesOf n) :
    ∀ c ∈ q.calls, c.ReadOff n := by
  obtain ⟨d, hd, hchain⟩ := exists_chainAt?_of_mem_queriesOf h
  rw [chainAt?_eq, chainOf?_eq] at hchain
  obtain ⟨⟨model, calls⟩, hcalls, rfl⟩ := Option.map_eq_some_iff.1 hchain
  exact fun c hc => (readOff_of_rootedCalls? hcalls c hc).mono hd

theorem exists_of_mem_describeMethods {source : String} {nearest ns : List Node}
    {m : MethodDescriptor} (h : m ∈ describeMethods source nearest ns) :
    ∃ n ∈ ns, ∃ doc, m = describeMethod source n doc := by
  induction ns generalizing nearest with
  | nil => cases h
  | cons n ns ih =>
    rw [describeMethods] at h
    simp only [List.mem_cons, exists_eq_or_imp]
    split_ifs at h
    · exact (List.mem_cons.1 h).imp (fun heq => ⟨_, heq⟩) ih
    · exact .inr (ih h)

/-- **Arguments are read off a tree**: those in a description are the values of arguments there. -/
theorem exists_argument_of_describeClass {root : Node} {source : String} {c : ClassDescriptor}
    (h : describeClass root source = .ok c) :
    ∀ a ∈ c.arguments, ∃ d ∈ root.descendants, d.kind = .argument ∧ argumentValue d = a := by
  obtain ⟨decl, name, hdecl, -, rfl⟩ := describeClass_eq_ok.1 h
  intro a ha
  obtain ⟨m, hm, hmethod⟩ := List.mem_flatMap.1 ha
  obtain ⟨q, hq, hchain⟩ := List.mem_flatMap.1 hmethod
  obtain ⟨f, hf, hcall⟩ := List.mem_flatMap.1 hchain
  dsimp only at hm
  cases hbody : decl.childByField? "body" with
  | none => simp [hbody] at hm
  | some body =>
    rw [hbody, Option.elim_some] at hm
    obtain ⟨n, hn, doc, rfl⟩ := exists_of_mem_describeMethods hm
    have hbody : body ∈ decl.descendants :=
      Node.mem_descendants_of_mem_children (List.mem_of_find?_eq_some hbody)
    have hmem : n ∈ root.descendants :=
      Node.mem_descendants_trans (Node.mem_descendants_of_mem_children hn)
        (Node.mem_descendants_trans hbody (List.mem_of_find?_eq_some hdecl))
    exact (readOff_of_mem_queriesOf hq f hf).mono hmem a hcall

theorem fits_of_describeClass {root : Node} {source : String} {c : ClassDescriptor}
    (h : describeClass root source = .ok c) : ∀ a ∈ c.arguments, a.Fits Canonical := by
  intro a ha
  obtain ⟨d, -, -, rfl⟩ := exists_argument_of_describeClass h a ha
  exact fits_argumentValue d

/-! ### Lines -/

/-- Lines are counted in the source, and those of chains in the text of their method too. -/
theorem MethodDescriptor.Verbatim.line_le {source : String} {n : Node} {m : MethodDescriptor}
    (h : m.Verbatim source n) :
    ∀ line ∈ m.span.startLine :: m.span.endLine :: m.queries.map QueryChain.line,
      line ≤ 1 + 2 * source.length := by
  obtain ⟨before, after, hsource, -, -, hspan⟩ := h.lines
  have hlength := congrArg List.length hsource
  have hstart : before.count '\n' ≤ before.length := List.count_le_length
  have hend : (before ++ n.text.toList.dropLast).count '\n' ≤
      (before ++ n.text.toList.dropLast).length := List.count_le_length
  simp only [List.length_append, String.length_toList, List.length_dropLast] at hlength hend
  simp only [List.forall_mem_cons, List.forall_mem_map, hspan]
  refine ⟨by omega, by omega, fun q hq => ?_⟩
  obtain ⟨front, back, htext, hline⟩ := h.queries q hq
  obtain ⟨before', after', hpiece, -, -⟩ := h.piece
  have hfront : front.count '\n' ≤ front.length := List.count_le_length
  have hlength' := congrArg List.length hpiece
  have htext' := congrArg List.length htext
  simp only [List.length_append, String.length_toList] at hlength' htext'
  rw [hline, hspan]
  dsimp only
  omega

/-- **The numbers in what is extracted can be written and read.** No text has more characters than a
signed word can count. -/
theorem GrammarReader.fits_of_extractTextWith {g : GrammarReader} {source : String}
    {c : ClassDescriptor} (hlength : source.length < 2 ^ 63)
    (h : extractTextWith g.read source = .ok c) : c.Fits Canonical := by
  obtain ⟨root, hroot, hclass⟩ := extractTextWith_eq_ok.1 h
  refine ⟨fits_of_describeClass hclass, fun line hline => ?_⟩
  obtain ⟨m, hm, hline⟩ := List.mem_flatMap.1 hline
  obtain ⟨n, -, hverbatim⟩ :=
    exists_of_forall₂ (verbatim_of_describeClass hroot hclass).1.flip hm
  have := hverbatim.line_le line hline
  omega

end DocBlocks
