import DocBlocks.Proofs.Query.Chain
import DocBlocks.Proofs.Syntax.Ancestry
import DocBlocks.Proofs.Syntax.Orderly

/-!
# Which chains are found

`queriesOf_outermost`: the search finds the chains of the calls that stand neither in a closure nor
below another call that ends a chain (`outermostCalls`), one for each of them and in their order. In
the tree of a source these calls stand one behind the other.

The search goes down a tree and stops at closures and at chains, so what it finds in a node depends
on what stands above only as far as something there shields the node (`chainsIn_eq`).
-/

namespace DocBlocks

open Node (Occurrence occurrences)

/-! ### Shielded nodes -/

/-- Whether a node keeps what stands below it from being searched: it is a closure, or it ends a
chain itself. -/
def shields (n : Node) : Bool := n.kind == .expr .closure || (chainOf? n).isSome

/-- Whether a node ends a chain and nothing above it shields it. -/
def isOutermostCall (x : Occurrence) : Bool := (chainOf? x.node).isSome && !x.above.any shields

/-- What is searched for chains: the body of a method, or else the node itself. -/
def searched? (n : Node) : Option Node :=
  if n.kind = .method then n.childByField? "body" else some n

/-- The nodes that are searched for chains, each with the nodes above it. -/
def searchedIn (n : Node) : List Occurrence := (searched? n).elim [] (·.occurrences [])

/-- The calls in a node that end a chain and are not shielded, in source order. -/
def outermostCalls (n : Node) : List Occurrence := (searchedIn n).filter isOutermostCall

/-- Only a call ends a chain. -/
theorem isCall_of_chainOf? {n : Node} {q : QueryChain} (h : chainOf? n = some q) : n.IsCall := by
  rw [← chainAt?_eq] at h
  unfold chainAt? at h
  split at h
  · exact .inl ‹_›
  · exact .inr ‹_›
  · simp at h

/-! ### The search -/

/-- Nothing below a node that shields it is outermost. -/
theorem filter_isOutermostCall_of_shields {above : List Node} {n : Node} (h : shields n = true)
    (hn : n ∈ above) (ns : List Node) :
    (Node.occurrencesAll above ns).filter isOutermostCall = [] := by
  rw [List.filter_eq_nil_iff]
  intro x hx
  obtain ⟨c, -, hx⟩ := Node.mem_occurrencesAll.1 hx
  have hmem : n ∈ x.above := (Node.above_isSuffix_of_mem_occurrences hx).subset hn
  have hany : x.above.any shields = true := List.any_eq_true.2 ⟨n, hmem, h⟩
  simp [isOutermostCall, hany]

theorem forall₂_chainsInAll {above ns : List Node}
    (h : ∀ n ∈ ns, List.Forall₂ (fun x q => chainOf? x.node = some q)
      ((n.occurrences above).filter isOutermostCall) (chainsIn n)) :
    List.Forall₂ (fun x q => chainOf? x.node = some q)
      ((Node.occurrencesAll above ns).filter isOutermostCall) (chainsInAll ns) := by
  induction ns with
  | nil => exact .nil
  | cons n ns ih =>
    rw [Node.occurrencesAll, List.filter_append, chainsInAll]
    exact List.rel_append (h n List.mem_cons_self) (ih fun m hm => h m (List.mem_cons_of_mem _ hm))

/-- **The search finds the chains of the outermost calls**, if nothing above shields them all. -/
theorem forall₂_chainsIn {above : List Node} (habove : above.any shields = false) (n : Node) :
    List.Forall₂ (fun x q => chainOf? x.node = some q)
      ((n.occurrences above).filter isOutermostCall) (chainsIn n) := by
  have hroot : isOutermostCall ⟨above, n⟩ = (chainOf? n).isSome := by
    simp [isOutermostCall, habove]
  induction n using Node.treeInduction generalizing above with
  | leaf l t =>
    rw [occurrences, chainsIn, chainAt?_eq]
    cases hchain : chainOf? (.leaf l t) with
    | none =>
      rw [List.filter_cons_of_neg (by simp [hroot, hchain])]
      exact .nil
    | some q =>
      rw [List.filter_cons_of_pos (by simp [hroot, hchain])]
      exact .cons hchain .nil
  | branch l cs ih =>
    rw [occurrences, chainsIn, chainAt?_eq]
    split
    · -- a closure ends no chain, and nothing below it is searched
      rename_i hclosure
      have hnone : chainOf? (.branch l cs) = none := by
        rw [Option.eq_none_iff_forall_ne_some]
        intro q hq
        have hcall := isCall_of_chainOf? hq
        simp [Node.IsCall, hclosure] at hcall
      have hshields : shields (.branch l cs) = true := by simp [shields, hclosure]
      rw [List.filter_cons_of_neg (by simp [hroot, hnone]),
        filter_isOutermostCall_of_shields hshields List.mem_cons_self]
      exact .nil
    · rename_i hclosure
      cases hchain : chainOf? (.branch l cs) with
      | some q =>
        -- the chain is told, and nothing below it is searched
        have hshields : shields (.branch l cs) = true := by simp [shields, hchain]
        rw [List.filter_cons_of_pos (by simp [hroot, hchain]),
          filter_isOutermostCall_of_shields hshields List.mem_cons_self]
        exact .cons hchain .nil
      | none =>
        rw [List.filter_cons_of_neg (by simp [hroot, hchain])]
        have hshields : shields (.branch l cs) = false := by simp [shields, hchain, hclosure]
        have habove' : (Node.branch l cs :: above).any shields = false := by
          rw [List.any_cons, hshields, habove]
          rfl
        exact forall₂_chainsInAll fun c hc =>
          ih c hc habove' (by simp only [isOutermostCall, habove', Bool.not_false, Bool.and_true])

/-! ### Searching a node -/

theorem mem_descendants_of_searched? {n m : Node} (h : searched? n = some m) :
    m ∈ n.descendants := by
  unfold searched? at h
  split at h
  · exact Node.mem_descendants_of_mem_children (List.mem_of_find?_eq_some h)
  · obtain rfl := Option.some.inj h
    exact n.self_mem_descendants

theorem forall₂_queriesOf (n : Node) :
    List.Forall₂ (fun x q => chainOf? x.node = some q) (outermostCalls n) (queriesOf n) := by
  unfold outermostCalls searchedIn searched? queriesOf
  split
  · cases n.childByField? "body" with
    | none => exact .nil
    | some body => exact forall₂_chainsIn rfl body
  · exact forall₂_chainsIn rfl n

theorem exists_chainOf?_of_mem_outermostCalls {n : Node} {x : Occurrence}
    (h : x ∈ outermostCalls n) : ∃ q, chainOf? x.node = some q := by
  have houtermost := (List.mem_filter.1 h).2
  rw [isOutermostCall, Bool.and_eq_true] at houtermost
  exact Option.isSome_iff_exists.1 houtermost.1

/-- What is searched stands below the node. -/
theorem mem_descendants_of_mem_outermostCalls {n : Node} {x : Occurrence}
    (h : x ∈ outermostCalls n) : x.node ∈ n.descendants := by
  have hx : x ∈ searchedIn n := List.mem_of_mem_filter h
  unfold searchedIn at hx
  cases hm : searched? n with
  | none => simp [hm] at hx
  | some m =>
    rw [hm, Option.elim_some] at hx
    exact Node.mem_descendants_trans (Node.node_mem_descendants hx) (mem_descendants_of_searched? hm)

/-- The outermost calls of a placed tree stand one behind the other. -/
theorem pairwise_outermostCalls {n : Node} (h : n.WellPlaced) :
    (outermostCalls n).Pairwise fun x y => x.node.span.stop ≤ y.node.span.start := by
  have hsearched : (searchedIn n).Pairwise fun x y =>
      x.node ∈ y.above ∨ x.node.span.stop ≤ y.node.span.start := by
    unfold searchedIn
    cases hm : searched? n with
    | none => exact .nil
    | some m => exact (h.of_mem_descendants (mem_descendants_of_searched? hm)).pairwise_occurrences
  refine (hsearched.filter isOutermostCall).imp_of_mem ?_
  intro x y hx hy hxy
  -- the first call would shield the second one if it stood above it
  refine hxy.resolve_left fun habove => ?_
  obtain ⟨q, hq⟩ := exists_chainOf?_of_mem_outermostCalls hx
  have hshields : shields x.node = true := by simp [shields, hq]
  have houtermost := (List.mem_filter.1 hy).2
  rw [isOutermostCall, List.any_eq_true.2 ⟨x.node, habove, hshields⟩] at houtermost
  simp at houtermost

/-- **The chains found in a node are those of its outermost calls**: the calls that end a chain and
stand neither in a closure nor below another one that does, in source order, each once. In the tree
of a source they stand one behind the other. -/
theorem queriesOf_outermost (n : Node) :
    List.Forall₂ (fun x q => chainOf? x.node = some q) (outermostCalls n) (queriesOf n) ∧
      (∀ x ∈ outermostCalls n, x.node.IsCall) ∧
      ∀ source root, parseSource source = .ok root → n ∈ root.descendants →
        (∀ x ∈ outermostCalls n, x.node.span.start < x.node.span.stop) ∧
          (outermostCalls n).Pairwise fun x y => x.node.span.stop ≤ y.node.span.start := by
  have hcall : ∀ x ∈ outermostCalls n, x.node.IsCall := by
    intro x hx
    obtain ⟨q, hq⟩ := exists_chainOf?_of_mem_outermostCalls hx
    exact isCall_of_chainOf? hq
  refine ⟨forall₂_queriesOf n, hcall, fun source root hroot hn => ?_⟩
  have hplaced := (Node.wellPlaced_of_parseSource hroot).of_mem_descendants hn
  refine ⟨fun x hx => ?_, pairwise_outermostCalls hplaced⟩
  have hmem := mem_descendants_of_mem_outermostCalls hx
  have htext : x.node.text ≠ "" :=
    (Node.orderly_of_parseSource hroot).text_ne _ (Node.mem_descendants_trans hmem hn) (hcall x hx)
  exact (hplaced.of_mem_descendants hmem).start_lt_stop htext

end DocBlocks
