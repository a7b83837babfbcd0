import DocBlocks.Annotation.Attach

/-!
# One pass over siblings

Documentation is attached by position, to the last method first. `attachTargets_eq`: one pass over
the siblings from the first to the last comes to the same (`attachAll`), and the proofs about
annotated trees follow that pass.

The order does not matter since a method does not see what stands in front of another one: looking
back for a comment or for layout ends at a method (`exists_attachBefore_append`), so what is done
behind a method is the same whatever is done in front of it (`exists_attachAll_append`).
-/

namespace DocBlocks

/-! ### Looking back -/

namespace Node

theorem docCommentBefore?_nil : docCommentBefore? [] = none := rfl

theorem docCommentBefore?_cons_of_trivia {n : Node} (h : n.kind = .trivia) (ns : List Node) :
    docCommentBefore? (n :: ns) = (docCommentBefore? ns).map fun x => (x.1 + 1, x.2) := by
  have htake : (n :: ns).takeWhile (·.kind == .trivia) =
      n :: ns.takeWhile (·.kind == .trivia) := by
    simp [h]
  simp only [docCommentBefore?, htake, List.length_cons, List.drop_succ_cons]
  split
  · rfl
  · split <;> rfl

theorem docCommentBefore?_cons_of_ne {n : Node} (h : n.kind ≠ .trivia) (ns : List Node) :
    docCommentBefore? (n :: ns) = if n.isDocComment then some (0, n) else none := by
  simp [docCommentBefore?, h]

theorem isDocComment_of_docCommentBefore? {ns : List Node} {k : Nat} {c : Node}
    (h : docCommentBefore? ns = some (k, c)) : c.isDocComment = true := by
  unfold docCommentBefore? at h
  dsimp only at h
  split at h
  · simp at h
  · split at h
    · rename_i hdoc
      obtain ⟨-, rfl⟩ := Prod.mk.inj (Option.some.inj h)
      exact hdoc
    · simp at h

theorem isLeaf_of_isDocComment {n : Node} (h : n.isDocComment = true) : n.isLeaf = true := by
  cases n with
  | leaf l t => rfl
  | branch l cs => simp [isDocComment, leafText?] at h

theorem kind_of_isDocComment {n : Node} (h : n.isDocComment = true) : n.kind = .comment := by
  simp only [isDocComment, Bool.and_eq_true, beq_iff_eq] at h
  exact h.1

theorem docCommentBefore?_append_cons {ts ns : List Node} {c : Node}
    (hts : ∀ t ∈ ts, t.kind = .trivia) (hc : c.isDocComment = true) :
    docCommentBefore? (ts ++ c :: ns) = some (ts.length, c) := by
  induction ts with
  | nil =>
    have hk : c.kind ≠ .trivia := by simp [kind_of_isDocComment hc]
    simp [docCommentBefore?_cons_of_ne hk, hc]
  | cons t ts ih =>
    rw [List.cons_append, docCommentBefore?_cons_of_trivia (hts t List.mem_cons_self),
      ih fun u hu => hts u (List.mem_cons_of_mem _ hu)]
    rfl

/-- A documentation comment that is found stands behind nothing but trivia. -/
theorem exists_of_docCommentBefore? {ns : List Node} {k : Nat} {c : Node}
    (h : docCommentBefore? ns = some (k, c)) :
    ∃ ts rest, ns = ts ++ c :: rest ∧ ts.length = k ∧ ∀ t ∈ ts, t.kind = .trivia := by
  induction ns generalizing k with
  | nil => simp [docCommentBefore?_nil] at h
  | cons n ns ih =>
    by_cases hk : n.kind = .trivia
    · rw [docCommentBefore?_cons_of_trivia hk, Option.map_eq_some_iff] at h
      obtain ⟨⟨k', c'⟩, hc, he⟩ := h
      obtain ⟨rfl, rfl⟩ := Prod.mk.inj he
      obtain ⟨ts, rest, rfl, rfl, hts⟩ := ih hc
      exact ⟨n :: ts, rest, rfl, rfl, by simpa [hk] using hts⟩
    · rw [docCommentBefore?_cons_of_ne hk] at h
      split at h
      · obtain ⟨rfl, rfl⟩ := Prod.mk.inj (Option.some.inj h)
        exact ⟨[], ns, rfl, rfl, by simp⟩
      · simp at h

/-- Right behind a method no documentation comment is found. -/
theorem docCommentBefore?_cons_of_method {n : Node} (h : n.kind = .method) (ns : List Node) :
    docCommentBefore? (n :: ns) = none := by
  rw [docCommentBefore?_cons_of_ne (by simp [h]), if_neg]
  intro hdoc
  simp [kind_of_isDocComment hdoc] at h

/-- Looking back ends at a method. -/
theorem docCommentBefore?_append_of_method {n : Node} (h : n.kind = .method)
    (us front : List Node) :
    docCommentBefore? (us ++ n :: front) = docCommentBefore? us := by
  induction us with
  | nil => exact docCommentBefore?_cons_of_method h front
  | cons u us ih =>
    by_cases hk : u.kind = .trivia
    · rw [List.cons_append, docCommentBefore?_cons_of_trivia hk, ih,
        docCommentBefore?_cons_of_trivia hk]
    · rw [List.cons_append, docCommentBefore?_cons_of_ne hk, docCommentBefore?_cons_of_ne hk]

end Node

theorem indentationAfter_of_ne {n : Node} (h : n.kind ≠ .trivia) (ns : List Node) :
    indentationAfter (n :: ns) = "" := by
  simp [indentationAfter, h]

theorem indentationAfter_append_of_method {n : Node} (h : n.kind = .method) (us front : List Node) :
    indentationAfter (us ++ n :: front) = indentationAfter us := by
  cases us with
  | nil => exact indentationAfter_of_ne (by simp [h]) front
  | cons u us => rfl

/-! ### The pass -/

variable {docs : DocMap} {newline : String}

/-- Puts a block in front of a method: over the documentation comment that stands there, or as a
new comment with a line break behind it. The nodes before the method are given nearest first. -/
def attachBefore (nearestFirst : List Node) (method : Node) (doc newline : String) : List Node :=
  let indent := indentationAfter nearestFirst
  let block := renderBlock doc indent newline
  match Node.docCommentBefore? nearestFirst with
  | some (skipped, comment) =>
    nearestFirst.take skipped ++ comment.withText block :: nearestFirst.drop (skipped + 1)
  | none =>
    let at_ := method.span.before
    .trivia (newline ++ indent) at_ :: .comment block at_ :: nearestFirst

/-- Documents neighbouring nodes from the first to the last. The nodes before them are given nearest
first, and so is the answer. -/
def attachAll (docs : DocMap) (newline : String) (nearestFirst : List Node) : List Node → List Node
  | [] => nearestFirst
  | n :: ns =>
    match docFor? docs n with
    | some (_, doc) => attachAll docs newline (n :: attachBefore nearestFirst n doc newline) ns
    | none => attachAll docs newline (n :: nearestFirst) ns

theorem attachBefore_of_docCommentBefore?_eq_none {nearestFirst : List Node}
    (h : Node.docCommentBefore? nearestFirst = none) (m : Node) (doc newline : String) :
    attachBefore nearestFirst m doc newline =
      .trivia (newline ++ indentationAfter nearestFirst) m.span.before ::
        .comment (renderBlock doc (indentationAfter nearestFirst) newline) m.span.before ::
          nearestFirst := by
  simp [attachBefore, h]

/-- A documentation comment is replaced, and the trivia behind it stay. -/
theorem attachBefore_of_docComment {ts ns : List Node} {c : Node} (hts : ∀ t ∈ ts, t.kind = .trivia)
    (hc : c.isDocComment = true) (m : Node) (doc newline : String) :
    attachBefore (ts ++ c :: ns) m doc newline =
      ts ++ c.withText (renderBlock doc (indentationAfter (ts ++ c :: ns)) newline) :: ns := by
  have htake : (ts ++ c :: ns).take ts.length = ts := by
    simp
  have hdrop : (ts ++ c :: ns).drop (ts.length + 1) = ns := by
    rw [List.append_cons]
    exact List.drop_left' (by simp)
  simp only [attachBefore, Node.docCommentBefore?_append_cons hts hc, htake, hdrop]

theorem kind_of_docFor? {n : Node} {x : String × String} (h : docFor? docs n = some x) :
    n.kind = .method := by
  unfold docFor? at h
  split at h
  · assumption
  · simp at h

/-! ### What stands in front of a method -/

variable {n : Node}

/-- **What a method gets does not depend on what stands in front of another one**, and leaves it
alone. -/
theorem exists_attachBefore_append (h : n.kind = .method) (us : List Node) (m : Node)
    (doc newline : String) :
    ∃ vs, ∀ front, attachBefore (us ++ n :: front) m doc newline = vs ++ n :: front := by
  cases hlook : Node.docCommentBefore? us with
  | none =>
    refine ⟨.trivia (newline ++ indentationAfter us) m.span.before ::
      .comment (renderBlock doc (indentationAfter us) newline) m.span.before :: us, fun front => ?_⟩
    have hnone : Node.docCommentBefore? (us ++ n :: front) = none := by
      rw [Node.docCommentBefore?_append_of_method h, hlook]
    rw [attachBefore_of_docCommentBefore?_eq_none hnone, indentationAfter_append_of_method h]
    rfl
  | some x =>
    obtain ⟨k, c⟩ := x
    have hc := Node.isDocComment_of_docCommentBefore? hlook
    obtain ⟨ts, rest, rfl, -, hts⟩ := Node.exists_of_docCommentBefore? hlook
    refine ⟨ts ++ c.withText (renderBlock doc (indentationAfter (ts ++ c :: rest)) newline) :: rest,
      fun front => ?_⟩
    have hindent := indentationAfter_append_of_method h (ts ++ c :: rest) front
    rw [List.append_assoc, List.cons_append] at hindent ⊢
    rw [attachBefore_of_docComment hts hc, hindent]
    simp

/-- **What is done behind a method** does not depend on what stands in front of it, and leaves it
alone. -/
theorem exists_attachAll_append (h : n.kind = .method) (us ns : List Node) :
    ∃ vs, ∀ front, attachAll docs newline (us ++ n :: front) ns = vs ++ n :: front := by
  induction ns generalizing us with
  | nil => exact ⟨us, fun front => rfl⟩
  | cons m ns ih =>
    cases hm : docFor? docs m with
    | none =>
      simp only [attachAll, hm]
      exact ih (m :: us)
    | some x =>
      obtain ⟨vs, hvs⟩ := exists_attachBefore_append h us m x.2 newline
      simp only [attachAll, hm, hvs]
      exact ih (m :: vs)

/-! ### Positions -/

/-- **Attaching by position** is attaching behind what stands in front of the position. -/
theorem attachAt_length (front behind : List Node) (n : Node) (doc newline : String) :
    attachAt newline (front ++ n :: behind) front.length doc =
      (attachBefore front.reverse n doc newline).reverse ++ n :: behind := by
  have hat : (front ++ n :: behind)[front.length]? = some n := by simp
  have htake : (front ++ n :: behind).take front.length = front := by simp
  simp only [attachAt, hat, indentationBefore, Node.precedingDocComment?, htake]
  cases hlook : Node.docCommentBefore? front.reverse with
  | none =>
    have hput : ∀ x ns, (front ++ ns).insertIdx front.length x = front ++ x :: ns := fun x ns =>
      List.modifyTailIdx_add (List.cons x) 0 front ns
    rw [attachBefore_of_docCommentBefore?_eq_none hlook]
    simp [hput]
  | some x =>
    obtain ⟨k, c⟩ := x
    have hc := Node.isDocComment_of_docCommentBefore? hlook
    obtain ⟨ts, rest, hfront, rfl, hts⟩ := Node.exists_of_docCommentBefore? hlook
    -- the comment stands where looking back has got to, counted from the front
    obtain rfl : front = rest.reverse ++ c :: ts.reverse := by
      rw [← List.reverse_reverse front, hfront]
      simp
    have hposition : (rest.reverse ++ c :: ts.reverse).length - 1 - ts.length =
        rest.reverse.length := by
      simp only [List.length_append, List.length_cons, List.length_reverse]
      omega
    simp only [Option.map_some, hposition, hfront]
    rw [attachBefore_of_docComment hts hc]
    simp [List.modify_eq_take_drop]

/-- **The last method first, or one pass from the first node to the last.** -/
theorem foldr_attachAt_targetsFrom (front ns : List Node) :
    (targetsFrom docs front.length ns).foldr (fun (i, doc) ns => attachAt newline ns i doc)
      (front ++ ns) = (attachAll docs newline front.reverse ns).reverse := by
  induction ns generalizing front with
  | nil => simp [targetsFrom, attachAll]
  | cons n ns ih =>
    have hnext := ih (front ++ [n])
    simp only [List.length_append, List.length_singleton, List.append_assoc, List.singleton_append,
      List.reverse_append, List.reverse_singleton] at hnext
    cases hn : docFor? docs n with
    | none =>
      have htargets : targetsFrom docs front.length (n :: ns) =
          targetsFrom docs (front.length + 1) ns := by
        simp [targetsFrom, List.zipIdx_cons, hn]
      rw [htargets, hnext]
      simp only [attachAll, hn]
    | some x =>
      have htargets : targetsFrom docs front.length (n :: ns) =
          (front.length, x.2) :: targetsFrom docs (front.length + 1) ns := by
        simp [targetsFrom, List.zipIdx_cons, hn]
      -- the nodes behind are done, and in front of the method nothing has changed
      obtain ⟨vs, hvs⟩ : ∃ vs, ∀ front, attachAll docs newline (n :: front) ns = vs ++ n :: front :=
        exists_attachAll_append (kind_of_docFor? hn) [] ns
      rw [htargets, List.foldr_cons, hnext]
      simp only [attachAll, hn, hvs]
      rw [List.reverse_append, List.reverse_cons, List.reverse_reverse, List.append_assoc,
        List.singleton_append, attachAt_length]
      simp

theorem attachTargets_eq (ns : List Node) :
    attachTargets docs newline ns = (attachAll docs newline [] ns).reverse :=
  foldr_attachAt_targetsFrom [] ns

theorem annotate_branch (l : Label) (cs : List Node) :
    annotate docs newline (.branch l cs) =
      .branch l (attachAll docs newline [] (annotateAll docs newline cs)).reverse := by
  rw [annotate, attachTargets_eq]

end DocBlocks
