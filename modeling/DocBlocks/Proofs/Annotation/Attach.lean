import DocBlocks.Proofs.Annotation.Pass
import DocBlocks.Proofs.Annotation.Block
import DocBlocks.Proofs.Syntax.SourceReader

/-!
# What attaching documentation does

`attached_annotate`: the children of an annotated branch, told from left to right and in terms of
the children it had before. The pass of `attachAll` works on a list in which comments to the left
are already replaced and methods to the left already documented; `Attached` says that this never
shows, since what a method looks at (the layout in front of it and the nearest comment) is never
touched by another method. Everything about annotated trees follows from this relation.

`docFor?_annotate`: a method keeps its name, so it does not matter that its body is done first.
-/

namespace DocBlocks

/-- The indentation of a line holds nothing but blanks and tabs. -/
theorem isIndentation_indentationAfter (ns : List Node) :
    IsIndentation (indentationAfter ns).toList := by
  have hempty : IsIndentation "".toList := by simp [IsIndentation]
  unfold indentationAfter
  split
  · exact hempty
  · split
    · dsimp only
      split
      · intro c hc
        rw [String.toList_ofList] at hc
        simpa using List.mem_takeWhile_imp hc
      · exact hempty
    · exact hempty

/-! ### Annotated nodes -/

variable {docs : DocMap} {newline : String}

@[simp]
theorem label_annotate (n : Node) : (annotate docs newline n).label = n.label := by
  cases n <;> rfl

@[simp]
theorem kind_annotate (n : Node) : (annotate docs newline n).kind = n.kind := by
  cases n <;> rfl

@[simp]
theorem field_annotate (n : Node) : (annotate docs newline n).field = n.field := by
  cases n <;> rfl

@[simp]
theorem span_annotate (n : Node) : (annotate docs newline n).span = n.span := by
  cases n <;> rfl

@[simp]
theorem isLeaf_annotate (n : Node) : (annotate docs newline n).isLeaf = n.isLeaf := by
  cases n <;> rfl

theorem annotate_of_isLeaf {n : Node} (h : n.isLeaf = true) : annotate docs newline n = n := by
  cases n with
  | leaf l t => rfl
  | branch l cs => simp [Node.isLeaf] at h

theorem docFor?_of_isLeaf {n : Node} (h : n.isLeaf = true) : docFor? docs n = none := by
  cases n with
  | leaf l t =>
    simp only [docFor?, Node.childByField?, Node.children_leaf, List.find?_nil, Option.bind_none]
    exact ite_self none
  | branch l cs => simp [Node.isLeaf] at h

/-! ### Attached lists -/

/-- How the children of a branch become those of the annotated branch, from left to right: a node
without documentation is annotated; in front of a method with documentation a block is put in, or
the comment that stands there, with nothing but trivia between, is replaced. -/
inductive Attached (docs : DocMap) (newline : String) : List Node → List Node → Prop where
  | nil : Attached docs newline [] []
  | keep {xs ys : List Node} {n : Node} : Attached docs newline xs ys → docFor? docs n = none →
      Attached docs newline (xs ++ [n]) (ys ++ [annotate docs newline n])
  | insert {xs ys : List Node} {m : Node} {name doc : String} : Attached docs newline xs ys →
      docFor? docs m = some (name, doc) → Node.docCommentBefore? xs.reverse = none →
      Attached docs newline (xs ++ [m])
        (ys ++ [.comment (renderBlock doc (indentationAfter xs.reverse) newline) m.span.before,
          .trivia (newline ++ indentationAfter xs.reverse) m.span.before,
          annotate docs newline m])
  | replace {xs ys ts : List Node} {c m : Node} {name doc : String} : Attached docs newline xs ys →
      docFor? docs m = some (name, doc) → c.isDocComment = true →
      (∀ t ∈ ts, t.kind = .trivia ∧ t.isLeaf = true) →
      Attached docs newline (xs ++ c :: ts ++ [m])
        (ys ++ c.withText
            (renderBlock doc (indentationAfter (xs ++ c :: ts).reverse) newline) :: ts ++
          [annotate docs newline m])

/-- Leaves stay. -/
theorem Attached.append_leaves {xs ys ts : List Node} (h : Attached docs newline xs ys)
    (hts : ∀ t ∈ ts, t.isLeaf = true) : Attached docs newline (xs ++ ts) (ys ++ ts) := by
  induction ts generalizing xs ys with
  | nil => simpa using h
  | cons t ts ih =>
    have ht := hts t List.mem_cons_self
    have hkeep := h.keep (docFor?_of_isLeaf ht)
    rw [annotate_of_isLeaf ht] at hkeep
    simpa using ih hkeep fun u hu => hts u (List.mem_cons_of_mem _ hu)

/-- What holds between two nodes: the children passed are attached up to some leaves `ts` that are
still as they were, and looking back gives the same as in the children before. -/
structure Passed (docs : DocMap) (newline : String) (seen nearestFirst : List Node) : Prop where
  exists_leaves : ∃ xs ys ts, Attached docs newline xs ys ∧ seen = xs ++ ts ∧
    nearestFirst = (ys ++ ts).reverse ∧ (∀ t ∈ ts, t.isLeaf = true) ∧
    ∀ k c, Node.docCommentBefore? seen.reverse = some (k, c) →
      ∃ us, ts = c :: us ∧ ∀ t ∈ us, t.kind = .trivia
  docCommentBefore?_eq : Node.docCommentBefore? nearestFirst = Node.docCommentBefore? seen.reverse
  indentationAfter_eq : indentationAfter nearestFirst = indentationAfter seen.reverse

namespace Passed

variable {seen nearestFirst : List Node}

theorem nil : Passed docs newline [] [] :=
  ⟨⟨[], [], [], .nil, rfl, rfl, by simp, by simp [Node.docCommentBefore?_nil]⟩, rfl, rfl⟩

theorem attached (h : Passed docs newline seen nearestFirst) :
    Attached docs newline seen nearestFirst.reverse := by
  obtain ⟨xs, ys, ts, hxs, rfl, rfl, hleaf, -⟩ := h.exists_leaves
  rw [List.reverse_reverse]
  exact hxs.append_leaves hleaf

/-- Behind a branch nothing in front of it can be seen. -/
theorem of_branch {n n' : Node}
    (h : Attached docs newline (seen ++ [n]) (nearestFirst.reverse ++ [n']))
    (hk : n.kind ≠ .trivia) (hk' : n'.kind = n.kind) (hn : n.isLeaf = false)
    (hn' : n'.isLeaf = false) : Passed docs newline (seen ++ [n]) (n' :: nearestFirst) := by
  have hdoc : ∀ {b : Node} {ns : List Node}, b.kind ≠ .trivia → b.isLeaf = false →
      Node.docCommentBefore? (b :: ns) = none := by
    intro b ns hb hleaf
    rw [Node.docCommentBefore?_cons_of_ne hb, if_neg]
    intro hdoc
    simp [Node.isLeaf_of_isDocComment hdoc] at hleaf
  have hseen : (seen ++ [n]).reverse = n :: seen.reverse := by simp
  have hne : n'.kind ≠ .trivia := by rwa [hk']
  refine ⟨⟨seen ++ [n], nearestFirst.reverse ++ [n'], [], h, by simp, by simp, by simp, ?_⟩, ?_, ?_⟩
  · intro k c hkc
    simp [hseen, hdoc hk hn] at hkc
  · rw [hseen, hdoc hk hn, hdoc hne hn']
  · rw [hseen, indentationAfter_of_ne hk, indentationAfter_of_ne hne]

/-- A leaf can be seen behind what was passed. -/
theorem leaf {n : Node} (h : Passed docs newline seen nearestFirst) (hn : n.isLeaf = true) :
    Passed docs newline (seen ++ [n]) (n :: nearestFirst) := by
  have hseen : (seen ++ [n]).reverse = n :: seen.reverse := by simp
  by_cases hk : n.kind = .trivia
  · -- trivia: all that could be seen can still be seen
    obtain ⟨xs, ys, ts, hxs, rfl, rfl, hleaf, hlook⟩ := h.exists_leaves
    refine ⟨⟨xs, ys, ts ++ [n], hxs, by simp, by simp, ?_, ?_⟩, ?_, ?_⟩
    · intro t ht
      rcases List.mem_append.1 ht with ht | ht
      · exact hleaf t ht
      · rwa [List.mem_singleton.1 ht]
    · intro k c hkc
      rw [hseen, Node.docCommentBefore?_cons_of_trivia hk, Option.map_eq_some_iff] at hkc
      obtain ⟨⟨k', c'⟩, hkc, he⟩ := hkc
      obtain ⟨rfl, rfl⟩ := Prod.mk.inj he
      obtain ⟨us, rfl, hus⟩ := hlook k' c' hkc
      refine ⟨us ++ [n], rfl, fun t ht => ?_⟩
      rcases List.mem_append.1 ht with ht | ht
      · exact hus t ht
      · rwa [List.mem_singleton.1 ht]
    · rw [hseen, Node.docCommentBefore?_cons_of_trivia hk, Node.docCommentBefore?_cons_of_trivia hk,
        h.docCommentBefore?_eq]
    · rw [hseen]
      rfl
  · -- any other leaf: nothing in front of it can be seen any more
    refine ⟨⟨seen, nearestFirst.reverse, [n], h.attached, rfl, by simp, by simpa using hn, ?_⟩,
      ?_, ?_⟩
    · intro k c hkc
      rw [hseen, Node.docCommentBefore?_cons_of_ne hk] at hkc
      split at hkc
      · obtain ⟨rfl, rfl⟩ := Prod.mk.inj (Option.some.inj hkc)
        exact ⟨[], rfl, by simp⟩
      · simp at hkc
    · rw [hseen, Node.docCommentBefore?_cons_of_ne hk, Node.docCommentBefore?_cons_of_ne hk]
    · rw [hseen]
      rfl

/-- A method with documentation gets its block in front. -/
theorem attached_attachBefore {m : Node} {name doc : String}
    (h : Passed docs newline seen nearestFirst) (hm : docFor? docs m = some (name, doc)) :
    Attached docs newline (seen ++ [m])
      ((attachBefore nearestFirst (annotate docs newline m) doc newline).reverse ++
        [annotate docs newline m]) := by
  cases hlook : Node.docCommentBefore? seen.reverse with
  | none =>
    rw [attachBefore_of_docCommentBefore?_eq_none (h.docCommentBefore?_eq.trans hlook),
      h.indentationAfter_eq, span_annotate]
    simpa using h.attached.insert hm hlook
  | some x =>
    obtain ⟨k, c⟩ := x
    have hc := Node.isDocComment_of_docCommentBefore? hlook
    have hindent := h.indentationAfter_eq
    obtain ⟨xs, ys, ts, hxs, rfl, rfl, hleaf, hts⟩ := h.exists_leaves
    obtain ⟨us, rfl, hus⟩ := hts k c hlook
    -- the comment was not touched by a method before it, so it is the one of the tree before
    have hreplace := hxs.replace hm hc fun t ht => ⟨hus t ht, hleaf t (by simp [ht])⟩
    have hreverse : (ys ++ c :: us).reverse = us.reverse ++ c :: ys.reverse := by simp
    rw [hreverse] at hindent ⊢
    rw [attachBefore_of_docComment (fun t ht => hus t (List.mem_reverse.1 ht)) hc, hindent]
    simpa using hreplace

end Passed

/-- **One pass over neighbouring nodes attaches them**, given that methods keep their names and that
trivia are leaves. -/
theorem Passed.attached_attachAll {seen nearestFirst ns : List Node}
    (h : Passed docs newline seen nearestFirst)
    (hdoc : ∀ n ∈ ns, docFor? docs (annotate docs newline n) = docFor? docs n)
    (hleaf : ∀ n ∈ ns, n.kind = .trivia → n.isLeaf = true) :
    Attached docs newline (seen ++ ns)
      (attachAll docs newline nearestFirst (annotateAll docs newline ns)).reverse := by
  induction ns generalizing seen nearestFirst with
  | nil => simpa [annotateAll, attachAll] using h.attached
  | cons n ns ih =>
    have hn := hdoc n List.mem_cons_self
    have hstep : ∀ nearestFirst', Passed docs newline (seen ++ [n]) nearestFirst' →
        Attached docs newline (seen ++ n :: ns)
          (attachAll docs newline nearestFirst' (annotateAll docs newline ns)).reverse := by
      intro nearestFirst' h'
      rw [List.append_cons]
      exact ih h' (fun m hm => hdoc m (List.mem_cons_of_mem _ hm))
        fun m hm => hleaf m (List.mem_cons_of_mem _ hm)
    simp only [annotateAll, attachAll]
    rw [hn]
    cases hd : docFor? docs n with
    | some x =>
      -- a method is a branch, since a leaf has no name
      have hkind := kind_of_docFor? hd
      have hbranch : n.isLeaf = false := by
        cases hl : n.isLeaf
        · rfl
        · simp [docFor?_of_isLeaf hl] at hd
      refine hstep _ (.of_branch (h.attached_attachBefore hd) ?_ (kind_annotate n) hbranch ?_)
      · simp [hkind]
      · rw [isLeaf_annotate, hbranch]
    | none =>
      cases hl : n.isLeaf with
      | true =>
        rw [annotate_of_isLeaf hl]
        exact hstep _ (h.leaf hl)
      | false =>
        refine hstep _ (.of_branch (h.attached.keep hd) (fun hk => ?_) (kind_annotate n) hl ?_)
        · simp [hleaf n List.mem_cons_self hk] at hl
        · rw [isLeaf_annotate, hl]

/-! ### Names of methods -/

/-- The child with the role of a name has the same text as before. -/
theorem Attached.map_text_find? {xs ys : List Node} (h : Attached docs newline xs ys)
    (hname : ∀ c ∈ xs, c.field = some "name" → c.isLeaf = true)
    (hcomment : ∀ c ∈ xs, c.kind = .comment → c.field = none) :
    (ys.find? (·.field == some "name")).map Node.text =
      (xs.find? (·.field == some "name")).map Node.text := by
  have hnode : ∀ n : Node, (n.field = some "name" → n.isLeaf = true) →
      ([annotate docs newline n].find? (·.field == some "name")).map Node.text =
        ([n].find? (·.field == some "name")).map Node.text := by
    intro n hn
    by_cases hf : n.field = some "name"
    · simp [hf, annotate_of_isLeaf (hn hf)]
    · simp [hf]
  induction h with
  | nil => rfl
  | @keep xs ys n hxs hdoc ih =>
    have ih := ih (fun c hc => hname c (by simp [hc])) fun c hc => hcomment c (by simp [hc])
    have hlast := hnode n (hname n (by simp))
    rw [List.find?_append, List.find?_append, Option.map_or, Option.map_or, ih, hlast]
  | @insert xs ys m name doc hxs hdoc hlook ih =>
    have ih := ih (fun c hc => hname c (by simp [hc])) fun c hc => hcomment c (by simp [hc])
    have hlast := hnode m (hname m (by simp))
    rw [List.find?_append, List.find?_append, Option.map_or, Option.map_or, ih, ← hlast]
    simp
  | @replace xs ys ts c m name doc hxs hdoc hc hts ih =>
    have ih := ih (fun c hc => hname c (by simp [hc])) fun c hc => hcomment c (by simp [hc])
    have hlast := hnode m (hname m (by simp))
    -- the comment has no role before and none after
    have hplain : c.field = none := hcomment c (by simp) (Node.kind_of_isDocComment hc)
    have hwith : ∀ t, (c.withText t).field = none := fun t => hplain
    simp only [List.find?_append, Option.map_or, ih, hlast]
    simp [hplain, hwith]

/-- The children of an annotated branch, if methods among them keep their names. -/
theorem attached_of_docFor? {n : Node} (h : n.Regular)
    (hdoc : ∀ c ∈ n.children, docFor? docs (annotate docs newline c) = docFor? docs c) :
    Attached docs newline n.children (annotate docs newline n).children := by
  cases n with
  | leaf l t => exact .nil
  | branch l cs =>
    rw [annotate_branch, Node.children_branch]
    refine Passed.nil.attached_attachAll hdoc fun c hc hk => ?_
    obtain ⟨l', t, rfl, -⟩ :=
      (h.gapsClosed _ (Node.self_mem_descendants _)).leaf_of_trivia c hc hk
    rfl

/-- **Annotating a method leaves its documentation alone.** -/
theorem docFor?_annotate {n : Node} (h : n.Regular) :
    docFor? docs (annotate docs newline n) = docFor? docs n := by
  induction n using Node.treeInduction with
  | leaf l t => rfl
  | branch l cs ih =>
    have hattached := attached_of_docFor? h fun c hc => ih c hc (h.of_mem_children hc)
    unfold docFor?
    rw [kind_annotate]
    split
    · rename_i hk
      have htext := hattached.map_text_find?
        (fun c hc => h.namesLeaf _ (Node.self_mem_descendants _) hk c hc)
        fun c hc => h.commentsPlain c (Node.mem_descendants_of_mem_children hc)
      have hbind : ∀ o o' : Option Node, o.map Node.text = o'.map Node.text →
          (o.bind fun name => (docs.get? name.text).map fun d => (name.text, d)) =
            o'.bind fun name => (docs.get? name.text).map fun d => (name.text, d) := by
        intro o o' ho
        cases o <;> cases o' <;> simp_all
      exact hbind _ _ htext
    · rfl

/-- **The children of an annotated branch**, in terms of the children before. -/
theorem attached_annotate {n : Node} (h : n.Regular) :
    Attached docs newline n.children (annotate docs newline n).children :=
  attached_of_docFor? h fun _ hc => docFor?_annotate (h.of_mem_children hc)

end DocBlocks
