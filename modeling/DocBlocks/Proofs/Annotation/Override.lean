import DocBlocks.Proofs.Annotation.Twice
import DocBlocks.Proofs.Syntax.Calm

/-!
# One documentation map over another

`annotate_override`: documenting a tree with one map and then with another is documenting it once
with the first map overridden by the second, whatever the trees look like as long as names of
methods stand apart from comments and from methods (`Node.NamesApart`), as they do in every tree
that was read.

The second run walks over a list in which the first one has put blocks in and replaced comments.
`reannotated` is what the second run makes of the nodes that the first one has passed. A block that
was attached is found again with the same indentation (`attachBefore_attachBefore`), and attaching
comes to the same before and after the second run (`reannotated_attachBefore`). So two runs pass a
node as one does (`reannotated_passedWith`); the rest is an induction over the neighbouring nodes and
one over the tree.
-/

namespace DocBlocks

variable {docs docs' : DocMap} {newline : String}

/-! ### Maps -/

namespace DocMap

/-- A map overridden by another: an entry of the second one wins. -/
def override (first second : DocMap) : DocMap :=
  second.entries.foldr (fun (name, doc) m => m.insert name doc) first

theorem lookup_cons (key name doc : String) (es : List (String × String)) :
    List.lookup key ((name, doc) :: es) = if key = name then some doc else es.lookup key := by
  by_cases h : key = name
  · simp [h]
  · rw [List.lookup_cons, beq_false_of_ne h, if_neg h]

theorem lookup_insertEntry (name key doc : String) (es : List (String × String)) :
    (insertEntry name doc es).lookup key = if key = name then some doc else es.lookup key := by
  induction es with
  | nil => simp only [insertEntry, lookup_cons, List.lookup_nil]
  | cons entry es ih =>
    obtain ⟨n, d⟩ := entry
    by_cases hlt : name < n
    · simp only [insertEntry, hlt, if_true, lookup_cons]
    · by_cases hn : name = n
      · subst hn
        by_cases h : key = name <;> simp [insertEntry, lookup_cons, h]
      · rw [insertEntry, if_neg hlt, if_neg hn, lookup_cons, ih, lookup_cons]
        by_cases h : key = n
        · simp [h, Ne.symm hn]
        · simp only [h, if_false]

theorem get?_insert (m : DocMap) (name key doc : String) :
    (m.insert name doc).get? key = if key = name then some doc else m.get? key :=
  lookup_insertEntry name key doc m.entries

/-- **The last one wins.** -/
theorem get?_override (first second : DocMap) (name : String) :
    (first.override second).get? name = (second.get? name).or (first.get? name) := by
  obtain ⟨es⟩ := second
  induction es with
  | nil => rfl
  | cons entry es ih =>
    obtain ⟨n, d⟩ := entry
    have hstep : first.override ⟨(n, d) :: es⟩ = (first.override ⟨es⟩).insert n d := rfl
    rw [hstep, get?_insert, ih]
    simp only [get?, lookup_cons]
    by_cases h : name = n <;> simp [h]

theorem get?_eq_none {m : DocMap} {name : String} (h : name ∉ m.names) : m.get? name = none := by
  rw [get?, List.lookup_eq_none_iff]
  rintro ⟨n, d⟩ hentry
  have hne : name ≠ n := by
    rintro rfl
    exact h (List.mem_map_of_mem hentry)
  simpa using hne

end DocMap

/-! ### Names that stand apart -/

namespace Node

/-- Names of methods stand apart: the name of a method is no comment and no method stands in it,
and none stands in the layout between nodes. -/
structure NamesApart (n : Node) : Prop where
  name : ∀ m ∈ n.descendants, m.kind = .method → ∀ c ∈ m.childByField? "name",
    c.kind ≠ .comment ∧ c.HoldsNoMethod
  trivia : ∀ d ∈ n.descendants, ∀ t ∈ d.children, t.kind = .trivia → t.HoldsNoMethod

theorem namesApart_iff {n : Node} : n.NamesApart ↔
    (∀ m ∈ n.descendants, m.kind = .method → ∀ c ∈ m.childByField? "name",
      c.kind ≠ .comment ∧ c.HoldsNoMethod) ∧
      ∀ d ∈ n.descendants, ∀ t ∈ d.children, t.kind = .trivia → t.HoldsNoMethod :=
  ⟨fun h => ⟨h.name, h.trivia⟩, fun h => ⟨h.1, h.2⟩⟩

instance (n : Node) : Decidable n.NamesApart := decidable_of_iff _ namesApart_iff.symm

theorem NamesApart.of_mem_children {n c : Node} (h : n.NamesApart) (hc : c ∈ n.children) :
    c.NamesApart where
  name m hm := h.name m (mem_descendants_trans hm (mem_descendants_of_mem_children hc))
  trivia d hd := h.trivia d (mem_descendants_trans hd (mem_descendants_of_mem_children hc))

/-- In a regular tree names of methods and layout are leaves. -/
theorem Regular.namesApart {n : Node} (h : n.Regular) : n.NamesApart where
  name m hm hk c hc := by
    have hmem : c ∈ m.children := List.mem_of_find?_eq_some hc
    have hfield : c.field = some "name" := by simpa using List.find?_some hc
    have hdesc := mem_descendants_trans (mem_descendants_of_mem_children hmem) hm
    refine ⟨fun hcomment => ?_, holdsNoMethod_of_isLeaf (h.namesLeaf m hm hk c hmem hfield)⟩
    simp [h.commentsPlain c hdesc hcomment] at hfield
  trivia d hd t ht hk := by
    obtain ⟨l, text, rfl, -⟩ := (h.gapsClosed d hd).leaf_of_trivia t ht hk
    exact holdsNoMethod_of_isLeaf rfl

end Node

/-! ### Names and the methods below -/

theorem docFor?_of_kind_ne {n : Node} (h : n.kind ≠ .method) : docFor? docs n = none := by
  simp [docFor?, h]

/-- Nodes without documentation are passed over. -/
theorem attachAll_of_docFor?_eq_none {ns : List Node} (h : ∀ n ∈ ns, docFor? docs n = none)
    (nearestFirst : List Node) :
    attachAll docs newline nearestFirst ns = ns.reverse ++ nearestFirst := by
  induction ns generalizing nearestFirst with
  | nil => rfl
  | cons n ns ih =>
    simp [attachAll, h n List.mem_cons_self, ih fun m hm => h m (List.mem_cons_of_mem _ hm)]

/-- **Without methods there is nothing to document.** -/
theorem annotate_of_holdsNoMethod {n : Node} (h : n.HoldsNoMethod) :
    annotate docs newline n = n := by
  induction n using Node.treeInduction with
  | leaf l t => rfl
  | branch l cs ih =>
    have hcs : cs.map (annotate docs newline) = cs :=
      (List.map_congr_left fun c hc => ih c hc (h.of_mem_children hc).2).trans (List.map_id cs)
    have hnone : ∀ c ∈ cs, docFor? docs c = none := fun c hc =>
      docFor?_of_kind_ne (h.of_mem_children hc).1
    rw [annotate_branch, annotateAll_eq_map, hcs, attachAll_of_docFor?_eq_none hnone]
    simp

/-- The first child in a role is the same after a block was attached, unless it is a comment. -/
theorem find?_reverse_attachBefore {nearestFirst : List Node} {role : String}
    (h : ∀ c ∈ nearestFirst.reverse.find? (·.field == some role), c.kind ≠ .comment)
    (m : Node) (doc newline : String) :
    (attachBefore nearestFirst m doc newline).reverse.find? (·.field == some role) =
      nearestFirst.reverse.find? (·.field == some role) := by
  cases hlook : Node.docCommentBefore? nearestFirst with
  | none =>
    rw [attachBefore_of_docCommentBefore?_eq_none hlook]
    simp [List.find?_append]
  | some x =>
    obtain ⟨k, c⟩ := x
    have hc := Node.isDocComment_of_docCommentBefore? hlook
    obtain ⟨ts, rest, rfl, -, hts⟩ := Node.exists_of_docCommentBefore? hlook
    rw [attachBefore_of_docComment hts hc]
    have hfield : ∀ text, (c.withText text).field = c.field := fun _ => rfl
    simp only [List.reverse_append, List.reverse_cons, List.find?_append, List.find?_singleton,
      hfield] at h ⊢
    by_cases hrole : (c.field == some role) = true
    · -- the comment would be the first in the role, unless another child is
      cases hrest : rest.reverse.find? (·.field == some role) with
      | some d => rfl
      | none => exact absurd (Node.kind_of_isDocComment hc) (h c (by simp [hrest, hrole]))
    · simp [hrole]

/-- The first child in a role is the same after blocks were attached, unless it is a comment. -/
theorem find?_reverse_attachAll {nearestFirst ns : List Node} {role : String}
    (h : ∀ c ∈ (nearestFirst.reverse ++ ns).find? (·.field == some role), c.kind ≠ .comment) :
    (attachAll docs newline nearestFirst ns).reverse.find? (·.field == some role) =
      (nearestFirst.reverse ++ ns).find? (·.field == some role) := by
  induction ns generalizing nearestFirst with
  | nil => simp [attachAll]
  | cons n ns ih =>
    have hseen : ∀ c ∈ nearestFirst.reverse.find? (·.field == some role), c.kind ≠ .comment := by
      intro c hc
      exact h c (by rw [List.find?_append, Option.mem_def.1 hc]; rfl)
    simp only [attachAll]
    split
    · rename_i doc hdoc
      have hnext : ((n :: attachBefore nearestFirst n doc newline).reverse ++ ns).find?
          (·.field == some role) =
            (nearestFirst.reverse ++ n :: ns).find? (·.field == some role) := by
        rw [List.reverse_cons, List.append_assoc, List.singleton_append, List.find?_append,
          find?_reverse_attachBefore hseen, List.find?_append]
      rw [ih (by rwa [hnext]), hnext]
    · have hnext : (n :: nearestFirst).reverse ++ ns = nearestFirst.reverse ++ n :: ns := by simp
      rw [ih (by rwa [hnext]), hnext]

/-- **A method keeps its name**, also in a tree that was not read. -/
theorem Node.NamesApart.docFor?_annotate {n : Node} (h : n.NamesApart) :
    docFor? docs (annotate docs' newline n) = docFor? docs n := by
  cases n with
  | leaf l t => rfl
  | branch l cs =>
    unfold docFor?
    rw [kind_annotate]
    split
    · rename_i hk
      have hname := h.name _ (Node.self_mem_descendants _) hk
      simp only [Node.childByField?, Node.children_branch] at hname
      -- the name is looked for among the children that are done inside
      have hmap : (cs.map (annotate docs' newline)).find? (·.field == some "name") =
          cs.find? (·.field == some "name") := by
        rw [List.find?_map]
        have hfield : (fun c : Node => c.field == some "name") ∘ annotate docs' newline =
            fun c => c.field == some "name" := by
          funext c
          simp
        rw [hfield]
        cases hfind : cs.find? fun c => c.field == some "name" with
        | none => rfl
        | some c => rw [Option.map_some, annotate_of_holdsNoMethod (hname c hfind).2]
      have hattach : (attachAll docs' newline [] (cs.map (annotate docs' newline))).reverse.find?
          (·.field == some "name") = (cs.map (annotate docs' newline)).find?
            (·.field == some "name") :=
        find?_reverse_attachAll (by simpa [hmap] using fun c hc => (hname c hc).1)
      simp only [annotate_branch, annotateAll_eq_map, Node.childByField?, Node.children_branch,
        hattach]
      simp [hmap]
    · rfl

/-! ### Blocks on blocks -/

/-- **A block on a block is a block.** The block that was attached is found, and with it the
indentation that it was attached with. -/
theorem attachBefore_attachBefore {nearestFirst : List Node} {m m' m'' : Node}
    (hn : IsNewline newline) (hspan : m.span = m''.span) (doc doc' : String) :
    attachBefore (attachBefore nearestFirst m doc newline) m' doc' newline =
      attachBefore nearestFirst m'' doc' newline := by
  have hi := isIndentation_indentationAfter nearestFirst
  cases hlook : Node.docCommentBefore? nearestFirst with
  | none =>
    have hcomment : (Node.comment (renderBlock doc (indentationAfter nearestFirst) newline)
        m.span.before).isDocComment = true := isDocComment_leaf_renderBlock rfl hi doc newline
    have hlook' : Node.docCommentBefore? (attachBefore nearestFirst m doc newline) = some
        (1, .comment (renderBlock doc (indentationAfter nearestFirst) newline) m.span.before) := by
      rw [attachBefore_of_docCommentBefore?_eq_none hlook,
        Node.docCommentBefore?_cons_of_trivia rfl, Node.docCommentBefore?_cons_of_ne (by simp),
        if_pos hcomment]
      rfl
    rw [attachBefore, hlook', attachBefore_of_docCommentBefore?_eq_none hlook,
      attachBefore_of_docCommentBefore?_eq_none hlook, indentationAfter_trivia hn hi, hspan]
    rfl
  | some x =>
    obtain ⟨k, c⟩ := x
    have hc := Node.isDocComment_of_docCommentBefore? hlook
    have hk := Node.kind_of_isDocComment hc
    obtain ⟨ts, rest, rfl, -, hts⟩ := Node.exists_of_docCommentBefore? hlook
    have hblock : (c.withText
        (renderBlock doc (indentationAfter (ts ++ c :: rest)) newline)).isDocComment = true :=
      isDocComment_leaf_renderBlock hk hi doc newline
    have hindent : indentationAfter (ts ++ c.withText
        (renderBlock doc (indentationAfter (ts ++ c :: rest)) newline) :: rest) =
          indentationAfter (ts ++ c :: rest) := indentationAfter_append_cons hk hk
    rw [attachBefore_of_docComment hts hc, attachBefore_of_docComment hts hblock,
      attachBefore_of_docComment hts hc, hindent]
    rfl

/-! ### A second run over what the first one has passed -/

/-- What a run makes of nodes that another one has passed. Both are given nearest first. -/
def reannotated (docs : DocMap) (newline : String) (nearestFirst : List Node) : List Node :=
  attachAll docs newline [] (nearestFirst.reverse.map (annotate docs newline))

variable {nearestFirst : List Node} {n : Node}

/-- What stands in front of the next node once a node is passed: the node, and the block that it
gets. -/
def passedWith (docs : DocMap) (newline : String) (nearestFirst : List Node) (n : Node) :
    List Node :=
  n :: (docFor? docs n).elim nearestFirst fun x => attachBefore nearestFirst n x.2 newline

theorem attachAll_cons (nearestFirst : List Node) (n : Node) (ns : List Node) :
    attachAll docs newline nearestFirst (n :: ns) =
      attachAll docs newline (passedWith docs newline nearestFirst n) ns := by
  cases h : docFor? docs n <;> simp [attachAll, passedWith, h]

theorem reannotated_cons (n : Node) (nearestFirst : List Node) :
    reannotated docs newline (n :: nearestFirst) =
      passedWith docs newline (reannotated docs newline nearestFirst)
        (annotate docs newline n) := by
  rw [reannotated, List.reverse_cons, List.map_append, attachAll_append, List.map_singleton,
    attachAll_cons]
  rfl

/-- Nodes without methods stay in front. -/
theorem reannotated_append {ts : List Node}
    (h : ∀ t ∈ ts, t.kind ≠ .method ∧ t.HoldsNoMethod) (nearestFirst : List Node) :
    reannotated docs newline (ts ++ nearestFirst) =
      ts ++ reannotated docs newline nearestFirst := by
  induction ts with
  | nil => rfl
  | cons t ts ih =>
    obtain ⟨hk, hnone⟩ := h t List.mem_cons_self
    have hself : annotate docs newline t = t := annotate_of_holdsNoMethod hnone
    rw [List.cons_append, reannotated_cons, hself, passedWith, docFor?_of_kind_ne hk,
      Option.elim_none, ih fun u hu => h u (List.mem_cons_of_mem _ hu), List.cons_append]

theorem isDocComment_annotate (n : Node) :
    (annotate docs newline n).isDocComment = n.isDocComment := by
  cases n <;> rfl

/-- Whether no method stands in the layout among nodes. -/
def Node.LayoutApart (ns : List Node) : Prop := ∀ t ∈ ns, t.kind = .trivia → t.HoldsNoMethod

theorem Node.layoutApart_cons {ns : List Node} : LayoutApart (n :: ns) ↔
    (n.kind = .trivia → n.HoldsNoMethod) ∧ LayoutApart ns :=
  List.forall_mem_cons

/-- **Looking back after a second run** gives the same indentation, and a documentation comment
exactly if there was one. -/
theorem indentationAfter_reannotated (h : Node.LayoutApart nearestFirst) :
    indentationAfter (reannotated docs newline nearestFirst) = indentationAfter nearestFirst := by
  cases nearestFirst with
  | nil => rfl
  | cons t ns =>
    rw [reannotated_cons, passedWith]
    by_cases hk : t.kind = .trivia
    · rw [annotate_of_holdsNoMethod (h t List.mem_cons_self hk)]
      rfl
    · rw [indentationAfter_of_ne hk, indentationAfter_of_ne (by rwa [kind_annotate])]

theorem docCommentBefore?_reannotated_eq_none (h : Node.LayoutApart nearestFirst)
    (hlook : Node.docCommentBefore? nearestFirst = none) :
    Node.docCommentBefore? (reannotated docs newline nearestFirst) = none := by
  induction nearestFirst with
  | nil => rfl
  | cons t ns ih =>
    by_cases hk : t.kind = .trivia
    · have hself : t.kind ≠ .method ∧ t.HoldsNoMethod := ⟨by simp [hk], h t List.mem_cons_self hk⟩
      rw [Node.docCommentBefore?_cons_of_trivia hk, Option.map_eq_none_iff] at hlook
      have hfront : reannotated docs newline (t :: ns) = t :: reannotated docs newline ns :=
        reannotated_append (by simpa using hself : ∀ u ∈ [t], _) ns
      rw [hfront, Node.docCommentBefore?_cons_of_trivia hk,
        ih (Node.layoutApart_cons.1 h).2 hlook]
      rfl
    · rw [Node.docCommentBefore?_cons_of_ne hk] at hlook
      rw [reannotated_cons, passedWith,
        Node.docCommentBefore?_cons_of_ne (by rwa [kind_annotate]), isDocComment_annotate]
      split at hlook
      · simp at hlook
      · rename_i hdoc
        rw [if_neg hdoc]

/-- **A block can be attached before a second run or after it.** -/
theorem reannotated_attachBefore {m m' : Node}
    (h : Node.LayoutApart nearestFirst) (hspan : m.span = m'.span) (doc : String) :
    reannotated docs newline (attachBefore nearestFirst m doc newline) =
      attachBefore (reannotated docs newline nearestFirst) m' doc newline := by
  have hindent : indentationAfter (reannotated docs newline nearestFirst) =
      indentationAfter nearestFirst := indentationAfter_reannotated h
  cases hlook : Node.docCommentBefore? nearestFirst with
  | none =>
    have hlook' : Node.docCommentBefore? (reannotated docs newline nearestFirst) = none :=
      docCommentBefore?_reannotated_eq_none h hlook
    rw [attachBefore_of_docCommentBefore?_eq_none hlook,
      attachBefore_of_docCommentBefore?_eq_none hlook', hindent, ← hspan]
    have hput : ∀ t ∈ [Node.trivia (newline ++ indentationAfter nearestFirst) m.span.before,
        .comment (renderBlock doc (indentationAfter nearestFirst) newline) m.span.before],
        t.kind ≠ .method ∧ t.HoldsNoMethod := by
      intro t ht
      rcases List.mem_pair.1 ht with rfl | rfl
      · exact ⟨by simp, Node.holdsNoMethod_of_isLeaf rfl⟩
      · exact ⟨by simp, Node.holdsNoMethod_of_isLeaf rfl⟩
    exact reannotated_append hput nearestFirst
  | some x =>
    obtain ⟨k, c⟩ := x
    have hc := Node.isDocComment_of_docCommentBefore? hlook
    obtain ⟨ts, rest, rfl, -, hts⟩ := Node.exists_of_docCommentBefore? hlook
    have hfront : ∀ d : Node, d.isDocComment = true →
        reannotated docs newline (ts ++ d :: rest) = ts ++ d :: reannotated docs newline rest := by
      intro d hd
      have hstay : ∀ t ∈ ts ++ [d], t.kind ≠ .method ∧ t.HoldsNoMethod := by
        intro t ht
        rcases List.mem_append.1 ht with ht | ht
        · exact ⟨by simp [hts t ht], h t (by simp [ht]) (hts t ht)⟩
        · rw [List.mem_singleton.1 ht]
          exact ⟨by simp [Node.kind_of_isDocComment hd],
            Node.holdsNoMethod_of_isLeaf (Node.isLeaf_of_isDocComment hd)⟩
      simpa using reannotated_append hstay rest
    have hi := isIndentation_indentationAfter (ts ++ c :: rest)
    have hblock : (c.withText
        (renderBlock doc (indentationAfter (ts ++ c :: rest)) newline)).isDocComment = true :=
      isDocComment_leaf_renderBlock (Node.kind_of_isDocComment hc) hi doc newline
    rw [hfront c hc] at hindent ⊢
    rw [attachBefore_of_docComment hts hc, attachBefore_of_docComment hts hc, hfront _ hblock,
      hindent]

/-! ### Two runs -/

theorem docFor?_override (first second : DocMap) (n : Node) :
    docFor? (first.override second) n = (docFor? second n).or (docFor? first n) := by
  unfold docFor?
  split
  · cases n.childByField? "name" with
    | none => rfl
    | some c =>
      simp only [Option.bind_some, DocMap.get?_override, Option.map_or]
  · rfl

/-- Layout that is put in holds nothing. -/
theorem Node.LayoutApart.attachBefore (h : Node.LayoutApart nearestFirst) (m : Node)
    (doc newline : String) : Node.LayoutApart (attachBefore nearestFirst m doc newline) := by
  intro t ht hk
  unfold DocBlocks.attachBefore at ht
  dsimp only at ht
  split at ht
  · rcases List.mem_append.1 ht with ht | ht
    · exact h t (List.mem_of_mem_take ht) hk
    · rcases List.mem_cons.1 ht with rfl | ht
      · exact Node.holdsNoMethod_of_isLeaf rfl
      · exact h t (List.mem_of_mem_drop ht) hk
  · rcases List.mem_cons.1 ht with rfl | ht
    · exact Node.holdsNoMethod_of_isLeaf rfl
    · rcases List.mem_cons.1 ht with rfl | ht
      · exact Node.holdsNoMethod_of_isLeaf rfl
      · exact h t ht hk

theorem Node.LayoutApart.passedWith (h : Node.LayoutApart nearestFirst)
    (hn : n.kind = .trivia → n.HoldsNoMethod) :
    Node.LayoutApart (passedWith docs newline nearestFirst n) := by
  refine Node.layoutApart_cons.2 ⟨hn, ?_⟩
  cases docFor? docs n with
  | none => exact h
  | some x => exact h.attachBefore n x.2 newline

/-- **Two runs pass a node as one run does**, given that they are one run inside the node. -/
theorem reannotated_passedWith {first second : DocMap} (hn : IsNewline newline)
    (hapart : n.NamesApart)
    (htwice : annotate second newline (annotate first newline n) =
      annotate (first.override second) newline n)
    (hseen : Node.LayoutApart nearestFirst) :
    reannotated second newline
        (passedWith first newline nearestFirst (annotate first newline n)) =
      passedWith (first.override second) newline (reannotated second newline nearestFirst)
        (annotate (first.override second) newline n) := by
  have hblock : ∀ doc, reannotated second newline
      (attachBefore nearestFirst (annotate first newline n) doc newline) =
        attachBefore (reannotated second newline nearestFirst)
          (annotate (first.override second) newline n) doc newline :=
    fun doc => reannotated_attachBefore hseen (by simp) doc
  simp only [passedWith, reannotated_cons, htwice, hapart.docFor?_annotate, docFor?_override]
  -- which of the maps has documentation for the node
  cases docFor? first n with
  | none => cases docFor? second n <;> rfl
  | some x =>
    cases docFor? second n with
    | none => simp [hblock]
    | some y =>
      -- the block of the second run takes the place of the first one
      simp only [Option.some_or, Option.elim_some, hblock]
      rw [attachBefore_attachBefore hn rfl]

/-- **Two runs over neighbouring nodes are one run**, given that they are inside the nodes. -/
theorem reannotated_attachAll {first second : DocMap} {ns : List Node} (hn : IsNewline newline)
    (hapart : ∀ n ∈ ns, n.NamesApart)
    (hns : ∀ n ∈ ns, annotate second newline (annotate first newline n) =
      annotate (first.override second) newline n)
    (hlayout : Node.LayoutApart ns) {nearestFirst : List Node}
    (hseen : Node.LayoutApart nearestFirst) :
    reannotated second newline
        (attachAll first newline nearestFirst (ns.map (annotate first newline))) =
      attachAll (first.override second) newline (reannotated second newline nearestFirst)
        (ns.map (annotate (first.override second) newline)) := by
  induction ns generalizing nearestFirst with
  | nil => rfl
  | cons n ns ih =>
    rw [List.forall_mem_cons] at hapart hns
    obtain ⟨hself, hrest⟩ := Node.layoutApart_cons.1 hlayout
    have hkept : (annotate first newline n).kind = .trivia →
        (annotate first newline n).HoldsNoMethod := by
      intro hk
      have hnone := hself (by simpa using hk)
      rwa [annotate_of_holdsNoMethod hnone]
    rw [List.map_cons, List.map_cons, attachAll_cons, attachAll_cons,
      ← reannotated_passedWith hn hapart.1 hns.1 hseen]
    exact ih hapart.2 hns.2 hrest (hseen.passedWith hkept)

/-- Two runs over a tree are one run. -/
theorem annotate_annotate_of_namesApart {first second : DocMap} {n : Node} (h : n.NamesApart)
    (hn : IsNewline newline) :
    annotate second newline (annotate first newline n) =
      annotate (first.override second) newline n := by
  induction n using Node.treeInduction with
  | leaf l t => rfl
  | branch l cs ih =>
    have hagain : reannotated second newline
        (attachAll first newline [] (cs.map (annotate first newline))) =
          attachAll (first.override second) newline []
            (cs.map (annotate (first.override second) newline)) :=
      reannotated_attachAll hn (fun c hc => h.of_mem_children hc)
        (fun c hc => ih c hc (h.of_mem_children hc)) (h.trivia _ (Node.self_mem_descendants _))
        (List.forall_mem_nil _)
    simp only [annotate_branch, annotateAll_eq_map]
    rw [← reannotated, hagain]

/-- Maps with the same documentation of every name document in the same way. -/
theorem annotate_congr (h : ∀ name, docs.get? name = docs'.get? name) (n : Node) :
    annotate docs newline n = annotate docs' newline n := by
  have hdoc : docFor? docs = docFor? docs' := by
    funext n
    simp only [docFor?, h]
  have hall : ∀ nearestFirst ns, attachAll docs newline nearestFirst ns =
      attachAll docs' newline nearestFirst ns := by
    intro nearestFirst ns
    induction ns generalizing nearestFirst with
    | nil => rfl
    | cons n ns ih => simp only [attachAll, hdoc, ih]
  induction n using Node.treeInduction with
  | leaf l t => rfl
  | branch l cs ih =>
    simp only [annotate_branch, annotateAll_eq_map, hall, List.map_congr_left ih]

theorem Node.namesApart_of_parseSource {source : String} {root : Node}
    (h : parseSource source = .ok root) : root.NamesApart :=
  (SourceReader.regular_of_parseWith (g := sourceReader) h).namesApart

/-- **Documentation is overridden.** Documenting a tree with one map and then with another is
documenting it once, the second map winning; so the same map again changes nothing, and maps for
different names can be applied in either order. It holds of all trees in which names of methods
stand apart, and those are among them that were read. -/
theorem annotate_override :
    (∀ {n : Node} {newline : String} (first second : DocMap), n.NamesApart → IsNewline newline →
      annotate second newline (annotate first newline n) =
          annotate (first.override second) newline n ∧
        annotate first newline (annotate first newline n) = annotate first newline n ∧
        ((∀ name ∈ first.names, name ∉ second.names) →
          annotate second newline (annotate first newline n) =
            annotate first newline (annotate second newline n))) ∧
      ∀ {source : String} {root : Node}, parseSource source = .ok root → root.NamesApart := by
  refine ⟨fun first second h hn => ⟨annotate_annotate_of_namesApart h hn, ?_, fun hdisjoint => ?_⟩,
    Node.namesApart_of_parseSource⟩
  · rw [annotate_annotate_of_namesApart h hn]
    exact annotate_congr (fun name => by simp [DocMap.get?_override]) _
  · rw [annotate_annotate_of_namesApart h hn, annotate_annotate_of_namesApart h hn]
    refine annotate_congr (fun name => ?_) _
    rw [DocMap.get?_override, DocMap.get?_override]
    by_cases hname : name ∈ first.names
    · simp [DocMap.get?_eq_none (hdisjoint name hname)]
    · simp [DocMap.get?_eq_none hname]

/-- A class with a method that is documented by the one map, by the other, and by both. -/
theorem annotate_override_sample :
    (sampleClass [sampleMethod]).NamesApart ∧ IsNewline "\n" ∧
      (annotate ⟨[("f", "y")]⟩ "\n" (annotate ⟨[("f", "x")]⟩ "\n" (sampleClass [sampleMethod])) =
        annotate (DocMap.override ⟨[("f", "x")]⟩ ⟨[("f", "y")]⟩) "\n" (sampleClass [sampleMethod])) ∧
      (∀ name ∈ DocMap.names ⟨[("f", "x")]⟩, name ∉ DocMap.names ⟨[("g", "y")]⟩) ∧
      annotate ⟨[("g", "y")]⟩ "\n" (annotate ⟨[("f", "x")]⟩ "\n" (sampleClass [sampleMethod])) =
        annotate ⟨[("f", "x")]⟩ "\n" (annotate ⟨[("g", "y")]⟩ "\n" (sampleClass [sampleMethod])) ∧
      ∃ root, parseSource "\uFEFF" = .ok root ∧ root.NamesApart := by
  have hapart : (sampleClass [sampleMethod]).NamesApart := by decide +kernel
  have hdisjoint : ∀ name ∈ DocMap.names ⟨[("f", "x")]⟩, name ∉ DocMap.names ⟨[("g", "y")]⟩ := by
    decide
  have hread : parseSource "\uFEFF" =
      .ok (Node.placeIn "\uFEFF" (Parsed.root sourceRules ⟨[], "\uFEFF"⟩)) := rfl
  exact ⟨hapart, .inl rfl, (annotate_override.1 _ _ hapart (.inl rfl)).1, hdisjoint,
    (annotate_override.1 _ _ hapart (.inl rfl)).2.2 hdisjoint, _, hread,
    annotate_override.2 hread⟩

/-- A tree that was not read: a method stands inside the layout in front of another one. -/
def layoutTree : Node :=
  .branch ⟨.program, "", none, .nowhere⟩
    [.branch ⟨.trivia, "", none, .nowhere⟩
        [.leaf ⟨.other, "", none, .nowhere⟩ "\n  ", sampleMethod],
      .branch ⟨.method, "", none, .nowhere⟩ [.leaf ⟨.name, "", some "name", .nowhere⟩ "g"]]

/-- **Layout must hold no method.** The indentation of what follows is told by the text of the
layout, and documenting the method inside changes this text. Nothing but leaves are names here, and
still two runs are not one. -/
theorem annotate_annotate_ne_layoutTree :
    (∀ m ∈ layoutTree.descendants, m.kind = .method → ∀ c ∈ m.childByField? "name",
      c.kind ≠ .comment ∧ c.HoldsNoMethod) ∧ IsNewline "\n" ∧
      annotate ⟨[("f", "x")]⟩ "\n" (annotate ⟨[("g", "y")]⟩ "\n" layoutTree) ≠
        annotate (DocMap.override ⟨[("g", "y")]⟩ ⟨[("f", "x")]⟩) "\n" layoutTree := by
  have hnames : ∀ m ∈ layoutTree.descendants, m.kind = .method → ∀ c ∈ m.childByField? "name",
      c.kind ≠ .comment ∧ c.HoldsNoMethod := by
    decide +kernel
  have htext : (annotate ⟨[("f", "x")]⟩ "\n" (annotate ⟨[("g", "y")]⟩ "\n" layoutTree)).text ≠
      (annotate (DocMap.override ⟨[("g", "y")]⟩ ⟨[("f", "x")]⟩) "\n" layoutTree).text := by
    decide
  exact ⟨hnames, .inl rfl, fun h => htext (congrArg Node.text h)⟩

end DocBlocks
