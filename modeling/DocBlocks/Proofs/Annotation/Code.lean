import DocBlocks.Proofs.Annotation.Edits

/-!
# Documentation and code

`SourceReader.code_of_writeDocsWith`: if a source can be documented, the output has a tree, and
without comments and trivia it is the tree of the source, as long as no text that is used closes
early. The condition is the right one: `isBlockComment_renderBlock_iff` says that exactly the other
texts end their own comment and let the rest of the text into the program.

Of the grammar only one thing is used: comments are extras (`SourceReader.CommentsAreExtras`). They
may stand between any two tokens, and where they stand changes no other node. A reader of one class
with one method is of this kind (`commentsAreExtras_sampleReader`).
-/

namespace DocBlocks

/-! ### Changing comments -/

/-- Whether a text is a line break and an indentation. -/
def IsLayout (text : String) : Prop :=
  ∃ newline indent, IsNewline newline ∧ IsIndentation indent.toList ∧ text = newline ++ indent

mutual

/-- Whether a tree is another one with comments put in front of methods and documentation comments
replaced, all of them by block comments. -/
inductive Recommented : Node → Node → Prop where
  | leaf (l : Label) (t : String) : Recommented (.leaf l t) (.leaf l t)
  | branch (l : Label) {cs ds : List Node} : RecommentedAll cs ds →
      Recommented (.branch l cs) (.branch l ds)

/-- Whether neighbouring nodes are others with comments put in and replaced. -/
inductive RecommentedAll : List Node → List Node → Prop where
  | nil : RecommentedAll [] []
  | keep {c d : Node} {cs ds : List Node} : Recommented c d → RecommentedAll cs ds →
      RecommentedAll (c :: cs) (d :: ds)
  | insert {text layout : String} {m d : Node} {cs ds : List Node} : IsBlockComment text →
      IsLayout layout → m.kind = .method → Recommented m d → RecommentedAll cs ds →
      RecommentedAll (m :: cs) (.comment text .nowhere :: .trivia layout .nowhere :: d :: ds)
  | replace {text : String} {c : Node} {cs ds : List Node} : IsBlockComment text →
      c.isDocComment = true → RecommentedAll cs ds →
      RecommentedAll (c :: cs) (c.withText text :: ds)

end

/-- Whether comments are extras to a reader: a source in which comments were changed, if it still
has a tree, has the tree of the source with the same comments changed. -/
def SourceReader.CommentsAreExtras (g : SourceReader) : Prop :=
  ∀ ⦃source : String⦄ ⦃root changed root' : Node⦄, g.tree? source = some root →
    Recommented root.bare changed → g.tree? changed.text = some root' → root'.bare = changed

theorem RecommentedAll.append {xs ys xs' ys' : List Node} (h : RecommentedAll xs ys)
    (h' : RecommentedAll xs' ys') : RecommentedAll (xs ++ xs') (ys ++ ys') := by
  induction xs generalizing ys with
  | nil =>
    cases h
    exact h'
  | cons x xs ih =>
    cases h with
    | keep hx hxs => exact .keep hx (ih hxs)
    | insert htext hlayout hk hx hxs => exact .insert htext hlayout hk hx (ih hxs)
    | replace htext hc hxs => exact .replace htext hc (ih hxs)

theorem recommentedAll_append_iff {xs ys zs : List Node} :
    RecommentedAll (xs ++ ys) zs ↔
      ∃ xs' ys', RecommentedAll xs xs' ∧ RecommentedAll ys ys' ∧ zs = xs' ++ ys' := by
  refine ⟨fun h => ?_, fun ⟨xs', ys', hxs, hys, he⟩ => he ▸ hxs.append hys⟩
  induction xs generalizing zs with
  | nil => exact ⟨[], zs, .nil, h, rfl⟩
  | cons x xs ih =>
    rw [List.cons_append] at h
    cases h with
    | keep hx hxs =>
      obtain ⟨xs', ys', hxs', hys', rfl⟩ := ih hxs
      exact ⟨_, ys', .keep hx hxs', hys', rfl⟩
    | insert htext hlayout hk hx hxs =>
      obtain ⟨xs', ys', hxs', hys', rfl⟩ := ih hxs
      exact ⟨_, ys', .insert htext hlayout hk hx hxs', hys', rfl⟩
    | replace htext hx hxs =>
      obtain ⟨xs', ys', hxs', hys', rfl⟩ := ih hxs
      exact ⟨_, ys', .replace htext hx hxs', hys', rfl⟩

theorem recommented_branch_iff {l : Label} {cs : List Node} {d : Node} :
    Recommented (.branch l cs) d ↔ ∃ ds, RecommentedAll cs ds ∧ d = .branch l ds :=
  ⟨fun h => by cases h with | branch _ h => exact ⟨_, h, rfl⟩, fun ⟨_, h, hd⟩ => hd ▸ .branch l h⟩

theorem recommentedAll_nil_iff {ds : List Node} : RecommentedAll [] ds ↔ ds = [] :=
  ⟨fun h => by cases h; rfl, fun h => h ▸ .nil⟩

theorem recommentedAll_leaf_cons_iff {l : Label} {t : String} {cs ds : List Node}
    (hm : l.kind ≠ .method) (hc : l.kind ≠ .comment) :
    RecommentedAll (.leaf l t :: cs) ds ↔ ∃ ds', RecommentedAll cs ds' ∧ ds = .leaf l t :: ds' := by
  refine ⟨fun h => ?_, fun ⟨ds', hds, he⟩ => he ▸ .keep (.leaf l t) hds⟩
  cases h with
  | keep hd hds =>
    cases hd
    exact ⟨_, hds, rfl⟩
  | insert _ _ hk => exact absurd hk hm
  | replace _ hdoc => exact absurd (Node.kind_of_isDocComment hdoc) hc

theorem recommentedAll_branch_cons_iff {l : Label} {es cs ds : List Node} (hm : l.kind ≠ .method) :
    RecommentedAll (.branch l es :: cs) ds ↔
      ∃ es' ds', RecommentedAll es es' ∧ RecommentedAll cs ds' ∧ ds = .branch l es' :: ds' := by
  refine ⟨fun h => ?_, fun ⟨es', ds', hes, hds, he⟩ => he ▸ .keep (.branch l hes) hds⟩
  cases h with
  | keep hd hds =>
    obtain ⟨es', hes, rfl⟩ := recommented_branch_iff.1 hd
    exact ⟨es', _, hes, hds, rfl⟩
  | insert _ _ hk => exact absurd hk hm
  | replace _ hdoc => simpa [Node.isLeaf] using Node.isLeaf_of_isDocComment hdoc

theorem RecommentedAll.of_leaves {ts : List Node} (h : ∀ t ∈ ts, t.isLeaf = true) :
    RecommentedAll (ts.map Node.bare) (ts.map Node.bare) := by
  induction ts with
  | nil => exact .nil
  | cons t ts ih =>
    refine .keep ?_ (ih fun u hu => h u (List.mem_cons_of_mem _ hu))
    cases t with
    | leaf l x => exact .leaf _ x
    | branch l cs => simpa [Node.isLeaf] using h _ List.mem_cons_self

/-! ### Annotated trees are recommented -/

variable {docs : DocMap} {newline : String}

/-- Whether no documentation of a method in a tree closes early. -/
def NoneClosesEarly (docs : DocMap) (n : Node) : Prop :=
  ∀ m ∈ n.descendants, ∀ name doc, docFor? docs m = some (name, doc) → ¬ ClosesEarly doc

theorem NoneClosesEarly.of_mem_children {n c : Node} (h : NoneClosesEarly docs n)
    (hc : c ∈ n.children) : NoneClosesEarly docs c :=
  fun m hm => h m (Node.mem_descendants_trans hm (Node.mem_descendants_of_mem_children hc))

theorem noneClosesEarly_of_entries (h : ∀ x ∈ docs.entries, ¬ ClosesEarly x.2) (n : Node) :
    NoneClosesEarly docs n := by
  intro m _ name doc hdoc
  simp only [docFor?, Option.ite_none_right_eq_some, Option.bind_eq_some_iff,
    Option.map_eq_some_iff, Prod.mk.injEq] at hdoc
  obtain ⟨-, c, -, d, hget, -, rfl⟩ := hdoc
  obtain ⟨front, back, hentries, -⟩ := List.lookup_eq_some_iff.1 hget
  exact h (c.text, d) (by simp [hentries])

theorem bare_withText (c : Node) (t : String) : (c.withText t).bare = c.bare.withText t := by
  cases c <;> rfl

theorem isDocComment_bare (c : Node) : c.bare.isDocComment = c.isDocComment := by
  simp [Node.isDocComment]

theorem Attached.recommentedAll {xs ys : List Node} (h : Attached docs newline xs ys)
    (hn : IsNewline newline) (hearly : ∀ c ∈ xs, NoneClosesEarly docs c)
    (hchild : ∀ c ∈ xs, Recommented c.bare (annotate docs newline c).bare) :
    RecommentedAll (xs.map Node.bare) (ys.map Node.bare) := by
  induction h with
  | nil => exact .nil
  | @keep xs ys n hxs hdoc ih =>
    have hfront := ih (fun c hc => hearly c (by simp [hc])) fun c hc => hchild c (by simp [hc])
    rw [List.map_append, List.map_append]
    exact hfront.append (.keep (hchild n (by simp)) .nil)
  | @insert xs ys m name doc hxs hdoc hlook ih =>
    have hfront := ih (fun c hc => hearly c (by simp [hc])) fun c hc => hchild c (by simp [hc])
    have hi := isIndentation_indentationAfter xs.reverse
    have hblock := (isBlockComment_renderBlock_iff hi hn).2
      (hearly m (by simp) m m.self_mem_descendants name doc hdoc)
    have hkind : m.bare.kind = .method := by simpa using kind_of_docFor? hdoc
    rw [List.map_append, List.map_append]
    exact hfront.append (.insert hblock ⟨newline, _, hn, hi, rfl⟩ hkind (hchild m (by simp)) .nil)
  | @replace xs ys ts c m name doc hxs hdoc hc hts ih =>
    have hfront := ih (fun d hd => hearly d (by simp [hd])) fun d hd => hchild d (by simp [hd])
    have hi := isIndentation_indentationAfter (xs ++ c :: ts).reverse
    have hblock := (isBlockComment_renderBlock_iff hi hn).2
      (hearly m (by simp) m m.self_mem_descendants name doc hdoc)
    -- between the comment and the method nothing changes
    have hback : RecommentedAll ((ts ++ [m]).map Node.bare)
        ((ts ++ [annotate docs newline m]).map Node.bare) := by
      rw [List.map_append, List.map_append]
      exact (RecommentedAll.of_leaves fun t ht => (hts t ht).2).append
        (.keep (hchild m (by simp)) .nil)
    have hreplace := RecommentedAll.replace hblock ((isDocComment_bare c).trans hc) hback
    simpa [bare_withText] using hfront.append hreplace

/-- **An annotated tree is the tree with comments changed**, if no documentation closes early. -/
theorem recommented_annotate {n : Node} (h : n.Regular) (hn : IsNewline newline)
    (hearly : NoneClosesEarly docs n) : Recommented n.bare (annotate docs newline n).bare := by
  induction n using Node.treeInduction with
  | leaf l t => exact .leaf _ t
  | branch l cs ih =>
    have hcs := (attached_annotate h).recommentedAll hn (fun c hc => hearly.of_mem_children hc)
      fun c hc => ih c hc (h.of_mem_children hc) (hearly.of_mem_children hc)
    have hbranch := Recommented.branch { l with span := .nowhere } hcs
    simpa [Node.bare, Node.bareAll_eq_map, annotate] using hbranch

/-! ### Annotated trees have the same code -/

theorem codeAll_append (xs ys : List Node) :
    Node.codeAll (xs ++ ys) = Node.codeAll xs ++ Node.codeAll ys := by
  induction xs with
  | nil => rfl
  | cons x xs ih =>
    simp only [List.cons_append, Node.codeAll, ih]
    split <;> rfl

theorem Attached.codeAll_eq {xs ys : List Node} (h : Attached docs newline xs ys)
    (hchild : ∀ c ∈ xs, (annotate docs newline c).code = c.code) :
    Node.codeAll ys = Node.codeAll xs := by
  have hlast : ∀ n : Node, (annotate docs newline n).code = n.code →
      Node.codeAll [annotate docs newline n] = Node.codeAll [n] := by
    intro n hn
    simp [Node.codeAll, hn]
  induction h with
  | nil => rfl
  | @keep xs ys n hxs hdoc ih =>
    rw [codeAll_append, codeAll_append, ih fun c hc => hchild c (by simp [hc]),
      hlast n (hchild n (by simp))]
  | @insert xs ys m name doc hxs hdoc hlook ih =>
    rw [codeAll_append, codeAll_append, ih fun c hc => hchild c (by simp [hc]),
      ← hlast m (hchild m (by simp))]
    simp [Node.codeAll, Kind.isTrivia]
  | @replace xs ys ts c m name doc hxs hdoc hc hts ih =>
    have hk := Node.kind_of_isDocComment hc
    have hk' : ∀ t, (c.withText t).kind = .comment := fun t => hk
    have htail : ∀ c' : Node, c'.kind = .comment → ∀ ds,
        Node.codeAll (c' :: ds) = Node.codeAll ds := by
      intro c' hc' ds
      simp [Node.codeAll, hc', Kind.isTrivia]
    simp only [List.append_assoc, List.cons_append]
    rw [codeAll_append, codeAll_append, ih fun d hd => hchild d (by simp [hd]), htail _ (hk' _),
      htail _ hk, codeAll_append, codeAll_append, hlast m (hchild m (by simp))]

/-- **Annotating a tree leaves its code alone.** -/
theorem code_annotate {n : Node} (h : n.Regular) : (annotate docs newline n).code = n.code := by
  induction n using Node.treeInduction with
  | leaf l t => rfl
  | branch l cs ih =>
    have hcs := (attached_annotate h).codeAll_eq fun c hc => ih c hc (h.of_mem_children hc)
    simpa [annotate, Node.code] using hcs

/-! ### Trees without documentation -/

theorem Attached.eq_of_docFor?_eq_none {xs ys : List Node} (h : Attached docs newline xs ys)
    (hdoc : ∀ c ∈ xs, docFor? docs c = none) (hchild : ∀ c ∈ xs, annotate docs newline c = c) :
    ys = xs := by
  induction h with
  | nil => rfl
  | @keep xs ys n hxs _ ih =>
    rw [ih (fun c hc => hdoc c (by simp [hc])) fun c hc => hchild c (by simp [hc]),
      hchild n (by simp)]
  | @insert xs ys m name doc hxs hm hlook ih => simp [hdoc m (by simp)] at hm
  | @replace xs ys ts c m name doc hxs hm hc hts ih => simp [hdoc m (by simp)] at hm

theorem documentedAmong_eq_nil {ns : List Node} :
    documentedAmong docs ns = [] ↔
      ∀ n ∈ ns, docFor? docs n = none ∧ documentedIn docs n = [] := by
  induction ns with
  | nil => simp [documentedAmong]
  | cons n ns ih =>
    simp only [documentedAmong, List.append_eq_nil_iff, ih, List.forall_mem_cons]
    cases docFor? docs n <;> simp

/-- A tree without documented methods stays as it is. -/
theorem annotate_of_documentedIn_eq_nil {n : Node} (h : n.Regular)
    (hdoc : documentedIn docs n = []) : annotate docs newline n = n := by
  induction n using Node.treeInduction with
  | leaf l t => rfl
  | branch l cs ih =>
    have hnone := documentedAmong_eq_nil.1 hdoc
    have hcs := (attached_annotate h).eq_of_docFor?_eq_none (fun c hc => (hnone c hc).1)
      fun c hc => ih c hc (h.of_mem_children hc) (hnone c hc).2
    simpa [annotate] using hcs

/-! ### Comments of a class with one method -/

/-- A class changes with its members. -/
theorem recommented_sampleClass_iff {members : List Node} {changed : Node} :
    Recommented (sampleClass members) changed ↔
      ∃ members', RecommentedAll members members' ∧ changed = sampleClass members' := by
  simp (disch := decide) [sampleClass, Node.trivia, recommented_branch_iff, recommentedAll_nil_iff,
    recommentedAll_leaf_cons_iff, recommentedAll_branch_cons_iff, recommentedAll_append_iff]

theorem recommented_sampleMethod_iff {d : Node} :
    Recommented sampleMethod d ↔ d = sampleMethod := by
  simp (disch := decide) [sampleMethod, Node.trivia, recommented_branch_iff, recommentedAll_nil_iff,
    recommentedAll_leaf_cons_iff, recommentedAll_branch_cons_iff]

/-- A method changes by a comment in front of it. -/
theorem eq_of_recommentedAll_sampleMethod {ds : List Node}
    (h : RecommentedAll [sampleMethod] ds) :
    ds = [sampleMethod] ∨ ∃ text layout, IsBlockComment text ∧
      ds = [.comment text .nowhere, .trivia layout .nowhere] ++ [sampleMethod] := by
  cases h with
  | keep hm hds =>
    rw [recommented_sampleMethod_iff.1 hm, recommentedAll_nil_iff.1 hds]
    exact .inl rfl
  | insert htext hlayout hk hm hds =>
    rw [recommented_sampleMethod_iff.1 hm, recommentedAll_nil_iff.1 hds]
    exact .inr ⟨_, _, htext, rfl⟩
  | replace _ hdoc => simp [sampleMethod, Node.isDocComment] at hdoc

/-- A comment changes by its text. -/
theorem eq_of_recommentedAll_sampleComment {ds : List Node} (h : RecommentedAll sampleComment ds) :
    ∃ text, IsBlockComment text ∧ ds = [.comment text .nowhere, .trivia "\n" .nowhere] := by
  have htrivia : ∀ {ds : List Node}, RecommentedAll [.trivia "\n" .nowhere] ds →
      ds = [.trivia "\n" .nowhere] := by
    simp (disch := decide) [Node.trivia, recommentedAll_nil_iff, recommentedAll_leaf_cons_iff]
  cases h with
  | keep hc hds =>
    cases hc
    have hblock : IsBlockComment "/**\n * x\n */" :=
      ⟨['*', '\n', ' ', '*', ' ', 'x', '\n', ' '], by decide, by decide⟩
    exact ⟨_, hblock, by rw [htrivia hds]; rfl⟩
  | insert _ _ hk => simp at hk
  | replace htext hdoc hds => exact ⟨_, htext, by rw [htrivia hds]; rfl⟩

/-- What is above the method begins with a block comment only if it is the comment. -/
theorem eq_sampleComment {above rest : List Node} {text : String} {s : Span}
    (habove : above = [] ∨ above = sampleComment) (htext : IsBlockComment text)
    (h : Node.textAll above = Node.textAll (.comment text s :: rest)) :
    above = sampleComment ∧ text = "/**\n * x\n */" ∧ Node.textAll rest = "\n" := by
  obtain ⟨body, hbody, -⟩ := htext
  have hlist : (Node.textAll above).toList = text.toList ++ (Node.textAll rest).toList := by
    rw [h, ← String.toList_append]
    rfl
  rcases habove with rfl | rfl
  · simp [hbody, Node.textAll] at hlist
  · have hends : ∀ p ∈ (Node.textAll sampleComment).toList.inits, ['*', '/'] <:+ p →
        p = "/**\n * x\n */".toList := by decide
    have heq : text.toList = "/**\n * x\n */".toList := by
      refine hends _ ((List.mem_inits _ _).2 ⟨_, hlist.symm⟩) ?_
      rw [hbody]
      exact List.suffix_append _ _
    have hsplit : (Node.textAll sampleComment).toList = "/**\n * x\n */".toList ++ ['\n'] := by
      decide
    rw [heq, hsplit] at hlist
    exact ⟨rfl, String.toList_inj.1 heq, String.toList_inj.1 (List.append_cancel_left hlist).symm⟩

/-- What stands above the method shows in the text of the class. -/
theorem textAll_eq_of_text_sampleClass {xs ys : List Node}
    (h : (sampleClass (xs ++ [sampleMethod])).text = (sampleClass (ys ++ [sampleMethod])).text) :
    Node.textAll xs = Node.textAll ys := by
  simpa [sampleClass, Node.text, Node.textAll, Node.trivia, Node.textAll_append] using h

theorem exists_of_tree?_sampleReader {source : String} {root : Node}
    (h : sampleReader.tree? source = some root) :
    root.bare.text = source ∧ ∃ above, (above = [] ∨ above = sampleComment) ∧
      root.bare = sampleClass (above ++ [sampleMethod]) := by
  obtain ⟨t, ht, rfl⟩ := Option.map_eq_some_iff.1 h
  have hlossless := RangedTree.lossless_syntaxTree (sampleReader.legible_of_read ht).wellNested
  refine ⟨by rw [Node.text_bare, hlossless.text_eq], ?_⟩
  -- the trees over the two sources are the two classes
  have hbare : ∀ x ∈ sampleTrees, (x.2.syntaxTree x.1).bare = sampleClass [sampleMethod] ∨
      (x.2.syntaxTree x.1).bare = sampleClass (sampleComment ++ [sampleMethod]) := by
    decide +kernel
  obtain ⟨front, back, htrees, -⟩ := List.lookup_eq_some_iff.1 ht
  rcases hbare (source, t) (by simp [htrees]) with hone | htwo
  · exact ⟨[], .inl rfl, hone⟩
  · exact ⟨sampleComment, .inr rfl, htwo⟩

theorem commentsAreExtras_sampleReader : sampleReader.CommentsAreExtras := by
  intro source root changed root' hroot hchanged hroot'
  obtain ⟨-, above, habove, hbare⟩ := exists_of_tree?_sampleReader hroot
  obtain ⟨htext, above', habove', hbare'⟩ := exists_of_tree?_sampleReader hroot'
  rw [hbare] at hchanged
  rw [hbare'] at htext ⊢
  obtain ⟨members, hmembers, rfl⟩ := recommented_sampleClass_iff.1 hchanged
  obtain ⟨front, back, hfront, hback, rfl⟩ := recommentedAll_append_iff.1 hmembers
  rcases eq_of_recommentedAll_sampleMethod hback with rfl | ⟨text, layout, hblock, rfl⟩
  · have hall := textAll_eq_of_text_sampleClass htext
    rcases habove with rfl | rfl
    · obtain rfl := recommentedAll_nil_iff.1 hfront
      rcases habove' with rfl | rfl
      · rfl
      · exact absurd hall (by decide)
    · obtain ⟨text, hblock, rfl⟩ := eq_of_recommentedAll_sampleComment hfront
      obtain ⟨rfl, rfl, -⟩ := eq_sampleComment habove' hblock hall
      rfl
  · rw [← List.append_assoc] at htext ⊢
    have hall := textAll_eq_of_text_sampleClass htext
    rcases habove with rfl | rfl
    · obtain rfl := recommentedAll_nil_iff.1 hfront
      obtain ⟨rfl, rfl, hlayout⟩ := eq_sampleComment habove' hblock hall
      obtain rfl : layout = "\n" := by simpa [Node.textAll] using hlayout
      rfl
    · -- no class that is known holds two comments
      obtain ⟨text', hblock', rfl⟩ := eq_of_recommentedAll_sampleComment hfront
      obtain ⟨-, -, hrest⟩ := eq_sampleComment habove' hblock' hall
      obtain ⟨body, hbody, -⟩ := hblock
      simpa [Node.textAll, hbody] using congrArg String.toList hrest

/-! ### Writing -/

theorem isNewline_newlineOf (source : String) : IsNewline (newlineOf source) := by
  unfold newlineOf
  split
  · exact .inr rfl
  · exact .inl rfl

namespace SourceReader

variable {g : SourceReader} {source output : String}

/-- What was written has a tree. -/
theorem exists_parseWith_of_writeDocsWith
    (h : (writeDocsWith g.read source docs).result = .ok output) :
    ∃ root', parseWith g.read output = .ok root' := by
  obtain ⟨root, hroot, rfl, hnil | hroot'⟩ := writeDocsWith_eq_ok.1 h
  · rw [annotate_of_documentedIn_eq_nil (regular_of_parseWith hroot) hnil,
      (lossless_of_parseWith hroot).text_eq]
    exact ⟨root, hroot⟩
  · exact hroot'

/-- **The tree of what was written is the annotated tree**, spans apart, if comments are extras and
no documentation closes early. -/
theorem bare_of_parseWith_text_annotate (hg : g.CommentsAreExtras) {root root' : Node}
    (hroot : parseWith g.read source = .ok root) (hn : IsNewline newline)
    (hroot' : parseWith g.read (annotate docs newline root).text = .ok root')
    (hearly : NoneClosesEarly docs root) : root'.bare = (annotate docs newline root).bare := by
  have hchanged := recommented_annotate (regular_of_parseWith hroot) hn hearly
  rw [← Node.text_bare] at hroot'
  exact hg (tree?_of_parseWith hroot) hchanged (tree?_of_parseWith hroot')

/-- **Writing documentation leaves the code alone**: what was written has a tree, and it has the
code of the tree of the source, if comments are extras and no text that is used closes early. Every
text that does not close early makes one comment, and no other text does. -/
theorem code_of_writeDocsWith (g : SourceReader) (hg : g.CommentsAreExtras)
    (h : (writeDocsWith g.read source docs).result = .ok output) :
    (∃ root root', parseWith g.read source = .ok root ∧ parseWith g.read output = .ok root' ∧
      (NoneClosesEarly docs root → root'.code = root.code)) ∧
      ∀ doc indent newline, IsIndentation indent.toList → IsNewline newline →
        (IsBlockComment (renderBlock doc indent newline) ↔ ¬ ClosesEarly doc) := by
  refine ⟨?_, fun doc indent newline hi hn => isBlockComment_renderBlock_iff hi hn⟩
  obtain ⟨root', hroot'⟩ := exists_parseWith_of_writeDocsWith h
  obtain ⟨root, hroot, rfl, -⟩ := writeDocsWith_eq_ok.1 h
  refine ⟨root, root', hroot, hroot', fun hearly => ?_⟩
  have hbare := bare_of_parseWith_text_annotate hg hroot (isNewline_newlineOf source) hroot' hearly
  calc root'.code = root'.bare.code := (Node.code_bare root').symm
    _ = (annotate docs (newlineOf source) root).code := by rw [hbare, Node.code_bare]
    _ = root.code := code_annotate (regular_of_parseWith hroot)

/-- A class is documented, and its code stays as it was. -/
theorem code_of_writeDocsWith_sample :
    sampleReader.CommentsAreExtras ∧
      (writeDocsWith sampleReader.read (sampleClass [sampleMethod]).text ⟨[("f", "x")]⟩).result =
        .ok (sampleClass (sampleComment ++ [sampleMethod])).text ∧
      ∃ root root', parseWith sampleReader.read (sampleClass [sampleMethod]).text = .ok root ∧
        parseWith sampleReader.read (sampleClass (sampleComment ++ [sampleMethod])).text =
          .ok root' ∧ root'.code = root.code := by
  have hg := commentsAreExtras_sampleReader
  have h : (writeDocsWith sampleReader.read (sampleClass [sampleMethod]).text
      ⟨[("f", "x")]⟩).result = .ok (sampleClass (sampleComment ++ [sampleMethod])).text := by
    decide +kernel
  obtain ⟨⟨root, root', hroot, hroot', hcode⟩, -⟩ := code_of_writeDocsWith sampleReader hg h
  exact ⟨hg, h, root, root', hroot, hroot', hcode (noneClosesEarly_of_entries (by decide) root)⟩

end SourceReader

end DocBlocks
