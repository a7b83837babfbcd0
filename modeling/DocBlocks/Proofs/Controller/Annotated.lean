import DocBlocks.Proofs.Annotation.Override
import DocBlocks.Proofs.Controller.Extract

/-!
# Descriptions of documented trees

`extractTree_annotate`: a description shows of attached documentation what was attached and nothing
else. A documented tree is described like the tree before, method by method, except that a method
with documentation has its block for a comment; and the names that count as documented are those
that both the map and a method have.

Both look back from a method to the comment in front of it, but on lists that differ by all that was
put in before. `Attached.docCommentBefore?_eq` says that looking back does not notice. That nothing
else changes is because nothing else can be seen: the tests by which a description picks nodes pass
over comments and layout (`PassesOver`), and no method stands in what it reads as text
(`Node.Quiet`).
-/

namespace DocBlocks

variable {docs : DocMap} {newline : String}

/-! ### Picking nodes -/

/-- Whether a test of nodes by their labels passes over comments and layout without a role. -/
def PassesOver (p : Label → Bool) : Prop :=
  ∀ l : Label, l.kind.isTrivia = true → l.field = none → p l = false

theorem passesOver_kind {k : Kind} (hk : k.isTrivia = false) : PassesOver (·.kind == k) := by
  intro l hl _
  rw [beq_eq_false_iff_ne]
  rintro rfl
  simp [hl] at hk

theorem passesOver_field (role : String) : PassesOver (·.field == some role) := by
  intro l _ hl
  simp [hl]

/-- What is collected from annotated children is what was collected before, annotated, if it is so
for each child and comments and layout give nothing. -/
theorem Attached.flatMap_eq {xs ys : List Node} (h : Attached docs newline xs ys)
    {f : Node → List Node} (hnode : ∀ n ∈ xs, f (annotate docs newline n) =
      (f n).map (annotate docs newline))
    (hover : ∀ l t, l.kind.isTrivia = true → l.field = none → f (.leaf l t) = [])
    (hcomment : ∀ c ∈ xs, c.kind = .comment → c.field = none) :
    ys.flatMap f = (xs.flatMap f).map (annotate docs newline) := by
  induction h with
  | nil => rfl
  | @keep xs ys n hxs hdoc ih =>
    have ih := ih (fun c hc => hnode c (by simp [hc])) fun c hc => hcomment c (by simp [hc])
    have hlast := hnode n (by simp)
    simp [ih, hlast]
  | @insert xs ys m name doc hxs hdoc hlook ih =>
    have ih := ih (fun c hc => hnode c (by simp [hc])) fun c hc => hcomment c (by simp [hc])
    have hlast := hnode m (by simp)
    have hput : ∀ t s, f (.comment t s) = [] ∧ f (.trivia t s) = [] :=
      fun t s => ⟨hover _ t rfl rfl, hover _ t rfl rfl⟩
    simp [ih, hlast, hput]
  | @replace xs ys ts c m name doc hxs hdoc hc hts ih =>
    have ih := ih (fun c hc => hnode c (by simp [hc])) fun c hc => hcomment c (by simp [hc])
    have hlast := hnode m (by simp)
    have hk := Node.kind_of_isDocComment hc
    have hreplaced : ∀ t, f (.leaf c.label t) = [] :=
      fun t => hover _ t (by rw [show c.label.kind = .comment from hk]; rfl)
        (hcomment c (by simp) hk)
    obtain ⟨l, text, rfl⟩ : ∃ l text, c = .leaf l text := by
      cases c with
      | leaf l text => exact ⟨l, text, rfl⟩
      | branch l cs => simp [Node.isDocComment, Node.leafText?] at hc
    have hstay : ts.flatMap f = (ts.flatMap f).map (annotate docs newline) := by
      rw [List.map_flatMap]
      refine List.flatMap_congr fun t ht => ?_
      rw [← hnode t (by simp [ht]), annotate_of_isLeaf (hts t ht).2]
    simp only [Node.label_leaf] at hreplaced
    simp [ih, hlast, hreplaced, Node.withText, ← hstay]

section Regular

variable {n : Node} {p : Label → Bool}

theorem Node.Regular.field_eq_none (h : n.Regular) :
    ∀ c ∈ n.children, c.kind = .comment → c.field = none :=
  fun c hc => h.commentsPlain c (Node.mem_descendants_of_mem_children hc)

/-- **A test that passes over comments picks the same children as before.** -/
theorem filter_children_annotate (h : n.Regular) (hp : PassesOver p) :
    (annotate docs newline n).children.filter (p ·.label) =
      (n.children.filter (p ·.label)).map (annotate docs newline) := by
  have hfilter : ∀ ns : List Node,
      ns.filter (p ·.label) = ns.flatMap fun c => [c].filter (p ·.label) := by
    intro ns
    rw [← List.filter_flatMap, List.flatMap_singleton']
  rw [hfilter, hfilter]
  refine (attached_annotate h).flatMap_eq (fun c _ => ?_) (fun l t hl hf => ?_) h.field_eq_none
  · cases hc : p c.label <;> simp [hc]
  · simp [hp l hl hf]

/-- **A test that passes over comments picks the same descendants as before.** -/
theorem filter_descendants_annotate (h : n.Regular) (hp : PassesOver p) :
    (annotate docs newline n).descendants.filter (p ·.label) =
      (n.descendants.filter (p ·.label)).map (annotate docs newline) := by
  induction n using Node.treeInduction with
  | leaf l t => cases hl : p l <;> simp [annotate, Node.descendants_leaf, hl]
  | branch l cs ih =>
    have hattached : Attached docs newline cs (annotate docs newline (.branch l cs)).children :=
      attached_annotate h
    have hbelow := hattached.flatMap_eq (f := fun c => c.descendants.filter (p ·.label))
      (fun c hc => ih c hc (h.of_mem_children hc))
      (fun l t hl hf => by simp [Node.descendants_leaf, hp l hl hf]) h.field_eq_none
    rw [← List.filter_flatMap, ← List.filter_flatMap, ← Node.descendantsAll_eq_flatMap,
      ← Node.descendantsAll_eq_flatMap] at hbelow
    rw [Node.descendants_eq, Node.descendants_eq, List.filter_cons, List.filter_cons, hbelow,
      label_annotate]
    split <;> rfl

theorem findFirst?_annotate (h : n.Regular) {k : Kind} (hk : k.isTrivia = false) :
    (annotate docs newline n).findFirst? k = (n.findFirst? k).map (annotate docs newline) := by
  have hfilter : (annotate docs newline n).descendants.filter (·.kind == k) =
      (n.descendants.filter (·.kind == k)).map (annotate docs newline) :=
    filter_descendants_annotate h (passesOver_kind hk)
  have hfirst := congrArg List.head? hfilter
  rw [List.head?_map, List.head?_filter, List.head?_filter] at hfirst
  exact hfirst

theorem childByField?_annotate (h : n.Regular) (role : String) :
    (annotate docs newline n).childByField? role =
      (n.childByField? role).map (annotate docs newline) := by
  have hfilter : (annotate docs newline n).children.filter (·.field == some role) =
      (n.children.filter (·.field == some role)).map (annotate docs newline) :=
    filter_children_annotate h (passesOver_field role)
  have hfirst := congrArg List.head? hfilter
  rw [List.head?_map, List.head?_filter, List.head?_filter] at hfirst
  exact hfirst

end Regular

/-! ### Looking back -/

/-- **Looking back does not notice what was put in before.** -/
theorem Attached.docCommentBefore?_eq {xs ys : List Node} (h : Attached docs newline xs ys) :
    Node.docCommentBefore? ys.reverse = Node.docCommentBefore? xs.reverse := by
  -- behind a method nothing can be seen
  have hmethod : ∀ {m : Node} {x : String × String} {ns ns' : List Node}, docFor? docs m = some x →
      Node.docCommentBefore? (annotate docs newline m :: ns) =
        Node.docCommentBefore? (m :: ns') := by
    intro m x ns ns' hm
    have hk := kind_of_docFor? hm
    rw [Node.docCommentBefore?_cons_of_method hk,
      Node.docCommentBefore?_cons_of_method ((kind_annotate m).trans hk)]
  induction h with
  | nil => rfl
  | @keep xs ys n hxs hdoc ih =>
    rw [List.reverse_concat, List.reverse_concat]
    by_cases hk : n.kind = .trivia
    · rw [Node.docCommentBefore?_cons_of_trivia ((kind_annotate n).trans hk),
        Node.docCommentBefore?_cons_of_trivia hk, ih]
    · rw [Node.docCommentBefore?_cons_of_ne (by rwa [kind_annotate]),
        Node.docCommentBefore?_cons_of_ne hk, isDocComment_annotate]
      split
      · rw [annotate_of_isLeaf (Node.isLeaf_of_isDocComment ‹_›)]
      · rfl
  | insert hxs hdoc hlook ih => simpa using hmethod hdoc
  | replace hxs hdoc hc hts ih => simpa using hmethod hdoc

/-! ### Methods of a class body -/

/-- A public method with the nodes in front of it, nearest first. -/
structure MethodSite where
  before : List Node
  method : Node

/-- The public methods among neighbouring nodes, in order. -/
def methodSitesAmong (before : List Node) : List Node → List MethodSite
  | [] => []
  | n :: ns =>
    let rest := methodSitesAmong (n :: before) ns
    if isPublicMethod n then ⟨before, n⟩ :: rest else rest

/-- The public methods of the class that a tree is described by, in order. -/
def methodSites (root : Node) : List MethodSite :=
  ((root.findFirst? .classDeclaration).bind (·.childByField? "body")).elim [] fun body =>
    methodSitesAmong [] body.children

namespace MethodSite

/-- The name of the method, if it has one. -/
def name? (s : MethodSite) : Option String := (s.method.childByField? "name").map Node.text

/-- The documentation comment in front of the method. -/
def docComment? (s : MethodSite) : Option String :=
  (Node.docCommentBefore? s.before).bind fun (_, c) => c.leafText?

/-- The block that documentation puts in front of the method, if there is some for its name. -/
def block? (docs : DocMap) (newline : String) (s : MethodSite) : Option String :=
  (s.name?.bind docs.get?).map fun doc => renderBlock doc (indentationAfter s.before) newline

/-- The description of the method. -/
def describe (source : String) (s : MethodSite) : MethodDescriptor :=
  describeMethod source s.method s.docComment?

/-- Whether a site is what becomes of another one by documentation. -/
structure Documented (docs : DocMap) (newline : String) (s s' : MethodSite) : Prop where
  method : s'.method = annotate docs newline s.method
  docComment? : s'.docComment? = (s.block? docs newline).or s.docComment?

end MethodSite

theorem describeMethods_eq_map (source : String) (before ns : List Node) :
    describeMethods source before ns = (methodSitesAmong before ns).map (·.describe source) := by
  induction ns generalizing before with
  | nil => rfl
  | cons n ns ih =>
    simp only [describeMethods, methodSitesAmong, ih]
    split
    · rw [if_pos (by assumption)]
      rfl
    · rw [if_neg (by assumption)]

theorem methodSitesAmong_append (before xs ys : List Node) :
    methodSitesAmong before (xs ++ ys) =
      methodSitesAmong before xs ++ methodSitesAmong (xs.reverse ++ before) ys := by
  induction xs generalizing before with
  | nil => rfl
  | cons x xs ih =>
    simp only [List.cons_append, methodSitesAmong, ih, List.reverse_cons, List.append_assoc]
    split <;> rfl

theorem methodSitesAmong_concat (xs : List Node) (n : Node) :
    methodSitesAmong [] (xs ++ [n]) =
      methodSitesAmong [] xs ++ if isPublicMethod n then [⟨xs.reverse, n⟩] else [] := by
  simp [methodSitesAmong_append, methodSitesAmong]

/-- Leaves are no methods. -/
theorem methodSitesAmong_append_leaves {ts : List Node} (h : ∀ t ∈ ts, t.isLeaf = true)
    (before xs : List Node) :
    methodSitesAmong before (xs ++ ts) = methodSitesAmong before xs := by
  have hnone : ∀ before, methodSitesAmong before ts = [] := by
    intro before
    induction ts generalizing before with
    | nil => rfl
    | cons t ts ih =>
      have ht : isPublicMethod t ≠ true := by
        intro hpublic
        have hbranch := (isLeaf_of_isPublicMethod hpublic).2
        simp [h t List.mem_cons_self] at hbranch
      rw [methodSitesAmong, if_neg ht]
      exact ih (fun u hu => h u (List.mem_cons_of_mem _ hu)) _
  rw [methodSitesAmong_append, hnone, List.append_nil]

theorem map_snd_docFor? {n : Node} (h : n.kind = .method) :
    (docFor? docs n).map (·.2) = ((n.childByField? "name").map Node.text).bind docs.get? := by
  rw [docFor?, if_pos h]
  cases n.childByField? "name" with
  | none => rfl
  | some name => simp [Function.comp_def]

section Sites

variable {xs ys : List Node} {m : Node}

theorem block?_of_docFor? {before : List Node} (h : m.kind = .method) :
    MethodSite.block? docs newline ⟨before, m⟩ =
      (docFor? docs m).map fun x => renderBlock x.2 (indentationAfter before) newline := by
  rw [MethodSite.block?, MethodSite.name?, ← map_snd_docFor? h, Option.map_map]
  rfl

/-- A method with documentation has it in front. -/
theorem documented_of_docFor?_eq_some {before before' : List Node} {name doc : String} {k : Nat}
    {c : Node} (hm : docFor? docs m = some (name, doc))
    (hlook : Node.docCommentBefore? before' = some (k, c))
    (hc : c.leafText? = some (renderBlock doc (indentationAfter before) newline)) :
    MethodSite.Documented docs newline ⟨before, m⟩ ⟨before', annotate docs newline m⟩ where
  method := rfl
  docComment? := by
    rw [block?_of_docFor? (kind_of_docFor? hm), hm]
    simp [MethodSite.docComment?, hlook, hc]

/-- A public method at the end is one more site. -/
theorem forall₂_methodSites_concat
    (h : List.Forall₂ (MethodSite.Documented docs newline) (methodSitesAmong [] xs)
      (methodSitesAmong [] ys))
    (hpublic : isPublicMethod (annotate docs newline m) = isPublicMethod m)
    (hsite : isPublicMethod m = true →
      MethodSite.Documented docs newline ⟨xs.reverse, m⟩ ⟨ys.reverse, annotate docs newline m⟩) :
    List.Forall₂ (MethodSite.Documented docs newline) (methodSitesAmong [] (xs ++ [m]))
      (methodSitesAmong [] (ys ++ [annotate docs newline m])) := by
  rw [methodSitesAmong_concat, methodSitesAmong_concat, hpublic]
  refine List.rel_append h ?_
  split
  · exact .cons (hsite ‹_›) .nil
  · exact .nil

/-- **The public methods stay, in order, each with its documentation in front.** -/
theorem Attached.forall₂_methodSites (h : Attached docs newline xs ys)
    (hpublic : ∀ c ∈ xs, isPublicMethod (annotate docs newline c) = isPublicMethod c) :
    List.Forall₂ (MethodSite.Documented docs newline) (methodSitesAmong [] xs)
      (methodSitesAmong [] ys) := by
  induction h with
  | nil => exact .nil
  | @keep xs ys n hxs hdoc ih =>
    refine forall₂_methodSites_concat (ih fun c hc => hpublic c (by simp [hc]))
      (hpublic n (by simp)) fun hn => ⟨rfl, ?_⟩
    rw [block?_of_docFor? (isLeaf_of_isPublicMethod hn).1, hdoc]
    simp only [MethodSite.docComment?, hxs.docCommentBefore?_eq]
    rfl
  | @insert xs ys m name doc hxs hdoc hlook ih =>
    -- the new comment and the line break behind it are leaves
    set block := Node.comment (renderBlock doc (indentationAfter xs.reverse) newline) m.span.before
    set gap := Node.trivia (newline ++ indentationAfter xs.reverse) m.span.before
    have hput : ys ++ [block, gap, annotate docs newline m] =
        (ys ++ [block, gap]) ++ [annotate docs newline m] := by simp
    have hsites : methodSitesAmong [] (ys ++ [block, gap]) = methodSitesAmong [] ys :=
      methodSitesAmong_append_leaves (by simp [block, gap, Node.comment, Node.trivia, Node.isLeaf])
        [] ys
    have hblock : block.isDocComment = true :=
      isDocComment_leaf_renderBlock rfl (isIndentation_indentationAfter _) doc newline
    have hlook' : Node.docCommentBefore? (ys ++ [block, gap]).reverse = some (1, block) := by
      have hreverse : (ys ++ [block, gap]).reverse = [gap] ++ block :: ys.reverse := by simp
      rw [hreverse]
      exact Node.docCommentBefore?_append_cons (by simp [gap]) hblock
    rw [hput]
    refine forall₂_methodSites_concat ?_ (hpublic m (by simp)) fun _ =>
      documented_of_docFor?_eq_some hdoc hlook' rfl
    rw [hsites]
    exact ih fun c hc => hpublic c (by simp [hc])
  | @replace xs ys ts c m name doc hxs hdoc hc hts ih =>
    set block := c.withText (renderBlock doc (indentationAfter (xs ++ c :: ts).reverse) newline)
    have hblock : block.isDocComment = true :=
      isDocComment_leaf_renderBlock (Node.kind_of_isDocComment hc)
        (isIndentation_indentationAfter _) doc newline
    have hleaves : ∀ d, d.isLeaf = true → ∀ t ∈ d :: ts, t.isLeaf = true := by
      intro d hd t ht
      rcases List.mem_cons.1 ht with rfl | ht
      · exact hd
      · exact (hts t ht).2
    have hlook' : Node.docCommentBefore? (ys ++ block :: ts).reverse =
        some (ts.reverse.length, block) := by
      have hreverse : (ys ++ block :: ts).reverse = ts.reverse ++ block :: ys.reverse := by simp
      rw [hreverse]
      exact Node.docCommentBefore?_append_cons
        (fun t ht => (hts t (List.mem_reverse.1 ht)).1) hblock
    refine forall₂_methodSites_concat ?_ (hpublic m (by simp)) fun _ =>
      documented_of_docFor?_eq_some hdoc hlook' rfl
    rw [methodSitesAmong_append_leaves (hleaves c (Node.isLeaf_of_isDocComment hc)),
      methodSitesAmong_append_leaves (hleaves block rfl)]
    exact ih fun c hc => hpublic c (by simp [hc])

end Sites

/-! ### What is read as text -/

/-- What the trees of sources are like, as far as descriptions of documented trees go. -/
structure Node.Describable (n : Node) : Prop where
  program : n.kind = .program
  regular : n.Regular
  quiet : n.Quiet

instance (n : Node) : Decidable n.Describable :=
  decidable_of_iff (n.kind = .program ∧ n.Regular ∧ n.Quiet)
    ⟨fun h => ⟨h.1, h.2.1, h.2.2⟩, fun h => ⟨h.program, h.regular, h.quiet⟩⟩

theorem Node.describable_of_parseSource {source : String} {root : Node}
    (h : parseSource source = .ok root) : root.Describable where
  program := SourceReader.kind_of_parseWith (g := sourceReader) h
  regular := SourceReader.regular_of_parseWith (g := sourceReader) h
  quiet := Node.quiet_of_parseSource h

section Quiet

variable {n : Node}

theorem Node.Regular.of_mem_descendants {d : Node} (h : n.Regular) (hd : d ∈ n.descendants) :
    d.Regular where
  gapsClosed e he := h.gapsClosed e (Node.mem_descendants_trans he hd)
  namesLeaf e he := h.namesLeaf e (Node.mem_descendants_trans he hd)
  commentsPlain e he := h.commentsPlain e (Node.mem_descendants_trans he hd)

/-- What is read as text stays as it is. -/
theorem map_annotate_of_isRead {ns : List Node} (hq : n.Quiet)
    (hns : ∀ d ∈ ns, d ∈ n.descendants ∧ d.IsRead) : ns.map (annotate docs newline) = ns :=
  (List.map_congr_left fun d hd =>
    annotate_of_holdsNoMethod (hq.read d (hns d hd).1 (hns d hd).2)).trans (List.map_id _)

/-- The children that are read as text are the same as before. -/
theorem filter_kind_annotate (h : n.Regular) (hq : n.Quiet) {k : Kind} (hk : k.isTrivia = false)
    (hread : ∀ d : Node, d.kind = k → d.IsRead) :
    (annotate docs newline n).children.filter (·.kind == k) = n.children.filter (·.kind == k) := by
  refine (filter_children_annotate h (passesOver_kind hk)).trans ?_
  refine map_annotate_of_isRead hq fun d hd => ?_
  obtain ⟨hd, hkind⟩ := List.mem_filter.1 hd
  exact ⟨Node.mem_descendants_of_mem_children hd, hread d (beq_iff_eq.1 hkind)⟩

theorem isPublic_annotate (h : n.Regular) (hq : n.Quiet) :
    isPublic (annotate docs newline n) = isPublic n := by
  have hany : ∀ d : Node, isPublic d = (d.children.filter (·.kind == .modifier .visibility)).any
      fun c => (trimText c.text).toLower == "public" := by
    intro d
    rw [List.any_filter]
    rfl
  rw [hany, hany, filter_kind_annotate h hq rfl fun d hd => .inr (.inl hd)]

theorem isPublicMethod_annotate (h : n.Regular) (hq : n.Quiet) :
    isPublicMethod (annotate docs newline n) = isPublicMethod n := by
  rw [isPublicMethod, isPublicMethod, kind_annotate, isPublic_annotate h hq]

theorem isStatic_annotate (h : n.Regular) : isStatic (annotate docs newline n) = isStatic n := by
  have hany : ∀ d : Node,
      isStatic d = (d.children.filter (·.kind == .modifier .static)).any fun _ => true := by
    intro d
    rw [List.any_filter]
    simp [isStatic]
  have hfilter : (annotate docs newline n).children.filter (·.kind == .modifier .static) =
      (n.children.filter (·.kind == .modifier .static)).map (annotate docs newline) :=
    filter_children_annotate h (passesOver_kind rfl)
  rw [hany, hany, hfilter, List.any_map]
  rfl

/-- What is read for its role in a declaration is the same as before. -/
theorem childByField?_annotate_of_declares (h : n.Regular) (hq : n.Quiet) (hn : n.Declares)
    {role : String} (hrole : role ∈ Node.readRoles) :
    (annotate docs newline n).childByField? role = n.childByField? role := by
  rw [childByField?_annotate h]
  cases hc : n.childByField? role with
  | none => rfl
  | some c =>
    have hfield : c.field = some role := by simpa using List.find?_some hc
    rw [Option.map_some, annotate_of_holdsNoMethod
      (hq.role n n.self_mem_descendants hn c (List.mem_of_find?_eq_some hc) role hrole hfield)]

theorem importsOf_annotate (h : n.Regular) (hq : n.Quiet) :
    importsOf (annotate docs newline n) = importsOf n := by
  have hfilter : (annotate docs newline n).descendants.filter (·.kind == .namespaceUse) =
      n.descendants.filter (·.kind == .namespaceUse) := by
    refine (filter_descendants_annotate h (passesOver_kind rfl)).trans ?_
    refine map_annotate_of_isRead hq fun d hd => ?_
    obtain ⟨hd, hkind⟩ := List.mem_filter.1 hd
    exact ⟨hd, .inr (.inr (beq_iff_eq.1 hkind))⟩
  rw [importsOf, importsOf, hfilter]

end Quiet

/-! ### Descriptions -/

/-- Whether a description is that of a method after the tree was documented. -/
structure MethodSite.Redescribes (docs : DocMap) (newline source : String) (s : MethodSite)
    (m' : MethodDescriptor) : Prop where
  name : m'.name = (s.describe source).name
  returnType : m'.returnType = (s.describe source).returnType
  isStatic : m'.isStatic = (s.describe source).isStatic
  span : m'.span = (s.describe source).span
  code : m'.source = (s.describe source).source
  docComment : m'.docComment = (s.block? docs newline).or (s.describe source).docComment

/-- Whether two descriptions are those of a class before and after its tree was documented. -/
structure Redescribes (docs : DocMap) (newline source : String) (root : Node)
    (c c' : ClassDescriptor) : Prop where
  className : c'.className = c.className
  space : c'.space = c.space
  parent : c'.parent = c.parent
  imports : c'.imports = c.imports
  path : c'.path = c.path
  methods : c.methods = (methodSites root).map (·.describe source)
  methods' : List.Forall₂ (MethodSite.Redescribes docs newline source) (methodSites root) c'.methods

theorem MethodSite.Documented.redescribes {s s' : MethodSite}
    (h : s.Documented docs newline s') (hk : s.method.kind = .method) (hregular : s.method.Regular)
    (hquiet : s.method.Quiet) (source : String) :
    s.Redescribes docs newline source (s'.describe source) := by
  have hchild : ∀ role ∈ Node.readRoles,
      (annotate docs newline s.method).childByField? role = s.method.childByField? role :=
    fun role => childByField?_annotate_of_declares hregular hquiet (.inr (.inr hk))
  have hname := hchild "name" (by decide)
  have htype := hchild "return_type" (by decide)
  constructor <;>
    simp [MethodSite.describe, describeMethod, h.method, h.docComment?, hname, htype,
      isStatic_annotate hregular]

theorem mem_methodSitesAmong {before ns : List Node} {s : MethodSite}
    (h : s ∈ methodSitesAmong before ns) : s.method ∈ ns ∧ isPublicMethod s.method = true := by
  induction ns generalizing before with
  | nil => simp [methodSitesAmong] at h
  | cons n ns ih =>
    have hrest : s ∈ methodSitesAmong (n :: before) ns →
        s.method ∈ n :: ns ∧ isPublicMethod s.method = true :=
      fun hs => ⟨List.mem_cons_of_mem _ (ih hs).1, (ih hs).2⟩
    rw [methodSitesAmong] at h
    split at h
    · rcases List.mem_cons.1 h with rfl | h
      · exact ⟨List.mem_cons_self, ‹_›⟩
      · exact hrest h
    · exact hrest h

/-- The methods of a body are described as before, each with its documentation. -/
theorem forall₂_redescribes {body : Node} (h : body.Regular) (hq : body.Quiet) (source : String) :
    List.Forall₂ (MethodSite.Redescribes docs newline source) (methodSitesAmong [] body.children)
      (describeMethods source [] (annotate docs newline body).children) := by
  have hpublic : ∀ c ∈ body.children,
      isPublicMethod (annotate docs newline c) = isPublicMethod c := fun c hc =>
    isPublicMethod_annotate (h.of_mem_children hc)
      (hq.of_mem_descendants (Node.mem_descendants_of_mem_children hc))
  have hattached : Attached docs newline body.children (annotate docs newline body).children :=
    attached_annotate h
  have hsites := (List.forall₂_and_left (p := (· ∈ methodSitesAmong [] body.children)) _ _).2
    ⟨fun _ hs => hs, hattached.forall₂_methodSites hpublic⟩
  rw [describeMethods_eq_map, List.forall₂_map_right_iff]
  refine hsites.imp fun s s' ⟨hs, hdocumented⟩ => ?_
  obtain ⟨hmem, hmethod⟩ := mem_methodSitesAmong hs
  exact hdocumented.redescribes (isLeaf_of_isPublicMethod hmethod).1 (h.of_mem_children hmem)
    (hq.of_mem_descendants (Node.mem_descendants_of_mem_children hmem)) source

theorem childOfKind?_annotate_of_isRead {n : Node} (h : n.Regular) (hq : n.Quiet) {k : Kind}
    (hk : k.isTrivia = false) (hread : ∀ d : Node, d.kind = k → d.IsRead) :
    (annotate docs newline n).childOfKind? k = n.childOfKind? k := by
  have hfirst : ((annotate docs newline n).children.filter (·.kind == k)).head? =
      (n.children.filter (·.kind == k)).head? :=
    congrArg List.head? (filter_kind_annotate h hq hk hread)
  rwa [List.head?_filter, List.head?_filter] at hfirst

/-- The name of the first namespace is the same as before. -/
theorem space_annotate {n : Node} (h : n.Regular) (hq : n.Quiet) :
    ((annotate docs newline n).findFirst? .namespaceDefinition).bind (·.childByField? "name") =
      (n.findFirst? .namespaceDefinition).bind (·.childByField? "name") := by
  rw [findFirst?_annotate h rfl]
  cases hspace : n.findFirst? .namespaceDefinition with
  | none => rfl
  | some d =>
    have hmem : d ∈ n.descendants := List.mem_of_find?_eq_some hspace
    have hk : d.kind = .namespaceDefinition := by simpa using List.find?_some hspace
    exact childByField?_annotate_of_declares (h.of_mem_descendants hmem)
      (hq.of_mem_descendants hmem) (.inr (.inl hk)) (by decide)

/-- **A documented tree is described like the tree before.** -/
theorem describeClass_annotate (docs : DocMap) (newline source : String) {n : Node}
    (h : n.Regular) (hq : n.Quiet) :
    (∃ e, describeClass n source = .error e ∧
        describeClass (annotate docs newline n) source = .error e) ∨
      ∃ c c', describeClass n source = .ok c ∧
        describeClass (annotate docs newline n) source = .ok c' ∧
        Redescribes docs newline source n c c' := by
  have hfirst : (annotate docs newline n).findFirst? .classDeclaration =
      (n.findFirst? .classDeclaration).map (annotate docs newline) := findFirst?_annotate h rfl
  cases hclass : n.findFirst? .classDeclaration with
  | none =>
    rw [hclass] at hfirst
    exact .inl ⟨.noClass, by simp [describeClass, hclass], by simp [describeClass, hfirst]⟩
  | some c =>
    rw [hclass] at hfirst
    have hmem : c ∈ n.descendants := List.mem_of_find?_eq_some hclass
    have hk : c.kind = .classDeclaration := by simpa using List.find?_some hclass
    have hc := h.of_mem_descendants hmem
    have hcq := hq.of_mem_descendants hmem
    have hname : (annotate docs newline c).childByField? "name" = c.childByField? "name" :=
      childByField?_annotate_of_declares hc hcq (.inl hk) (by decide)
    cases hfound : c.childByField? "name" with
    | none =>
      exact .inl ⟨.namelessClass, by simp [describeClass, hclass, hfound],
        by simp [describeClass, hfirst, hname, hfound]⟩
    | some name =>
      refine .inr ⟨_, _, describeClass_eq_ok.2 ⟨_, _, hclass, hfound, rfl⟩,
        describeClass_eq_ok.2 ⟨_, _, hfirst, hname.trans hfound, rfl⟩, ?_⟩
      exact
        { className := rfl
          space := congrArg (Option.map Node.text) (space_annotate h hq)
          parent := by
            rw [childOfKind?_annotate_of_isRead hc hcq rfl fun d hd => .inl hd]
          imports := importsOf_annotate h hq
          path := rfl
          methods := by
            simp only [methodSites, hclass, Option.bind_some]
            cases c.childByField? "body" with
            | none => rfl
            | some body => exact describeMethods_eq_map source [] body.children
          methods' := by
            simp only [methodSites, hclass, Option.bind_some, childByField?_annotate hc]
            cases hbody : c.childByField? "body" with
            | none => exact .nil
            | some body =>
              have hmem : body ∈ c.children := List.mem_of_find?_eq_some hbody
              exact forall₂_redescribes (hc.of_mem_children hmem)
                (hcq.of_mem_descendants (Node.mem_descendants_of_mem_children hmem)) source }

/-! ### Documented names -/

/-- The documented names are those of the methods with documentation, in order. -/
theorem documentedIn_eq_filterMap (n : Node) :
    documentedIn docs n =
      (Node.descendantsAll n.children).filterMap fun d => (docFor? docs d).map (·.1) := by
  induction n using Node.treeInduction with
  | leaf l t => rfl
  | branch l cs ih =>
    simp only [documentedIn, Node.children_branch]
    clear l
    induction cs with
    | nil => rfl
    | cons c cs ih' =>
      rw [documentedAmong, ih' fun d hd => ih d (List.mem_cons_of_mem _ hd),
        ih c List.mem_cons_self, Node.descendantsAll, Node.descendants_eq, List.filterMap_append,
        List.filterMap_cons]
      cases docFor? docs c <;> rfl

theorem DocMap.exists_get?_iff {name : String} :
    (∃ doc, docs.get? name = some doc) ↔ name ∈ docs.names := by
  constructor
  · rintro ⟨doc, hdoc⟩
    by_contra hname
    simp [DocMap.get?_eq_none hname] at hdoc
  · intro hname
    obtain ⟨⟨n, d⟩, hentry, rfl⟩ := List.mem_map.1 hname
    cases hget : docs.get? n with
    | some doc => exact ⟨doc, rfl⟩
    | none =>
      have hne := List.lookup_eq_none_iff.1 hget (n, d) hentry
      simp at hne

/-- **The documented names** are those of the map that some method has. -/
theorem mem_documentedIn {n : Node} {name : String} (hn : n.kind ≠ .method) :
    name ∈ documentedIn docs n ↔ name ∈ docs.names ∧
      ∃ m ∈ n.descendants, m.kind = .method ∧
        (m.childByField? "name").map Node.text = some name := by
  have hfor : ∀ d : Node, (docFor? docs d).map (·.1) = some name ↔
      d.kind = .method ∧ (d.childByField? "name").map Node.text = some name ∧
        name ∈ docs.names := by
    intro d
    rw [← DocMap.exists_get?_iff, docFor?]
    split
    · rename_i hk
      cases d.childByField? "name" with
      | none => simp
      | some c =>
        simp only [Option.bind_some, Option.map_map, Option.map_eq_some_iff, Option.map_some,
          Option.some.injEq, Function.comp_apply, hk, true_and]
        constructor
        · rintro ⟨doc, hdoc, rfl⟩
          exact ⟨rfl, doc, hdoc⟩
        · rintro ⟨rfl, doc, hdoc⟩
          exact ⟨doc, hdoc, rfl⟩
    · simp_all
  rw [documentedIn_eq_filterMap, List.mem_filterMap]
  constructor
  · rintro ⟨d, hd, hdoc⟩
    obtain ⟨hk, hname, hmem⟩ := (hfor d).1 hdoc
    exact ⟨hmem, d, by rw [Node.descendants_eq]; exact List.mem_cons_of_mem _ hd, hk, hname⟩
  · rintro ⟨hmem, d, hd, hk, hname⟩
    rw [Node.descendants_eq] at hd
    rcases List.mem_cons.1 hd with rfl | hd
    · exact absurd hk hn
    · exact ⟨d, hd, (hfor d).2 ⟨hk, hname, hmem⟩⟩

/-- **A description shows the documentation that was attached, and nothing else of it.** A tree is
described if and only if it is described once it is documented, and then in the same way, except
that a method with documentation has its block for a comment; the names that count as documented
are those that both the map and a method of the tree have, and the others are told to be of no
use. It holds of all trees in which no method stands in what is read as text, and those are among
them that were read. -/
theorem extractTree_annotate :
    (∀ {n : Node} (docs : DocMap) (newline source : String), n.Describable →
      ((∃ e, extractTree n source = .error e ∧
          extractTree (annotate docs newline n) source = .error e) ∨
        ∃ c c', extractTree n source = .ok c ∧
          extractTree (annotate docs newline n) source = .ok c' ∧
          Redescribes docs newline source n c c') ∧
      (∀ name, name ∈ documentedIn docs n ↔ name ∈ docs.names ∧ ∃ m ∈ n.descendants,
        m.kind = .method ∧ (m.childByField? "name").map Node.text = some name) ∧
      ∀ name, name ∈ unusedNames docs n ↔ name ∈ docs.names ∧ ∀ m ∈ n.descendants,
        m.kind = .method → (m.childByField? "name").map Node.text ≠ some name) ∧
      ∀ {source : String} {root : Node}, parseSource source = .ok root → root.Describable := by
  refine ⟨fun {n} docs newline source h => ?_, Node.describable_of_parseSource⟩
  have hnames : ∀ name, name ∈ documentedIn docs n ↔ name ∈ docs.names ∧ ∃ m ∈ n.descendants,
      m.kind = .method ∧ (m.childByField? "name").map Node.text = some name :=
    fun name => mem_documentedIn (by simp [h.program])
  refine ⟨?_, hnames, fun name => ?_⟩
  · rcases describeClass_annotate docs newline source h.regular h.quiet with
      ⟨e, he, he'⟩ | ⟨c, c', hc, hc', hsame⟩
    · exact .inl ⟨e.toError, by simp [extractTree, he], by simp [extractTree, he']⟩
    · exact .inr ⟨c, c', by simp [extractTree, hc], by simp [extractTree, hc'], hsame⟩
  · have hunused : name ∈ unusedNames docs n ↔ name ∈ docs.names ∧ name ∉ documentedIn docs n := by
      simp [unusedNames]
    rw [hunused, hnames]
    constructor
    · rintro ⟨hname, hnone⟩
      exact ⟨hname, fun m hm hk hmname => hnone ⟨hname, m, hm, hk, hmname⟩⟩
    · rintro ⟨hname, hnone⟩
      refine ⟨hname, ?_⟩
      rintro ⟨-, m, hm, hk, hmname⟩
      exact hnone m hm hk hmname

/-- A class with a public method behind a comment. -/
def samplePublicClass : Node :=
  sampleClass (sampleComment ++
    [.branch ⟨.method, "method_declaration", none, .nowhere⟩
      (.leaf ⟨.modifier .visibility, "visibility_modifier", none, .nowhere⟩ "public" ::
        .trivia " " .nowhere :: sampleMethod.children)])

/-- A public method that has a comment and gets another one. -/
theorem extractTree_annotate_sample :
    samplePublicClass.Describable ∧
      (∃ c c', extractTree samplePublicClass samplePublicClass.text = .ok c ∧
        extractTree (annotate ⟨[("f", "y")]⟩ "\n" samplePublicClass) samplePublicClass.text = .ok c' ∧
        Redescribes ⟨[("f", "y")]⟩ "\n" samplePublicClass.text samplePublicClass c c' ∧
        c.methods.map (·.docComment) = [some "/**\n * x\n */"] ∧
        c'.methods.map (·.docComment) = [some "/**\n * y\n */"]) ∧
      "f" ∈ documentedIn ⟨[("f", "y")]⟩ samplePublicClass ∧
      ∃ root, parseSource "\uFEFF" = .ok root ∧ root.Describable := by
  have h : samplePublicClass.Describable := by decide +kernel
  have hread : parseSource "\uFEFF" =
      .ok (Node.placeIn "\uFEFF" (Parsed.root sourceRules ⟨[], "\uFEFF"⟩)) := rfl
  have hbefore : (extractTree samplePublicClass samplePublicClass.text).toOption.map
      (fun c => c.methods.map (·.docComment)) = some [some "/**\n * x\n */"] := by decide +kernel
  have hafter : (extractTree (annotate ⟨[("f", "y")]⟩ "\n" samplePublicClass)
      samplePublicClass.text).toOption.map (fun c => c.methods.map (·.docComment)) =
        some [some "/**\n * y\n */"] := by decide +kernel
  obtain ⟨hsame, hnames, -⟩ :=
    extractTree_annotate.1 ⟨[("f", "y")]⟩ "\n" samplePublicClass.text h
  refine ⟨h, ?_, (hnames "f").2 (by decide +kernel), _, hread, extractTree_annotate.2 hread⟩
  rcases hsame with ⟨e, he, -⟩ | ⟨c, c', hc, hc', hsame⟩
  · rw [he] at hbefore
    simp [Except.toOption] at hbefore
  · rw [hc] at hbefore
    rw [hc'] at hafter
    exact ⟨c, c', hc, hc', hsame, Option.some.inj hbefore, Option.some.inj hafter⟩

end DocBlocks
