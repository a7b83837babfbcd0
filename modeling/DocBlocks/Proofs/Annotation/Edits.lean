import DocBlocks.Annotation.Write
import DocBlocks.Proofs.Annotation.Attach
import DocBlocks.Proofs.Syntax.Ancestry

/-!
# Documentation as edits of a source

`writesDocs_of_writeDocs`: a source with documentation is the source with one edit for
each documented method, and nothing else. `Edited` says what it means to make edits by byte offsets,
`DocSite` where a documented method stands, and `DocSite.edit` what is done there, all in terms of
the tree of the source before anything was changed.

The text of an annotated tree is compared with the text of the tree by induction over the tree; the
children of one branch are a case of `Attached.edited`.
-/

namespace DocBlocks

/-! ### Edits -/

/-- A change of a text: the bytes from one offset to another become some text. -/
structure Edit where
  start : Nat
  stop : Nat
  text : String
  deriving DecidableEq, Repr

/-- What a text becomes by edits, and by nothing else. The offset is that of its first byte. Each
edit stands behind the one before it: some text is kept, some is gone, and the rest is left to the
edits that follow. -/
inductive Edited : Nat → List Char → List Edit → List Char → Prop where
  | done (offset : Nat) (cs : List Char) : Edited offset cs [] cs
  | edit {offset : Nat} {e : Edit} {es : List Edit} {kept gone rest after : List Char} :
      e.start = offset + byteLength kept → e.stop = e.start + byteLength gone →
      Edited e.stop rest es after →
      Edited offset (kept ++ gone ++ rest) (e :: es) (kept ++ e.text.toList ++ after)

namespace Edited

variable {offset : Nat} {es fs : List Edit} {xs ys xs' ys' : List Char}

/-- Text in front of all edits stays. -/
theorem prepend (h : Edited (offset + byteLength xs) ys es ys') :
    Edited offset (xs ++ ys) es (xs ++ ys') := by
  generalize ho : offset + byteLength xs = o at h
  cases h with
  | done => exact .done offset _
  | @edit _ e es kept gone rest after hstart hstop hrest =>
    have hkept : e.start = offset + byteLength (xs ++ kept) := by
      rw [hstart, ← ho, byteLength_append, Nat.add_assoc]
    simpa using Edited.edit hkept hstop hrest

/-- Edits of two neighbouring texts are edits of both together. -/
theorem append (h : Edited offset xs es xs') (h' : Edited (offset + byteLength xs) ys fs ys') :
    Edited offset (xs ++ ys) (es ++ fs) (xs' ++ ys') := by
  induction h with
  | done offset cs => exact h'.prepend
  | @edit offset e es kept gone rest after hstart hstop hrest ih =>
    have hoffset : offset + byteLength (kept ++ gone ++ rest) = e.stop + byteLength rest := by
      rw [hstop, hstart]
      simp [byteLength_append, Nat.add_assoc]
    rw [hoffset] at h'
    simpa using Edited.edit hstart hstop (ih h')

/-- Text put in front. -/
theorem insertion (text : String) (h : Edited offset xs es xs') :
    Edited offset xs (⟨offset, offset, text⟩ :: es) (text.toList ++ xs') := by
  have hnone : byteLength [] = 0 := rfl
  exact Edited.edit (e := ⟨offset, offset, text⟩) (by rw [hnone]; rfl) (by rw [hnone]; rfl) h

/-- Text replaced in front. -/
theorem replacement (text : String) {gone : List Char}
    (h : Edited (offset + byteLength gone) xs es xs') :
    Edited offset (gone ++ xs) (⟨offset, offset + byteLength gone, text⟩ :: es)
      (text.toList ++ xs') := by
  have hnone : byteLength [] = 0 := rfl
  exact Edited.edit (e := ⟨offset, offset + byteLength gone, text⟩) (by rw [hnone]; rfl) rfl h

theorem start_le_stop (h : Edited offset xs es xs') :
    ∀ e ∈ es, offset ≤ e.start ∧ e.start ≤ e.stop := by
  induction h with
  | done => simp
  | @edit offset e es kept gone rest after hstart hstop hrest ih =>
    intro f hf
    rcases List.mem_cons.1 hf with rfl | hf
    · omega
    · have := ih f hf
      omega

/-- **Edits that are made are apart**, each one behind those before it. -/
theorem pairwise (h : Edited offset xs es xs') : es.Pairwise fun e f => e.stop ≤ f.start := by
  induction h with
  | done => exact .nil
  | edit hstart hstop hrest ih => exact .cons (fun f hf => (hrest.start_le_stop f hf).1) ih

end Edited

/-! ### Documented methods -/

/-- A method with documentation, and the siblings in front of it, nearest first. -/
structure DocSite where
  before : List Node
  method : Node
  doc : String

mutual

/-- The documented methods below a node, each method before those inside it. -/
def docSites (docs : DocMap) : Node → List DocSite
  | .leaf _ _ => []
  | .branch _ cs => docSitesAmong docs [] cs

/-- The documented methods among neighbouring nodes and below them. -/
def docSitesAmong (docs : DocMap) (before : List Node) : List Node → List DocSite
  | [] => []
  | n :: ns =>
    ((docFor? docs n).map fun x => ⟨before, n, x.2⟩).toList ++ docSites docs n ++
      docSitesAmong docs (n :: before) ns

end

namespace DocSite

/-- The indentation of the line that the method starts on. -/
def indent (s : DocSite) : String := indentationAfter s.before

/-- The block for the method. -/
def block (newline : String) (s : DocSite) : String := renderBlock s.doc s.indent newline

/-- The documentation comment of the method: the nearest sibling that is no trivia, if it is one. -/
def comment? (s : DocSite) : Option Node :=
  (s.before.find? (·.kind != .trivia)).filter Node.isDocComment

/-- What is done for the method: its comment is replaced, or a block and a line break with the
indentation of the method are put in front of it. -/
def edit (newline : String) (s : DocSite) : Edit :=
  match s.comment? with
  | some c => ⟨c.span.start, c.span.stop, s.block newline⟩
  | none => ⟨s.method.span.start, s.method.span.start, s.block newline ++ newline ++ s.indent⟩

end DocSite

variable {docs : DocMap} {newline : String}

theorem docSitesAmong_append (before xs ys : List Node) :
    docSitesAmong docs before (xs ++ ys) =
      docSitesAmong docs before xs ++ docSitesAmong docs (xs.reverse ++ before) ys := by
  induction xs generalizing before with
  | nil => simp [docSitesAmong]
  | cons x xs ih => simp [docSitesAmong, ih]

theorem docSites_eq (n : Node) : docSites docs n = docSitesAmong docs [] n.children := by
  cases n <;> simp [docSites, docSitesAmong]

theorem docSitesAmong_leaves {ts : List Node} (h : ∀ t ∈ ts, t.isLeaf = true)
    (before : List Node) : docSitesAmong docs before ts = [] := by
  induction ts generalizing before with
  | nil => rfl
  | cons t ts ih =>
    have ht := h t List.mem_cons_self
    have hsites : docSites docs t = [] := by
      cases t with
      | leaf l x => rfl
      | branch l cs => simp [Node.isLeaf] at ht
    simp [docSitesAmong, docFor?_of_isLeaf ht, hsites,
      ih fun u hu => h u (List.mem_cons_of_mem _ hu)]

theorem map_method_docSitesAmong {ns : List Node} (before : List Node)
    (h : ∀ n ∈ ns, (docSites docs n).map DocSite.method =
      (Node.descendantsAll n.children).filter fun m => (docFor? docs m).isSome) :
    (docSitesAmong docs before ns).map DocSite.method =
      (Node.descendantsAll ns).filter fun m => (docFor? docs m).isSome := by
  induction ns generalizing before with
  | nil => rfl
  | cons n ns ih =>
    have hn := h n List.mem_cons_self
    have hns := ih (n :: before) fun m hm => h m (List.mem_cons_of_mem _ hm)
    simp only [docSitesAmong, Node.descendantsAll, Node.descendants_eq, List.map_append, hn, hns,
      List.filter_append]
    cases hd : docFor? docs n <;> simp [hd]

/-- **The documented methods are all methods with documentation**, each before those inside it. -/
theorem map_method_docSites (n : Node) :
    (docSites docs n).map DocSite.method =
      (Node.descendantsAll n.children).filter fun m => (docFor? docs m).isSome := by
  induction n using Node.treeInduction with
  | leaf l t => rfl
  | branch l cs ih => exact map_method_docSitesAmong [] ih

/-! ### Annotated trees -/

theorem map_snd_docCommentBefore? (ns : List Node) :
    (Node.docCommentBefore? ns).map (·.2) =
      (ns.find? (·.kind != .trivia)).filter Node.isDocComment := by
  induction ns with
  | nil => rfl
  | cons n ns ih =>
    by_cases hk : n.kind = .trivia
    · rw [Node.docCommentBefore?_cons_of_trivia hk, Option.map_map,
        List.find?_cons_of_neg (by simp [hk]), ← ih]
      rfl
    · rw [Node.docCommentBefore?_cons_of_ne hk, List.find?_cons_of_pos (by simp [hk])]
      cases hdoc : n.isDocComment <;> simp [Option.filter, hdoc]

theorem DocSite.edit_of_comment?_eq_none {s : DocSite} (h : s.comment? = none) (newline : String) :
    s.edit newline = ⟨s.method.span.start, s.method.span.start,
      s.block newline ++ newline ++ s.indent⟩ := by
  simp [edit, h]

theorem DocSite.edit_of_comment?_eq_some {s : DocSite} {c : Node} (h : s.comment? = some c)
    (newline : String) : s.edit newline = ⟨c.span.start, c.span.stop, s.block newline⟩ := by
  simp [edit, h]

/-- The edits among neighbours of which the last one is a documented method. -/
theorem map_edit_docSitesAmong_concat {xs : List Node} {m : Node} {name doc : String}
    (h : docFor? docs m = some (name, doc)) :
    (docSitesAmong docs [] (xs ++ [m])).map (DocSite.edit newline) =
      (docSitesAmong docs [] xs).map (DocSite.edit newline) ++
        DocSite.edit newline ⟨xs.reverse, m, doc⟩ ::
          (docSites docs m).map (DocSite.edit newline) := by
  simp [docSitesAmong_append, docSitesAmong, h]

/-- **The children of an annotated branch have the text of those before with the edits made.** -/
theorem Attached.edited {xs ys : List Node} (h : Attached docs newline xs ys) {start stop : Nat}
    (htile : Node.Tile start stop xs) (hplaced : ∀ c ∈ xs, c.WellPlaced)
    (hchild : ∀ c ∈ xs, Edited c.span.start c.text.toList
      ((docSites docs c).map (DocSite.edit newline)) (annotate docs newline c).text.toList) :
    Edited start (Node.textAll xs).toList ((docSitesAmong docs [] xs).map (DocSite.edit newline))
      (Node.textAll ys).toList := by
  induction h generalizing stop with
  | nil => exact .done start []
  | @keep xs ys n hxs hdoc ih =>
    obtain ⟨mid, hmid⟩ := htile.of_append
    have hfront := ih hmid (fun c hc => hplaced c (by simp [hc]))
      fun c hc => hchild c (by simp [hc])
    have hn := hchild n (by simp)
    rw [Node.start_of_tile htile fun c hc => hplaced c (by simp [hc])] at hn
    have hsites : docSitesAmong docs [] (xs ++ [n]) =
        docSitesAmong docs [] xs ++ docSites docs n := by
      simp [docSitesAmong_append, docSitesAmong, hdoc]
    rw [hsites, List.map_append]
    simpa [Node.textAll_append] using hfront.append hn
  | @insert xs ys m name doc hxs hdoc hlook ih =>
    obtain ⟨mid, hmid⟩ := htile.of_append
    have hfront := ih hmid (fun c hc => hplaced c (by simp [hc]))
      fun c hc => hchild c (by simp [hc])
    -- the look back of the site is that of the annotation, made in the children before
    have hcomment : (DocSite.mk xs.reverse m doc).comment? = none := by
      rw [DocSite.comment?, ← map_snd_docCommentBefore?, hlook, Option.map_none]
    have hm := (hchild m (by simp)).insertion
      (renderBlock doc (indentationAfter xs.reverse) newline ++ newline ++
        indentationAfter xs.reverse)
    have hstart := Node.start_of_tile htile fun c hc => hplaced c (by simp [hc])
    rw [map_edit_docSitesAmong_concat hdoc, DocSite.edit_of_comment?_eq_none hcomment newline]
    rw [hstart] at hm ⊢
    simpa [Node.textAll_append, DocSite.block, DocSite.indent] using hfront.append hm
  | @replace xs ys ts c m name doc hxs hdoc hc hts ih =>
    have htile' : Node.Tile start stop (xs ++ c :: (ts ++ [m])) := by simpa using htile
    obtain ⟨mid, hmid⟩ := htile'.of_append
    have hfront := ih hmid (fun d hd => hplaced d (by simp [hd]))
      fun d hd => hchild d (by simp [hd])
    have hcomment : (DocSite.mk (xs ++ c :: ts).reverse m doc).comment? = some c := by
      have htrivia : ts.reverse.find? (·.kind != .trivia) = none := by
        simpa using fun t ht => (hts t ht).1
      have hk : c.kind ≠ .trivia := by simp [Node.kind_of_isDocComment hc]
      simp [DocSite.comment?, List.find?_append, htrivia, hk, Option.filter, hc]
    have hleaf : ∀ t ∈ c :: ts, t.isLeaf = true := by
      intro t ht
      rcases List.mem_cons.1 ht with rfl | ht
      · exact Node.isLeaf_of_isDocComment hc
      · exact (hts t ht).2
    have hsites : docSitesAmong docs [] (xs ++ c :: ts) = docSitesAmong docs [] xs := by
      rw [docSitesAmong_append, docSitesAmong_leaves hleaf, List.append_nil]
    have hcstart := Node.start_of_tile htile' fun d hd => hplaced d (by simp [hd])
    have hcstop := (hplaced c (by simp)).stop_eq
    -- the trivia between the comment and the method stay as they are
    have hmstart : m.span.start = c.span.start + byteLength c.text.toList +
        byteLength (Node.textAll ts).toList := by
      rw [Node.start_of_tile htile fun d hd => hplaced d (List.mem_append_left _ hd), hcstart]
      simp [Node.textAll_append, byteLength_append, Nat.add_assoc]
    have hm := hchild m (by simp)
    rw [hmstart] at hm
    have hedit := hm.prepend.replacement
      (renderBlock doc (indentationAfter (xs ++ c :: ts).reverse) newline)
    rw [map_edit_docSitesAmong_concat hdoc, hsites,
      DocSite.edit_of_comment?_eq_some hcomment newline, hcstop]
    rw [hcstart] at hedit ⊢
    simpa [Node.textAll_append, Node.text_withText, DocSite.block, DocSite.indent] using
      hfront.append hedit

/-- **An annotated tree has the text of the tree with the edits made.** -/
theorem edited_annotate {n : Node} (h : n.Regular) (hplaced : n.WellPlaced) :
    Edited n.span.start n.text.toList ((docSites docs n).map (DocSite.edit newline))
      (annotate docs newline n).text.toList := by
  induction n using Node.treeInduction with
  | leaf l t => exact .done _ _
  | branch l cs ih =>
    have htile := (hplaced _ (Node.self_mem_descendants _)).2 rfl
    have hedited := (attached_annotate h).edited htile
      (fun c hc => hplaced.of_mem_children hc)
      fun c hc => ih c hc (h.of_mem_children hc) (hplaced.of_mem_children hc)
    rw [← docSites_eq] at hedited
    simpa [annotate] using hedited

/-! ### Writing -/

theorem hasPair_eq_true_iff {cs : List Char} :
    newlineOf.hasPair cs = true ↔ ['\r', '\n'] <:+: cs := by
  fun_induction newlineOf.hasPair cs with
  | case1 cs => exact ⟨fun _ => ⟨[], cs, rfl⟩, fun _ => rfl⟩
  | case2 c cs hpair ih =>
    rw [ih, List.infix_cons_iff]
    refine ⟨.inr, fun h => h.resolve_left fun ⟨rest, hrest⟩ => ?_⟩
    obtain ⟨rfl, rfl⟩ := List.cons.inj hrest
    exact hpair rest rfl rfl
  | case3 => simp

theorem newlineOf_eq (source : String) :
    newlineOf source = if ['\r', '\n'] <:+: source.toList then "\r\n" else "\n" := by
  simp only [newlineOf, hasPair_eq_true_iff]

/-- **When documentation can be written**: the source has a tree, and so has what comes out, unless
nothing was documented. -/
theorem writeDocsWith_eq_ok {read : String → Option RangedTree} {source output : String}
    {docs : DocMap} :
    (writeDocsWith read source docs).result = .ok output ↔
      ∃ root, parseWith read source = .ok root ∧
        (annotate docs (newlineOf source) root).text = output ∧
        (documentedIn docs root = [] ∨ ∃ root', parseWith read output = .ok root') := by
  unfold writeDocsWith
  cases hparse : parseWith read source with
  | error e => simp
  | ok root =>
    simp only [Except.ok.injEq, exists_eq_left']
    split
    · rename_i hempty
      have hnil : documentedIn docs root = [] := by simpa using hempty
      simp [hnil]
    · -- something was documented, so the output is read once more
      rename_i hempty
      have hne : documentedIn docs root ≠ [] := by simpa using hempty
      split
      · rename_i e herror
        simp only [reduceCtorEq, hne, false_or, false_iff, not_and]
        rintro rfl
        simp [herror]
      · rename_i root' hok
        simp only [Except.ok.injEq, hne, false_or]
        refine ⟨?_, fun h => h.1⟩
        rintro rfl
        exact ⟨rfl, root', hok⟩

/-- The edits that documentation makes in a source, told from its tree. New lines end as in the
source: with a carriage return if it has such a line break anywhere. -/
def docEdits (docs : DocMap) (source : String) (root : Node) : List Edit :=
  let newline := if ['\r', '\n'] <:+: source.toList then "\r\n" else "\n"
  (docSites docs root).map (DocSite.edit newline)

/-- What writing documentation is to do: the sites are all methods that the map has documentation
for, in order of their start offsets, and the source becomes the output by one edit at each site.
The edits are apart, and every byte that they leave out is kept. -/
structure WritesDocs (docs : DocMap) (source : String) (root : Node) (output : String) : Prop where
  methods_eq : (docSites docs root).map DocSite.method =
    root.descendants.filter (fun m => (docFor? docs m).isSome)
  sorted : (docSites docs root).Pairwise fun s t => s.method.span.start ≤ t.method.span.start
  apart : (docEdits docs source root).Pairwise fun e f => e.stop ≤ f.start
  edited : Edited 0 source.toList (docEdits docs source root) output.toList

theorem SourceReader.writesDocs {g : SourceReader} {source output : String} {docs : DocMap}
    (h : (writeDocsWith g.read source docs).result = .ok output) :
    ∃ root, parseWith g.read source = .ok root ∧ WritesDocs docs source root output := by
  obtain ⟨root, hroot, houtput, -⟩ := writeDocsWith_eq_ok.1 h
  have hlossless := lossless_of_parseWith hroot
  have hplaced := hlossless.wellPlaced
  have hedited : Edited root.span.start root.text.toList
      ((docSites docs root).map (DocSite.edit (newlineOf source)))
      (annotate docs (newlineOf source) root).text.toList :=
    edited_annotate (regular_of_parseWith hroot) hplaced
  rw [hlossless.start_eq, hlossless.text_eq, houtput, newlineOf_eq] at hedited
  have hmethods : (docSites docs root).map DocSite.method =
      root.descendants.filter fun m => (docFor? docs m).isSome := by
    have hprogram : docFor? docs root = none := by
      simp [docFor?, kind_of_parseWith hroot]
    rw [map_method_docSites, Node.descendants_eq, List.filter_cons_of_neg (by simp [hprogram])]
  have hsorted := hplaced.pairwise_start_descendants.filter fun m => (docFor? docs m).isSome
  rw [← hmethods, List.pairwise_map] at hsorted
  exact ⟨root, hroot, hmethods, hsorted, hedited.pairwise, hedited⟩

/-- **A source with documentation is the source with one edit for each documented method**, however
sources are read into lossless trees, and so in this library. -/
theorem writesDocs_of_writeDocs :
    (∀ (g : SourceReader) (source output : String) (docs : DocMap),
      (writeDocsWith g.read source docs).result = .ok output →
        ∃ root, parseWith g.read source = .ok root ∧ WritesDocs docs source root output) ∧
      ∀ (source output : String) (docs : DocMap), (writeDocs source docs).result = .ok output →
        ∃ root, parseSource source = .ok root ∧ WritesDocs docs source root output :=
  ⟨fun _ _ _ _ h => SourceReader.writesDocs h,
    fun _ _ _ h => SourceReader.writesDocs (g := sourceReader) h⟩

/-- A class is documented, and a byte order mark alone is left as it is. -/
theorem writesDocs_of_writeDocs_sample :
    (writeDocsWith sampleReader.read (sampleClass [sampleMethod]).text ⟨[("f", "x")]⟩).result =
        .ok (sampleClass (sampleComment ++ [sampleMethod])).text ∧
      (∃ root, parseWith sampleReader.read (sampleClass [sampleMethod]).text = .ok root ∧
        WritesDocs ⟨[("f", "x")]⟩ (sampleClass [sampleMethod]).text root
          (sampleClass (sampleComment ++ [sampleMethod])).text) ∧
      (writeDocs "\uFEFF" ⟨[("f", "x")]⟩).result = .ok "\uFEFF" ∧
      ∃ root, parseSource "\uFEFF" = .ok root ∧
        WritesDocs ⟨[("f", "x")]⟩ "\uFEFF" root "\uFEFF" :=
  ⟨by decide +kernel, writesDocs_of_writeDocs.1 sampleReader _ _ _ (by decide +kernel), rfl,
    writesDocs_of_writeDocs.2 _ _ _ rfl⟩

end DocBlocks
