import DocBlocks.Proofs.Annotation.Twice
import DocBlocks.Proofs.Syntax.GrammarReader

/-!
# Line breaks of what was written

`lineBreaks_writeDocs`: documentation never mixes line breaks. A source whose line feeds all stand
behind carriage returns stays so (`Paired`), and a source in which none does stays so as well.

An edit brings its own line breaks in the one kind or the other, whatever text it is made of, so
what is left to look at is the two cuts that it makes. Only a cut between a carriage return and its
line feed could do harm (`Edited.paired`). There is none: a documentation comment ends with a slash,
and a method begins with an attribute or a word.
-/

namespace DocBlocks

/-! ### Line feeds behind carriage returns -/

/-- Whether every line feed of a text stands right behind a carriage return. -/
def Paired (cs : List Char) : Prop :=
  ∀ front back, cs = front ++ '\n' :: back → front.getLast? = some '\r'

theorem paired_of_not_mem {cs : List Char} (h : '\n' ∉ cs) : Paired cs := by
  rintro front back rfl
  simp at h

theorem Paired.head?_ne {cs : List Char} (h : Paired cs) : cs.head? ≠ some '\n' := by
  intro hhead
  obtain ⟨back, rfl⟩ := List.head?_eq_some_iff.1 hhead
  have hlast := h [] back rfl
  simp at hlast

theorem Paired.append {xs ys : List Char} (hx : Paired xs) (hy : Paired ys) :
    Paired (xs ++ ys) := by
  intro front back hsplit
  rcases List.append_eq_append_iff.1 hsplit with ⟨middle, rfl, hys⟩ | ⟨middle, rfl, hxs⟩
  · -- the line feed is in the second text, and there it is not the first character
    have hlast := hy middle back hys
    rw [List.getLast?_append, hlast, Option.some_or]
  · cases middle with
    | nil =>
      have hhead : ys.head? = some '\n' := by
        rw [List.nil_append] at hxs
        rw [← hxs, List.head?_cons]
      exact absurd hhead hy.head?_ne
    | cons c cs =>
      rw [List.cons_append, List.cons.injEq] at hxs
      obtain ⟨rfl, rfl⟩ := hxs
      exact hx front cs rfl

theorem Paired.of_append_left {xs ys : List Char} (h : Paired (xs ++ ys)) : Paired xs := by
  rintro front back rfl
  exact h front (back ++ ys) (by simp)

/-- What stands behind a cut is paired, unless the cut stands before a line feed. -/
theorem Paired.of_append_right {xs ys : List Char} (h : Paired (xs ++ ys))
    (hcut : ys.head? ≠ some '\n') : Paired ys := by
  rintro front back rfl
  have hne : front ≠ [] := by
    rintro rfl
    exact hcut rfl
  have hlast := h (xs ++ front) back (by simp)
  rwa [List.getLast?_append_of_ne_nil _ hne] at hlast

theorem paired_intercalate {lines : List (List Char)} (h : ∀ l ∈ lines, '\n' ∉ l) :
    Paired (['\r', '\n'].intercalate lines) := by
  have hbreak : Paired ['\r', '\n'] := by
    intro front back hsplit
    match front with
    | [] => simp at hsplit
    | [c] =>
      rw [List.singleton_append, List.cons.injEq] at hsplit
      rw [List.getLast?_singleton, hsplit.1]
    | c :: d :: rest => simp at hsplit
  induction lines with
  | nil => exact paired_of_not_mem (by simp)
  | cons l ls ih =>
    have hl := paired_of_not_mem (h l List.mem_cons_self)
    cases ls with
    | nil => simpa using hl
    | cons l' ls =>
      rw [List.intercalate_cons_cons]
      exact (hl.append hbreak).append (ih fun k hk => h k (List.mem_cons_of_mem _ hk))

/-- A text with a paired line feed has a line break of the longer kind. -/
theorem Paired.isInfix {cs : List Char} (h : Paired cs) (hmem : '\n' ∈ cs) :
    ['\r', '\n'] <:+: cs := by
  obtain ⟨front, back, rfl⟩ := List.append_of_mem hmem
  obtain ⟨start, rfl⟩ := List.getLast?_eq_some_iff.1 (h front back rfl)
  exact ⟨start, back, by simp⟩

/-- **Edits keep line feeds paired**, if those of each edit are, and no edit ends before a line
feed. -/
theorem Edited.paired {offset : Nat} {before after : List Char} {es : List Edit}
    (h : Edited offset before es after) (hbefore : Paired before)
    (htexts : ∀ e ∈ es, Paired e.text.toList)
    (hcuts : ∀ e ∈ es, ∀ front back, before = front ++ back →
      offset + byteLength front = e.stop → back.head? ≠ some '\n') : Paired after := by
  induction h with
  | done => exact hbefore
  | @edit offset e es kept gone rest after hstart hstop _ ih =>
    have hstop' : offset + byteLength (kept ++ gone) = e.stop := by
      rw [hstop, hstart, byteLength_append, Nat.add_assoc]
    have hrest : Paired rest :=
      hbefore.of_append_right (hcuts e List.mem_cons_self _ _ rfl hstop')
    have hkept : Paired kept := hbefore.of_append_left.of_append_left
    have hafter : Paired after := by
      apply ih hrest (fun f hf => htexts f (List.mem_cons_of_mem _ hf))
      intro f hf front back hsplit hf'
      apply hcuts f (List.mem_cons_of_mem _ hf) (kept ++ gone ++ front) back
      · rw [hsplit, List.append_assoc _ front]
      · rw [byteLength_append, ← Nat.add_assoc, hstop', hf']
    exact (hkept.append (htexts e List.mem_cons_self)).append hafter

/-! ### Edits of a source -/

variable {docs : DocMap}

theorem paired_edit (s : DocSite) : Paired (s.edit "\r\n").text.toList := by
  have hi : IsIndentation s.indent.toList := isIndentation_indentationAfter s.before
  have hblock : Paired (s.block "\r\n").toList := by
    rw [DocSite.block, renderBlock, String.toList_ofList]
    exact paired_intercalate fun l hl => (endsClean_of_mem_renderLines hi hl).1
  cases hcomment : s.comment? with
  | some c =>
    rw [DocSite.edit_of_comment?_eq_some hcomment]
    exact hblock
  | none =>
    have hindent : '\n' ∉ s.indent.toList := by
      intro hmem
      rcases hi _ hmem with h | h <;> simp at h
    have hline : Paired (['\r', '\n'].intercalate [[], s.indent.toList]) :=
      paired_intercalate (by simpa using hindent)
    rw [DocSite.edit_of_comment?_eq_none hcomment]
    simpa using hblock.append hline

theorem mem_descendants_of_mem_docSitesAmong {ns before : List Node} {s : DocSite}
    (hs : s ∈ docSitesAmong docs before ns)
    (ih : ∀ n ∈ ns, ∀ s ∈ docSites docs n, ∀ c ∈ s.before, c ∈ n.descendants) :
    ∀ c ∈ s.before, c ∈ before ∨ c ∈ Node.descendantsAll ns := by
  induction ns generalizing before with
  | nil => simp [docSitesAmong] at hs
  | cons n ns ihs =>
    intro c hc
    rw [Node.descendantsAll, List.mem_append]
    simp only [docSitesAmong, List.mem_append, Option.mem_toList, Option.map_eq_some_iff] at hs
    rcases hs with (⟨x, -, rfl⟩ | hs) | hs
    · exact .inl hc
    · exact .inr (.inl (ih n List.mem_cons_self s hs c hc))
    · have hmem := ihs hs (fun m hm => ih m (List.mem_cons_of_mem _ hm)) c hc
      rw [List.mem_cons] at hmem
      rcases hmem with (rfl | hmem) | hmem
      · exact .inr (.inl (Node.self_mem_descendants _))
      · exact .inl hmem
      · exact .inr (.inr hmem)

/-- What stands in front of a documented method is in the tree. -/
theorem mem_descendants_of_mem_before {n : Node} {s : DocSite} (hs : s ∈ docSites docs n) :
    ∀ c ∈ s.before, c ∈ n.descendants := by
  induction n using Node.treeInduction generalizing s with
  | leaf l t => simp [docSites] at hs
  | branch l cs ih =>
    intro c hc
    have hmem := mem_descendants_of_mem_docSitesAmong hs (fun m hm s hs => ih m hm hs) c hc
    rw [Node.descendants_branch, List.mem_cons]
    exact .inr (hmem.resolve_left (by simp))

/-- A documentation comment ends with a slash. -/
theorem getLast?_of_isDocComment {c : Node} (hdoc : c.isDocComment = true)
    (hshape : CommentText c.text.toList) : c.text.toList.getLast? = some '/' := by
  obtain ⟨rest, hrest⟩ : ∃ rest, c.text.toList = '/' :: '*' :: rest := by
    cases c with
    | branch l cs => simp [Node.isDocComment, Node.leafText?] at hdoc
    | leaf l t =>
      simp only [Node.isDocComment, Node.leafText?, Option.any_some, Bool.and_eq_true,
        String.startsWith_string_iff] at hdoc
      obtain ⟨rest, hrest⟩ := hdoc.2
      exact ⟨'*' :: rest, by simpa using hrest.symm⟩
  generalize c.text.toList = cs at hrest hshape
  cases hshape with
  | block body =>
    have hsplit : '/' :: '*' :: body ++ ['*', '/'] = ('/' :: '*' :: body ++ ['*']) ++ ['/'] := by
      simp
    rw [hsplit, List.getLast?_concat]
  | line hopens _ _ => rcases hopens with rfl | rfl <;> simp at hrest

section Cuts

variable {g : GrammarReader} {source : String} {root : Node} {front back : List Char}

/-- A node that stands in a source is cut off where it starts and where it stops. -/
theorem Node.StandsIn.exists_cuts {n : Node} (h : n.StandsIn source)
    (hsplit : source.toList = front ++ back) :
    (byteLength front = n.span.start → ∃ after, back = n.text.toList ++ after) ∧
      (byteLength front = n.span.stop → ∃ before, front = before ++ n.text.toList) := by
  obtain ⟨before, after, hsource, hspan⟩ := h
  rw [hsplit] at hsource
  rw [hspan]
  constructor
  · intro hlength
    rw [List.append_assoc] at hsource
    exact ⟨after, (append_inj_of_byteLength_eq hsource hlength).2⟩
  · intro hlength
    exact ⟨before, (append_inj_of_byteLength_eq hsource hlength).1⟩

/-- No line feed stands behind a documentation comment, if all of them are paired. -/
theorem head?_ne_of_stop_eq (hroot : parseWith g.read source = .ok root)
    (hpaired : Paired source.toList) {c : Node} (hc : c ∈ root.descendants)
    (hdoc : c.isDocComment = true) (hsplit : source.toList = front ++ back)
    (hstop : byteLength front = c.span.stop) : back.head? ≠ some '\n' := by
  have hstands := (SourceReader.lossless_of_parseWith hroot).standsIn c hc
  have hslash := getLast?_of_isDocComment hdoc
    (GrammarReader.commentText hroot hc (Node.kind_of_isDocComment hdoc))
  obtain ⟨before, rfl⟩ := (hstands.exists_cuts hsplit).2 hstop
  intro hhead
  obtain ⟨rest, rfl⟩ := List.head?_eq_some_iff.1 hhead
  have hreturn := hpaired _ _ hsplit
  rw [List.getLast?_append, hslash, Option.some_or] at hreturn
  simp at hreturn

/-- A method with documentation begins with an attribute or a word. -/
theorem exists_front_of_docFor? (hroot : parseWith g.read source = .ok root) {m : Node}
    (hm : m ∈ root.descendants) {x : String × String} (hx : docFor? docs m = some x) :
    ∃ c cs, m.text.toList = c :: cs ∧ (c = '#' ∨ isNameStart c = true) := by
  have hkind : m.kind = .method := kind_of_docFor? hx
  obtain ⟨n, _, _, -, rfl, hsurveyed⟩ := GrammarReader.exists_of_mem_descendants hroot hm
  rw [Node.kind_place] at hkind
  rw [Node.text_place]
  exact ((Node.along_iff.1 hsurveyed).1.memberEnds.2 hkind).front

/-- No line feed stands at the front of a method with documentation. -/
theorem head?_ne_of_start_eq (hroot : parseWith g.read source = .ok root) {m : Node}
    (hm : m ∈ root.descendants) {x : String × String} (hx : docFor? docs m = some x)
    (hsplit : source.toList = front ++ back) (hstart : byteLength front = m.span.start) :
    back.head? ≠ some '\n' := by
  have hstands := (SourceReader.lossless_of_parseWith hroot).standsIn m hm
  obtain ⟨c, cs, htext, hc⟩ := exists_front_of_docFor? hroot hm hx
  obtain ⟨after, rfl⟩ := (hstands.exists_cuts hsplit).1 hstart
  rw [htext, List.cons_append, List.head?_cons]
  intro hhead
  obtain rfl : c = '\n' := Option.some.inj hhead
  rcases hc with h | h
  · simp at h
  · exact absurd h (by decide)

/-- **No edit ends before a line feed**, if all line feeds of the source are paired. -/
theorem head?_ne_of_edit (hroot : parseWith g.read source = .ok root)
    (hpaired : Paired source.toList) {s : DocSite} (hs : s ∈ docSites docs root) {newline : String}
    (hsplit : source.toList = front ++ back)
    (hstop : byteLength front = (s.edit newline).stop) : back.head? ≠ some '\n' := by
  cases hcomment : s.comment? with
  | some c =>
    rw [DocSite.edit_of_comment?_eq_some hcomment] at hstop
    obtain ⟨hfind, hdoc⟩ := Option.filter_eq_some_iff.1 hcomment
    have hc : c ∈ root.descendants :=
      mem_descendants_of_mem_before hs c (List.mem_of_find?_eq_some hfind)
    exact head?_ne_of_stop_eq hroot hpaired hc hdoc hsplit hstop
  | none =>
    rw [DocSite.edit_of_comment?_eq_none hcomment] at hstop
    have hmem : s.method ∈ (docSites docs root).map DocSite.method := List.mem_map_of_mem hs
    rw [map_method_docSites, List.mem_filter, Option.isSome_iff_exists] at hmem
    obtain ⟨hbelow, x, hx⟩ := hmem
    have hm : s.method ∈ root.descendants := by
      rw [Node.descendants_eq]
      exact List.mem_cons_of_mem _ hbelow
    exact head?_ne_of_start_eq hroot hm hx hsplit hstop

end Cuts

/-- Whether the line breaks of a source and of what is written are of one sort: where all line feeds
of the source stand behind carriage returns, so they do in what is written, and where none does,
none does there. -/
structure KeepsBreaks (source output : String) : Prop where
  paired : '\n' ∈ source.toList → Paired source.toList → Paired output.toList
  bare : ¬ ['\r', '\n'] <:+: source.toList → ¬ ['\r', '\n'] <:+: output.toList

theorem GrammarReader.keepsBreaks {g : GrammarReader} {source output : String}
    (h : (writeDocsWith g.read source docs).result = .ok output) :
    KeepsBreaks source output := by
  obtain ⟨root, hroot, hwrites⟩ := SourceReader.writesDocs h
  constructor
  · intro hmem hpaired
    have hedits : docEdits docs source root = (docSites docs root).map (DocSite.edit "\r\n") := by
      simp [docEdits, hpaired.isInfix hmem]
    apply hwrites.edited.paired hpaired
    · intro e he
      rw [hedits] at he
      obtain ⟨s, -, rfl⟩ := List.mem_map.1 he
      exact paired_edit s
    · intro e he front back hsplit hstop
      rw [hedits] at he
      obtain ⟨s, hs, rfl⟩ := List.mem_map.1 he
      rw [Nat.zero_add] at hstop
      exact head?_ne_of_edit hroot hpaired hs hsplit hstop
  · intro hnone hpair
    have hsource : newlineOf source = "\n" := by rw [newlineOf_eq, if_neg hnone]
    have houtput := hwrites.newlineOf_eq hsource
    rw [newlineOf_eq, if_pos hpair] at houtput
    simp at houtput

/-- **Documentation never mixes line breaks.** -/
theorem lineBreaks_writeDocs (source : String) (docs : DocMap) :
    (∀ (g : GrammarReader) (output : String),
      (writeDocsWith g.read source docs).result = .ok output → KeepsBreaks source output) ∧
      ((∃ e, (writeDocs source docs).result = .error e) ∨
        ∃ output, (writeDocs source docs).result = .ok output ∧ KeepsBreaks source output) := by
  exact ⟨fun g output h => g.keepsBreaks h,
    error_or_exists fun output h => grammarReader.keepsBreaks h⟩

/-- Documentation is written into a program with line feeds. -/
theorem lineBreaks_writeDocs_sample :
    (writeDocsWith sampleGrammarReader.read (sampleProgram "") ⟨[("f", "x")]⟩).result =
        .ok (sampleProgram sampleBlock) ∧
      KeepsBreaks (sampleProgram "") (sampleProgram sampleBlock) := by
  have h : (writeDocsWith sampleGrammarReader.read (sampleProgram "") ⟨[("f", "x")]⟩).result =
      .ok (sampleProgram sampleBlock) := by
    decide +kernel
  exact ⟨h, (lineBreaks_writeDocs _ _).1 sampleGrammarReader _ h⟩

end DocBlocks
