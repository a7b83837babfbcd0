import DocBlocks.Proofs.Project.Replace
import DocBlocks.Proofs.Syntax.SourceReader

/-!
# Writing documentation into a file is atomic

`writeFile_writes_or_keeps`: writing documentation into a file fails and leaves the file system as
it was, or writes one file, with the documented text of the source and the permissions of what
stood there, and leaves all else as it was. The engine is `run_writeFileWith`, which says that the
file system is read before it is written and that it is written in one place only, by
`replaceFile`.

Two paths may differ and lead to the same file, so that an output path of its own does not save
the source: `writeFileWith_replaces_source`.
-/

namespace DocBlocks

variable {read : String → Option Node} {path source text : String} {docs : DocMap}
  {output : Option String} {s : Session}

/-! ### What is logged -/

/-- A session with some more lines in its log. -/
def Session.logged (s : Session) (lines : List LogLine) : Session :=
  { s with log := s.log ++ lines }

@[simp] theorem Session.files_logged (s : Session) (lines : List LogLine) :
    (s.logged lines).files = s.files := rfl

@[simp] theorem Session.output_logged (s : Session) (lines : List LogLine) :
    (s.logged lines).output = s.output := rfl

/-- The warnings of an outcome. -/
def WriteOutcome.warnings (outcome : WriteOutcome) : List LogLine :=
  outcome.unused.map fun name => ⟨.warn, unusedWarning name⟩

theorem run_forM_warn {ε : Type} (names : List String) (s : Session) :
    (names.forM fun name => Work.warn (unusedWarning name) : Work ε Unit).run s =
      (.ok (), s.logged (names.map fun name => ⟨.warn, unusedWarning name⟩)) := by
  induction names generalizing s with
  | nil =>
    show (Except.ok (), s) = _
    simp [Session.logged]
  | cons name names ih =>
    show (Work.warn (unusedWarning name) >>= fun _ =>
      names.forM fun name => Work.warn (unusedWarning name) : Work ε Unit).run s = _
    rw [Work.run_bind_of_ok _ (Work.run_warn ..), ih]
    simp [Session.logged]

theorem WriteOutcome.run_finish (outcome : WriteOutcome) (s : Session) :
    outcome.finish.run s =
      (outcome.result.mapError (.unparsable inMemoryPath), s.logged outcome.warnings) := by
  rw [finish, Work.run_bind_of_ok _ (run_forM_warn ..), Work.run_ofExcept]
  rfl

/-! ### Writing into a file -/

/-- **A file is read, its documented text made, and the destination replaced**, in this order. -/
theorem run_writeFileWith (read : String → Option RangedTree) (path : String) (docs : DocMap)
    (output : Option String) (s : Session) :
    (writeFileWith read path docs output).run s =
      match s.files.readText path with
      | .error e => (.error (.unreadable path e), s)
      | .ok source =>
        let outcome := writeDocsWith read source docs
        match outcome.result with
        | .error e => (.error (.unparsable path e), s.logged outcome.warnings)
        | .ok text =>
          match (replaceFile (output.getD path) text).run (s.logged outcome.warnings) with
          | (.error e, s') => (.error e, s')
          | (.ok (), s') => (.ok (output.getD path),
              s'.logged [⟨.info, "Documentation written to " ++ output.getD path⟩]) := by
  rw [writeFileWith, Work.run_bind_of_ok _ (Work.run_files s), Work.run_bind, Work.run_ofExcept]
  cases hread : s.files.readText path with
  | error e => rfl
  | ok source =>
    show ExceptT.run (Work.describing _ _ >>= _) s = _
    rw [Work.run_bind, Work.run_describing, WriteOutcome.run_finish]
    cases hresult : (writeDocsWith read source docs).result with
    | error e => simp only [hresult]; rfl
    | ok text =>
      show ExceptT.run (replaceFile _ _ >>= _) _ = _
      rw [Work.run_bind]
      simp only [hresult]
      rcases (replaceFile (output.getD path) text).run _ with ⟨e | _, s'⟩ <;> rfl

/-- Writing documentation into a file replaces its destination or leaves everything as it was. -/
theorem writeFileWith_cases (read : String → Option RangedTree) (path : String) (docs : DocMap)
    (output : Option String) (s : Session) :
    (∃ e s', (writeFileWith read path docs output).run s = (.error e, s') ∧
        s.files.Same s'.files) ∨
      ∃ source text t s',
        (writeFileWith read path docs output).run s = (.ok (output.getD path), s') ∧
        s.files.readText path = .ok source ∧ (writeDocsWith read source docs).result = .ok text ∧
        s.files.targetOf false (output.getD path) = .ok t ∧
        FileSystem.endsInSlash (output.getD path) = false ∧
        s.files.WrittenAt s'.files t.location (modeAt s.files (output.getD path)) text.toUTF8 := by
  rw [run_writeFileWith]
  cases hread : s.files.readText path with
  | error e => exact .inl ⟨_, s, rfl, .refl _⟩
  | ok source =>
    dsimp only
    cases hresult : (writeDocsWith read source docs).result with
    | error e => exact .inl ⟨_, _, rfl, .refl _⟩
    | ok text =>
      dsimp only
      rcases replaceFile_cases (output.getD path) text
        (s.logged (writeDocsWith read source docs).warnings) with
        ⟨e, files, hrun, -, hsame⟩ | ⟨t, files, ht, hslash, hrun, hwritten⟩
      · rw [hrun]
        exact .inl ⟨_, _, rfl, hsame⟩
      · rw [hrun]
        exact .inr ⟨source, text, t, _, rfl, rfl, hresult, ht, hslash, hwritten⟩

/-! ### Permissions -/

/-- **A path that leads to a file has its permissions.** -/
theorem FileSystem.find_of_file {fs : FileSystem} {t : Target} {mode : Nat} {content : ByteArray}
    (h : fs.targetOf false path = .ok t) (hslash : endsInSlash path = false)
    (hfile : fs.root.at? t.location = some (.file mode content)) :
    fs.find path = .ok (.file mode content) := by
  have hpath : path ≠ "" := by
    rintro rfl
    cases h
  rw [targetOf, if_neg hpath] at h
  have hlocate : fs.locate path = .ok t.location := by
    rw [locate, if_neg hpath, hslash]
    simp only [Bool.false_eq_true, if_false, List.append_nil]
    rw [walk_of_file h hfile]
  rw [find, hlocate]
  simp only [hfile, Option.elim_some]

/-- **A text that was read is the content of a file.** -/
theorem FileSystem.exists_file_of_readText {fs : FileSystem} (h : fs.readText path = .ok source) :
    ∃ l mode, fs.locate path = .ok l ∧
      fs.root.at? l = some (.file mode source.toUTF8) := by
  rw [readText, find] at h
  cases hlocate : fs.locate path with
  | error e => simp [hlocate] at h
  | ok l =>
    rw [hlocate] at h
    cases he : fs.root.at? l with
    | none => simp [he] at h
    | some e =>
      cases e with
      | file mode content =>
        refine ⟨l, mode, rfl, ?_⟩
        have hcontent : String.fromUTF8? content = some source := by
          cases hc : String.fromUTF8? content <;> simp_all
        rw [String.fromUTF8?] at hcontent
        split_ifs at hcontent with hvalid
        rw [he, ← Option.some.inj hcontent]
        rfl
      | link target => simp [he] at h
      | directory mode es => simp [he] at h

/-- **Writing documentation into a file is atomic.** Either it fails, and the file system holds what
it held before. Or the only change is at the location that the destination leads to: there stands
now the documented text of the source, with the permissions of the file that stood there or that
the destination led to. The file that the source was read from is as before if it does not stand
there. -/
theorem writeFile_writes_or_keeps (read : String → Option RangedTree) (path : String)
    (docs : DocMap) (output : Option String) (s : Session) :
    (∃ e s', (writeFileWith read path docs output).run s = (.error e, s') ∧
        s.files.Same s'.files) ∨
      ∃ source text t s' mode,
        (writeFileWith read path docs output).run s = (.ok (output.getD path), s') ∧
        s.files.readText path = .ok source ∧
        (writeDocsWith read source docs).result = .ok text ∧
        s.files.targetOf false (output.getD path) = .ok t ∧
        s.files.WrittenAt s'.files t.location mode text.toUTF8 ∧
        (∀ m content, s.files.root.at? t.location = some (.file m content) → mode = m) ∧
        (∀ e, s.files.find (output.getD path) = .ok e → mode = e.mode) ∧
        ∃ l m, s.files.locate path = .ok l ∧
          s.files.root.at? l = some (.file m source.toUTF8) ∧
          (l ≠ t.location → s'.files.root.at? l = some (.file m source.toUTF8)) := by
  rcases writeFileWith_cases read path docs output s with
    hfailed | ⟨source, text, t, s', hrun, hread, hresult, ht, hslash, hwritten⟩
  · exact .inl hfailed
  refine .inr ⟨source, text, t, s', _, hrun, hread, hresult, ht, hwritten, ?_, ?_, ?_⟩
  · intro m content hfile
    rw [modeAt, FileSystem.find_of_file ht hslash hfile]
    rfl
  · intro e he
    rw [modeAt, he]
  · obtain ⟨l, m, hl, hfile⟩ := FileSystem.exists_file_of_readText hread
    refine ⟨l, m, hl, hfile, fun hne => ?_⟩
    rw [← Entry.view_eq_some_file, hwritten.view_of_ne hne, Entry.view_eq_some_file, hfile]

/-! ### Two paths of one file -/

/-- A directory with one file in it, which is the current directory as well. -/
def oneFile (content : ByteArray) : FileSystem :=
  ⟨.directory 0o755 [("A.php", .file 0o644 content)], []⟩

theorem locate_oneFile (content : ByteArray) :
    (oneFile content).locate "A.php" = .ok ["A.php"] := by
  have hsteps : FileSystem.stepsOf "A.php" ++
      (if FileSystem.endsInSlash "A.php" then ["."] else []) = ["A.php"] := by decide
  have hfile : (oneFile content).root.at? ([] ++ ["A.php"]) = some (.file 0o644 content) := rfl
  have hhere : (oneFile content).here = [] := rfl
  rw [FileSystem.locate, hsteps, if_neg (by decide), if_neg (by decide), hhere,
    walk_name_of_file (by decide) (by decide) hfile]
  rfl

theorem locate_directory_oneFile (content : ByteArray) :
    (oneFile content).locate (directoryOf "./A.php") = .ok [] := by
  have hdir : directoryOf "./A.php" = "." := by decide
  have hsteps : FileSystem.stepsOf "." ++
      (if FileSystem.endsInSlash "." then ["."] else []) = ["."] := by decide
  rw [hdir, FileSystem.locate, hsteps, if_neg (by decide), if_neg (by decide), FileSystem.walk,
    if_pos (by decide), FileSystem.walk]
  rfl

/-- A dot in front of a name leads to the same file. -/
theorem targetOf_dot_slash {fs : FileSystem} {mode : Nat} {content : ByteArray}
    (hhere : fs.here = []) (hfile : fs.root.at? ["A.php"] = some (.file mode content)) :
    fs.targetOf false "./A.php" = .ok (.there ["A.php"]) := by
  have hsteps : FileSystem.stepsOf "./A.php" = [".", "A.php"] := by decide
  rw [FileSystem.targetOf, hsteps, if_neg (by decide), if_neg (by decide), FileSystem.walk,
    if_pos (by decide), hhere]
  exact walk_name_of_file (by decide) (by decide) hfile

/-- The file can be replaced by another path. -/
theorem exists_run_replaceFile_oneFile (content : ByteArray) (hs : s.files = oneFile content)
    (text : String) : ∃ s', (replaceFile "./A.php" text).run s = (.ok (), s') := by
  have hdir : (oneFile content).root.at? [] =
      some (.directory 0o755 [("A.php", .file 0o644 content)]) := rfl
  have hfresh : ["A.php"] ≠ [] ++ [freshName [("A.php", .file 0o644 content)]] := by
    show ["A.php"] ≠ ["A.php" ++ "."]
    decide
  have hfile (m : Nat) (c : ByteArray) : ((oneFile content).withTemporary []
      [("A.php", .file 0o644 content)] m c).root.at? ["A.php"] = some (.file 0o644 content) := by
    rw [← Entry.view_eq_some_file, view_withTemporary hdir, Function.update_of_ne hfresh,
      Entry.view_eq_some_file]
    rfl
  have htarget (m : Nat) (c : ByteArray) : ((oneFile content).withTemporary []
      [("A.php", .file 0o644 content)] m c).targetOf false "./A.php" =
        .ok (.there ["A.php"]) := targetOf_dot_slash rfl (hfile m c)
  have hdots : Change.endsInDots "./A.php" = false := by decide
  have hslash : FileSystem.endsInSlash "./A.php" = false := by decide
  have hmode : isReadOnly 0o755 = false := rfl
  rw [run_replaceFile, hs, locate_directory_oneFile]
  simp only [hdir, Change.run_moveFile, htarget, hdots, hslash, at?_withTemporary hdir,
    Target.location, hfile, hmode, Bool.false_eq_true, if_false]
  exact ⟨_, rfl⟩

theorem readText_oneFile (text : String) : (oneFile text.toUTF8).readText "A.php" = .ok text := by
  have hat : (oneFile text.toUTF8).root.at? ["A.php"] = some (.file 0o644 text.toUTF8) := rfl
  have htext : String.fromUTF8? text.toUTF8 = some text := dif_pos text.isValidUTF8
  rw [FileSystem.readText, FileSystem.find, locate_oneFile]
  simp only [hat, Option.elim_some, htext]

/-- **An output path of its own does not save the source**: it may lead to the same file. -/
theorem writeFileWith_replaces_source :
    ¬ ∀ (read : String → Option RangedTree) (path output : String) (docs : DocMap) (s s' : Session),
      output ≠ path →
      (writeFileWith read path docs (some output)).run s = (.ok output, s') →
      ∀ l, s.files.locate path = .ok l → s'.files.root.at? l = s.files.root.at? l := by
  intro h
  let source := (sampleClass [sampleMethod]).text
  let documented := (sampleClass (sampleComment ++ [sampleMethod])).text
  have hresult : (writeDocsWith sampleReader.read source ⟨[("f", "x")]⟩).result =
      .ok documented := by decide +kernel
  have hread : (Session.start (oneFile source.toUTF8)).files.readText "A.php" = .ok source :=
    readText_oneFile source
  obtain ⟨s', hrun⟩ : ∃ s', (writeFileWith sampleReader.read "A.php" ⟨[("f", "x")]⟩
      (some "./A.php")).run (.start (oneFile source.toUTF8)) = (.ok "./A.php", s') := by
    obtain ⟨s', hs'⟩ := exists_run_replaceFile_oneFile (s := (Session.start
      (oneFile source.toUTF8)).logged (writeDocsWith sampleReader.read source
      ⟨[("f", "x")]⟩).warnings) source.toUTF8 rfl documented
    rw [run_writeFileWith, hread]
    dsimp only
    rw [hresult]
    dsimp only [Option.getD_some]
    rw [hs']
    exact ⟨_, rfl⟩
  have hsame := h _ _ _ _ _ s' (by decide) hrun ["A.php"] (locate_oneFile _)
  rcases writeFileWith_cases sampleReader.read "A.php" ⟨[("f", "x")]⟩ (some "./A.php")
    (.start (oneFile source.toUTF8)) with
    ⟨e, _, hrun', -⟩ | ⟨source', text, t, _, hrun', hread', hresult', ht, -, hwritten⟩
  · rw [hrun] at hrun'
    cases hrun'
  · obtain rfl : source = source' := Except.ok.inj (hread.symm.trans hread')
    obtain rfl : documented = text := Except.ok.inj (hresult.symm.trans hresult')
    obtain rfl : Target.there ["A.php"] = t :=
      Except.ok.inj ((targetOf_dot_slash rfl rfl).symm.trans ht)
    obtain rfl : s' = _ := (Prod.mk.inj (hrun.symm.trans hrun')).2
    have hfile := hwritten.at?_eq
    rw [Target.location, hsame] at hfile
    have hbytes : source.toUTF8 = documented.toUTF8 :=
      (Entry.file.inj (Option.some.inj hfile)).2
    have htext : source ≠ documented := by decide +kernel
    exact htext (String.toByteArray_inj.1 hbytes)

end DocBlocks
