import DocBlocks.Command.Run
import DocBlocks.Proofs.Project.AtomicWrite
import DocBlocks.Proofs.Project.Scan

/-!
# Reports on directories

`extract_directory`: a report on a directory holds the descriptions of exactly the files that a scan
finds and that can be described, in the order of the scan; there is one if and only if there is such
a file. A file that cannot be described leaves a line in the log at most, and two directories that
differ only in such files, or in what a scan does not list, have the same report.

* `run_extractFiles`: one file after the other, and a failure does not stop the others.
* `run_execute_extract`: what the whole command does, in one equation.
* `describedBelow_eq`: which files are spare is told by names and contents only (`IsSpare`), since
  the path that a file is found by leads to it and the order of a scan is that of its paths.
-/

namespace DocBlocks

open Entry

variable {fs fs' : FileSystem} {path : String} {mode mode' : Nat} {es es' : List (String × Entry)}

theorem run_info_logged {ε : Type} (text : String) (s : Session) :
    (Work.info text : Work ε Unit).run s = (.ok (), s.logged [⟨.info, text⟩]) := rfl

theorem run_warn_logged {ε : Type} (text : String) (s : Session) :
    (Work.warn text : Work ε Unit).run s = (.ok (), s.logged [⟨.warn, text⟩]) := rfl

theorem run_throw {ε α : Type} (e : ε) (s : Session) :
    (throw e : Work ε α).run s = (.error e, s) := rfl

theorem logged_logged (s : Session) (xs ys : List LogLine) :
    (s.logged xs).logged ys = s.logged (xs ++ ys) := by
  simp [Session.logged]

/-! ### One file after the other -/

/-- The descriptions of files that can be described. -/
def describedFiles (fs : FileSystem) (files : List String) : List ClassDescriptor :=
  files.filterMap fun file => (extractFile fs file).toOption

/-- The descriptions of the files below a path, in the order of a scan. -/
def describedBelow (fs : FileSystem) (path : String) : List ClassDescriptor :=
  describedFiles fs (scan fs path).files

theorem run_extractFiles (files : List String) (s : Session) :
    ∃ lines, (extractFiles files).run s =
      (.ok (describedFiles s.files files), s.logged lines) := by
  induction files generalizing s with
  | nil => exact ⟨[], by simp [Session.logged]; rfl⟩
  | cons file files ih =>
    rw [extractFiles, Work.run_bind_of_ok _ (Work.run_files s)]
    cases hfile : extractFile s.files file with
    | ok c =>
      obtain ⟨lines, hrun⟩ := ih s
      refine ⟨lines, ?_⟩
      dsimp only
      rw [Work.run_bind_of_ok _ hrun]
      simp only [describedFiles, List.filterMap_cons, hfile, Except.toOption]
      rfl
    | error e =>
      have hskip : describedFiles s.files (file :: files) = describedFiles s.files files := by
        simp [describedFiles, hfile, Except.toOption]
      rw [hskip]
      -- without a class nothing is said, and any other failure is told
      split
      · rename_i c hc
        cases hc
      · exact ih s
      · rename_i e' _ he
        obtain ⟨lines, hrun⟩ := ih (s.logged [⟨.warn, "Skipping " ++ file ++ ": " ++ e'.message⟩])
        exact ⟨_, by rw [Work.run_bind_of_ok _ (run_warn_logged ..), hrun, logged_logged]; rfl⟩

/-! ### The whole command -/

/-- Extracting from a path to the output, started with files. -/
def extractRun (fs : FileSystem) (path : String) (format : OutputFormat) :
    Except Failure Unit × Session :=
  (Command.extract path format none).execute.run (.start fs)

/-- Why there is no report on a directory. -/
def emptyReport (fs : FileSystem) (path : String) : String :=
  if (scan fs path).files.isEmpty then "No PHP files found in " ++ path
  else "No controller classes could be extracted from " ++ path

theorem run_scanLogged (s : Session) (h : (scan s.files path).warnings = []) :
    (scanLogged path : Work Failure ScanResult).run s = (.ok (scan s.files path), s) := by
  rw [scanLogged, Work.run_bind_of_ok _ (Work.run_files s)]
  dsimp only
  rw [h]
  rfl

/-- The report on a directory whose entries can be walked. -/
theorem run_directoryReport (s : Session) (h : (scan s.files path).warnings = []) :
    ∃ lines, (directoryReport path).run s =
      (if describedBelow s.files path = [] then .error (.stated (emptyReport s.files path))
        else .ok (.list ((describedBelow s.files path).map ClassDescriptor.toData)),
        s.logged lines) := by
  obtain ⟨lines, hrun⟩ := run_extractFiles (scan s.files path).files
    ((s.logged [⟨.info, "Scanning directory..."⟩]).logged
      [⟨.info, "Found " ++ toString (scan s.files path).files.length ++ " PHP files"⟩])
  rw [directoryReport, Work.run_bind_of_ok _ (run_info_logged ..),
    Work.run_bind_of_ok _ (run_scanLogged (s.logged _) h), Work.run_bind_of_ok _ (run_info_logged ..)]
  simp only [Session.files_logged, logged_logged] at hrun ⊢
  rw [← describedBelow] at hrun
  cases hfiles : (scan s.files path).files.isEmpty with
  | true =>
    have hnone : describedBelow s.files path = [] := by
      rw [describedBelow, List.isEmpty_iff.1 hfiles]
      rfl
    simp only [hnone, emptyReport, hfiles, if_true]
    rw [Work.run_bind_of_error _ (run_throw ..)]
    exact ⟨_, rfl⟩
  | false =>
    simp only [emptyReport, hfiles, Bool.false_eq_true, if_false]
    rw [Work.run_bind_of_ok _ hrun, Work.run_bind_of_ok _ (run_info_logged ..), logged_logged]
    simp only [List.isEmpty_iff]
    split_ifs
    · rw [Work.run_bind_of_error _ (run_throw ..)]
      exact ⟨_, rfl⟩
    · exact ⟨_, rfl⟩

theorem run_check_extract (s : Session) (format : OutputFormat) (h : s.files.holds path = true) :
    ∃ lines, (Command.extract path format none).check.run s = (.ok (), s.logged lines) := by
  rw [Command.check, Work.run_bind_of_ok _ (Work.run_files s)]
  simp only [h, Bool.not_true, Bool.false_eq_true, if_false]
  rw [Work.run_bind_of_ok _ (run_info_logged ..), Work.run_bind_of_ok _ (run_info_logged ..),
    run_info_logged, logged_logged, logged_logged]
  exact ⟨_, rfl⟩

/-- **What extracting from a directory does**: it prints the report on the files that can be
described, or fails if there are none. No file is changed. -/
theorem run_execute_extract (format : OutputFormat) (h : fs.isDirectory path = true) :
    ∃ log, extractRun fs path format =
      if describedBelow fs path = [] then (.error (.stated (emptyReport fs path)), ⟨fs, log, ""⟩)
      else (.ok (), ⟨fs, log,
        format.write (.list ((describedBelow fs path).map ClassDescriptor.toData)) ++ "\n"⟩) := by
  obtain ⟨mode, es, hfind⟩ := FileSystem.exists_of_isDirectory h
  have hholds : fs.holds path = true := by
    rw [FileSystem.holds, hfind]
    rfl
  obtain ⟨lines, hcheck⟩ := run_check_extract (.start fs) format hholds
  have hquiet : (scan ((Session.start fs).logged lines).files path).warnings = [] := by
    rw [Session.files_logged, Session.start, scan_eq hfind]
  obtain ⟨lines', hreport⟩ := run_directoryReport ((Session.start fs).logged lines) hquiet
  have hfiles : ((Session.start fs).logged lines).files = fs := rfl
  simp only [hfiles] at hreport
  rw [extractRun, Command.execute, Work.run_bind_of_ok _ hcheck, Command.run, runExtract,
    Work.run_bind_of_ok _ (Work.run_files _)]
  simp only [hfiles, h, if_true]
  refine ⟨lines ++ lines', ?_⟩
  split_ifs at hreport ⊢
  · rw [Work.run_bind_of_error _ hreport]
    rfl
  · rw [Work.run_bind_of_ok _ hreport]
    rfl

/-! ### Files that can be described -/

/-- Whether bytes are a text whose class can be described. -/
def IsDescribable (content : ByteArray) : Prop :=
  ∃ text c, String.fromUTF8? content = some text ∧ extractText text = .ok c

/-- Whether it does not matter for a report what a directory holds at a location: no scan lists the
location, there is no file, or the file cannot be described. -/
def IsSpare (d : Entry) (l : Location) : Prop :=
  ∀ content, isListed l = true → d.HoldsFile l content → ¬ IsDescribable content

/-- Whether two directories differ in spare files only: a file is in both, or what each of them
holds at its place is spare. -/
def DifferInSpare (d d' : Entry) : Prop :=
  ∀ l, (∀ content, d.HoldsFile l content ↔ d'.HoldsFile l content) ∨ (IsSpare d l ∧ IsSpare d' l)

theorem DifferInSpare.symm {d d' : Entry} (h : DifferInSpare d d') : DifferInSpare d' d := fun l =>
  (h l).imp (fun h content => (h content).symm) And.symm

theorem path_of_extractFile {file : String} {c : ClassDescriptor} (h : extractFile fs file = .ok c) :
    c.path = some file := by
  rw [extractFile] at h
  split at h
  · rename_i text _
    rw [extractTextAt] at h
    split at h
    · rw [← Except.ok.inj h]
    · cases h
  · cases h

theorem extractFile_congr {file : String} (h : fs.readText file = fs'.readText file) :
    extractFile fs file = extractFile fs' file := by
  rw [extractFile, extractFile, h]

theorem isOk_extractFile {file : String} {content : ByteArray}
    (h : fs.readText file = (String.fromUTF8? content).elim (.error .notText) .ok) :
    (extractFile fs file).isOk = true ↔ IsDescribable content := by
  rw [extractFile, h, IsDescribable]
  cases String.fromUTF8? content with
  | none => simp [Except.isOk, Except.toBool]
  | some text =>
    simp only [Option.elim_some, extractTextAt]
    cases htext : extractText text <;> simp [htext, Except.isOk, Except.toBool]

/-- Files that can be described are found in both of two directories that differ in spare files
only, with the same content. -/
theorem mem_scan_of_differInSpare (h : fs.find path = .ok (.directory mode es))
    (h' : fs'.find path = .ok (.directory mode' es')) (hes : NamedAll es) (hes' : NamedAll es')
    (hdiffer : DifferInSpare (.directory mode es) (.directory mode' es')) {file : String}
    (hfile : file ∈ (scan fs path).files) (hok : (extractFile fs file).isOk = true) :
    file ∈ (scan fs' path).files ∧ fs'.readText file = fs.readText file := by
  obtain ⟨l, content, hlisted, hholds, rfl⟩ := (mem_scan h hes).1 hfile
  have hread := readText_pathBelow h hes hlisted hholds
  rcases hdiffer l with hsame | ⟨hspare, -⟩
  · have hholds' := (hsame content).1 hholds
    refine ⟨(mem_scan h' hes').2 ⟨l, content, hlisted, hholds', rfl⟩, ?_⟩
    rw [readText_pathBelow h' hes' hlisted hholds', hread]
  · exact absurd ((isOk_extractFile hread).1 hok) (hspare content hlisted hholds)

theorem describedFiles_filter (fs : FileSystem) (files : List String) :
    describedFiles fs (files.filter fun file => (extractFile fs file).isOk) =
      describedFiles fs files := by
  induction files with
  | nil => rfl
  | cons file files ih =>
    cases hfile : extractFile fs file with
    | ok c =>
      rw [List.filter_cons_of_pos (by simp [hfile, Except.isOk, Except.toBool])]
      simpa [describedFiles, hfile, Except.toOption] using ih
    | error e =>
      rw [List.filter_cons_of_neg (by simp [hfile, Except.isOk, Except.toBool])]
      simpa [describedFiles, hfile, Except.toOption] using ih

/-- **Directories that differ in spare files only have the same descriptions below them.** -/
theorem describedBelow_eq (hroot : fs.root.Named) (hroot' : fs'.root.Named)
    (h : fs.find path = .ok (.directory mode es)) (h' : fs'.find path = .ok (.directory mode' es'))
    (hdiffer : DifferInSpare (.directory mode es) (.directory mode' es')) :
    describedBelow fs path = describedBelow fs' path := by
  obtain ⟨l, -, hat⟩ := FileSystem.find_eq_ok h
  obtain ⟨l', -, hat'⟩ := FileSystem.find_eq_ok h'
  have hes : NamedAll es := hroot.of_at? hat
  have hes' : NamedAll es' := hroot'.of_at? hat'
  have hdir : fs.isDirectory path = true := by simp [FileSystem.isDirectory, h, Entry.isDirectory]
  have hdir' : fs'.isDirectory path = true := by
    simp [FileSystem.isDirectory, h', Entry.isDirectory]
  have hfiles : (scan fs path).files.filter (fun file => (extractFile fs file).isOk) =
      (scan fs' path).files.filter fun file => (extractFile fs' file).isOk := by
    apply filter_scan_eq hroot hroot' hdir hdir'
    intro file
    constructor
    · rintro ⟨hmem, hok⟩
      obtain ⟨hmem', hread⟩ := mem_scan_of_differInSpare h h' hes hes' hdiffer hmem hok
      exact ⟨hmem', by rwa [extractFile_congr hread]⟩
    · rintro ⟨hmem, hok⟩
      obtain ⟨hmem', hread⟩ := mem_scan_of_differInSpare h' h hes' hes hdiffer.symm hmem hok
      exact ⟨hmem', by rwa [extractFile_congr hread]⟩
  -- the files kept are read in the same way
  rw [describedBelow, describedBelow, ← describedFiles_filter fs, ← describedFiles_filter fs', ← hfiles]
  refine List.filterMap_congr fun file hfile => ?_
  obtain ⟨hmem, hok⟩ := List.mem_filter.1 hfile
  rw [extractFile_congr (mem_scan_of_differInSpare h h' hes hes' hdiffer hmem hok).2]

/-! ### Reports -/

theorem mem_describedFiles {files : List String} {c : ClassDescriptor} :
    c ∈ describedFiles fs files ↔ ∃ file ∈ files, extractFile fs file = .ok c := by
  rw [describedFiles, List.mem_filterMap]
  refine exists_congr fun file => and_congr_right fun _ => ?_
  cases extractFile fs file <;> simp [Except.toOption]

theorem map_path_describedFiles (fs : FileSystem) (files : List String) :
    (describedFiles fs files).map ClassDescriptor.path =
      (files.filter fun file => (extractFile fs file).isOk).map some := by
  induction files with
  | nil => rfl
  | cons file files ih =>
    cases hfile : extractFile fs file with
    | ok c =>
      rw [List.filter_cons_of_pos (by simp [hfile, Except.isOk, Except.toBool])]
      simpa [describedFiles, hfile, Except.toOption, path_of_extractFile hfile] using ih
    | error e =>
      rw [List.filter_cons_of_neg (by simp [hfile, Except.isOk, Except.toBool])]
      simpa [describedFiles, hfile, Except.toOption] using ih

/-- What extracting from a directory comes to. -/
structure ReportsBelow (fs : FileSystem) (path : String) (format : OutputFormat) : Prop where
  /-- One file is enough. -/
  succeeds_iff : (extractRun fs path format).1 = .ok () ↔
    ∃ file ∈ (scan fs path).files, ∃ c, extractFile fs file = .ok c
  /-- The report is the list of all descriptions, in the order of the scan. -/
  output_eq : (extractRun fs path format).1 = .ok () → (extractRun fs path format).2.output =
    format.write (.list (((scan fs path).files.filterMap fun file =>
      (extractFile fs file).toOption).map ClassDescriptor.toData)) ++ "\n"
  /-- Each description has the path of its file. -/
  paths_eq : ((scan fs path).files.filterMap fun file => (extractFile fs file).toOption).map
      ClassDescriptor.path =
    ((scan fs path).files.filter fun file => (extractFile fs file).isOk).map some
  output_of_failure : (extractRun fs path format).1 ≠ .ok () → (extractRun fs path format).2.output = ""
  files_eq : (extractRun fs path format).2.files = fs

theorem reportsBelow (format : OutputFormat) (h : fs.isDirectory path = true) :
    ReportsBelow fs path format := by
  obtain ⟨log, hrun⟩ := run_execute_extract format h
  have hsome : describedBelow fs path ≠ [] ↔
      ∃ file ∈ (scan fs path).files, ∃ c, extractFile fs file = .ok c := by
    constructor
    · intro hne
      obtain ⟨c, hc⟩ := List.exists_mem_of_ne_nil _ hne
      obtain ⟨file, hmem, hc⟩ := mem_describedFiles.1 hc
      exact ⟨file, hmem, c, hc⟩
    · rintro ⟨file, hmem, c, hc⟩
      exact List.ne_nil_of_mem (mem_describedFiles.2 ⟨file, hmem, hc⟩)
  by_cases hnone : describedBelow fs path = []
  · rw [if_pos hnone] at hrun
    refine ⟨?_, ?_, map_path_describedFiles .., fun _ => by rw [hrun], by rw [hrun]⟩
    · rw [hrun, ← hsome]
      simp [hnone]
    · rw [hrun]
      simp
  · rw [if_neg hnone] at hrun
    refine ⟨?_, fun _ => by rw [hrun]; rfl, map_path_describedFiles .., ?_, by rw [hrun]⟩
    · rw [hrun, ← hsome]
      simp [hnone]
    · rw [hrun]
      simp

theorem output_extractRun (format : OutputFormat) (h : fs.isDirectory path = true)
    (h' : fs'.isDirectory path = true) (heq : describedBelow fs path = describedBelow fs' path) :
    ((extractRun fs path format).1 = .ok () ↔ (extractRun fs' path format).1 = .ok ()) ∧
      (extractRun fs path format).2.output = (extractRun fs' path format).2.output := by
  obtain ⟨log, hrun⟩ := run_execute_extract format h
  obtain ⟨log', hrun'⟩ := run_execute_extract format h'
  rw [hrun, hrun', ← heq]
  split_ifs <;> simp

/-- **A report on a directory is about the files that can be described, and nothing else.** There is
one if and only if there is such a file, and it lists their descriptions in the order of the scan.
Two directories that differ only in files that a scan does not list or that cannot be described come
to the same: a report on one of them is the report on the other, to the byte. -/
theorem extract_directory :
    (∀ {fs : FileSystem} {path : String} (format : OutputFormat), fs.isDirectory path = true →
      ReportsBelow fs path format) ∧
      ∀ {fs fs' : FileSystem} {path : String} {mode mode' : Nat} {es es' : List (String × Entry)}
        (format : OutputFormat), fs.root.Named → fs'.root.Named →
        fs.find path = .ok (.directory mode es) → fs'.find path = .ok (.directory mode' es') →
        DifferInSpare (.directory mode es) (.directory mode' es') →
        ((extractRun fs path format).1 = .ok () ↔ (extractRun fs' path format).1 = .ok ()) ∧
          (extractRun fs path format).2.output = (extractRun fs' path format).2.output := by
  refine ⟨reportsBelow, fun format hroot hroot' h h' hdiffer => ?_⟩
  refine output_extractRun format ?_ ?_ (describedBelow_eq hroot hroot' h h' hdiffer)
  · simp [FileSystem.isDirectory, h, Entry.isDirectory]
  · simp [FileSystem.isDirectory, h', Entry.isDirectory]

/-- A directory with a source, and the same with an empty source, a note and a file that is no text.
-/
def cleanDirectory : FileSystem :=
  ⟨.directory 0o755 [("A.php", .file 0o644 "<?php class A {}".toUTF8)], []⟩

@[inherit_doc cleanDirectory]
def clutteredDirectory : FileSystem :=
  ⟨.directory 0o755 [("A.php", .file 0o644 "<?php class A {}".toUTF8),
    ("B.php", .file 0o644 "".toUTF8), ("C.php", .file 0o644 ⟨#[0xFF]⟩),
    ("note.md", .file 0o644 "x".toUTF8)], []⟩

theorem find_dot (e : Entry) : FileSystem.find ⟨e, []⟩ "." = .ok e := by
  have hsteps : FileSystem.stepsOf "." ++
      (if FileSystem.endsInSlash "." then ["."] else []) = ["."] := by decide
  rw [FileSystem.find, FileSystem.locate, hsteps, if_neg (by decide), if_neg (by decide),
    FileSystem.walk, if_pos (by decide), FileSystem.walk]
  rfl

theorem differInSpare_clutteredDirectory :
    DifferInSpare cleanDirectory.root clutteredDirectory.root := by
  have hempty : ¬ IsDescribable "".toUTF8 := by
    rintro ⟨text, c, htext, hc⟩
    have hread : String.fromUTF8? "".toUTF8 = some "" := dif_pos "".isValidUTF8
    obtain rfl : "" = text := Option.some.inj (hread.symm.trans htext)
    cases hc
  have hbytes : ¬ IsDescribable ⟨#[0xFF]⟩ := by
    rintro ⟨text, c, htext, -⟩
    have hnone : String.fromUTF8? ⟨#[0xFF]⟩ = none := by decide
    simp [hnone] at htext
  rintro (_ | ⟨n, l⟩)
  · refine .inl fun content => iff_of_false ?_ ?_ <;> rintro ⟨mode, hmode⟩ <;> cases hmode
  by_cases hn : n = "A.php"
  · -- the source is the same in both
    refine .inl fun content => ?_
    simp [cleanDirectory, clutteredDirectory, holdsFile_directory_cons, hn]
  refine .inr ⟨fun content _ hholds => ?_, fun content hlisted hholds hdesc => ?_⟩
  · simp [cleanDirectory, holdsFile_directory_cons, lookup_cons, hn] at hholds
  · obtain ⟨e, he, hholds⟩ := holdsFile_directory_cons.1 hholds
    simp only [lookup_cons, hn, if_false, List.lookup_nil] at he
    split_ifs at he with hB hC hnote
    · obtain rfl := Option.some.inj he
      obtain ⟨-, rfl⟩ := holdsFile_file.1 hholds
      exact hempty hdesc
    · obtain rfl := Option.some.inj he
      obtain ⟨-, rfl⟩ := holdsFile_file.1 hholds
      exact hbytes hdesc
    · obtain rfl := Option.some.inj he
      obtain ⟨rfl, -⟩ := holdsFile_file.1 hholds
      obtain rfl := hnote
      exact absurd hlisted (by decide)

theorem extract_directory_cluttered :
    cleanDirectory.isDirectory "." = true ∧ ReportsBelow cleanDirectory "." .json ∧
      cleanDirectory.root.Named ∧ clutteredDirectory.root.Named ∧
      DifferInSpare cleanDirectory.root clutteredDirectory.root ∧
      (extractRun cleanDirectory "." .json).2.output =
        (extractRun clutteredDirectory "." .json).2.output := by
  have hdir : cleanDirectory.isDirectory "." = true := by
    rw [FileSystem.isDirectory, cleanDirectory, find_dot]
    rfl
  have hclean : cleanDirectory.root.Named := ⟨by decide, by simp, trivial, trivial⟩
  have hcluttered : clutteredDirectory.root.Named :=
    ⟨by decide, by decide, trivial, by decide, by decide, trivial, by decide, by decide, trivial,
      by decide, by simp, trivial, trivial⟩
  exact ⟨hdir, extract_directory.1 .json hdir, hclean, hcluttered,
    differInSpare_clutteredDirectory, (extract_directory.2 .json hclean hcluttered (find_dot _)
      (find_dot _) differInSpare_clutteredDirectory).2⟩

end DocBlocks
