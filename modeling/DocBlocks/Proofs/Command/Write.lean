import DocBlocks.Command.Run
import DocBlocks.Proofs.Project.AtomicWrite

/-!
# Dry and real runs of the command that writes documentation

`dryWrite_agrees`: a dry run changes no file and fails where a real run fails before it writes.
Where it succeeds, its output is the text that a real run writes, unless the destination cannot be
written, and then the real run changes nothing either.

Both runs check the same needs, load the same documentation and make the same text:
`run_check_write`, `run_runWrite` and `run_runDryWrite` say so one step at a time.
-/

namespace DocBlocks

variable {file docs : String} {output : Option String} {s : Session} {fs : FileSystem}

/-! ### The steps of a run -/

/-- The needs of a command that writes do not depend on the kind of the run, and checking them only
adds to the log. -/
theorem run_check_write (file docs : String) (output : Option String) (s : Session) :
    (∃ e, ∀ dryRun, (Command.write file docs output dryRun).check.run s = (.error e, s)) ∨
      ∀ dryRun, ∃ lines,
        (Command.write file docs output dryRun).check.run s = (.ok (), s.logged lines) := by
  by_cases hfile : s.files.isFile file = true
  · by_cases hdocs : s.files.isFile docs = true
    · refine .inr fun dryRun => ⟨[⟨.info, "Controller: " ++ file⟩,
        ⟨.info, "Documentation map: " ++ docs⟩, ⟨.info, if dryRun then
          "Dry run: nothing will be written" else "Output file: " ++ output.getD file⟩], ?_⟩
      rw [Command.check, Work.run_bind_of_ok _ (Work.run_files s)]
      simp only [hfile, Bool.not_true, Bool.false_eq_true, if_false]
      rw [Work.run_bind_of_ok _ (Work.run_files s)]
      simp only [hdocs, Bool.not_true, Bool.false_eq_true, if_false]
      rw [Work.run_bind_of_ok _ (Work.run_info ..), Work.run_bind_of_ok _ (Work.run_info ..)]
      cases dryRun <;> simp [Session.logged]
    · refine .inl ⟨.stated ("Documentation map does not exist: " ++ docs), fun dryRun => ?_⟩
      rw [Command.check, Work.run_bind_of_ok _ (Work.run_files s)]
      simp only [hfile, Bool.not_true, Bool.false_eq_true, if_false]
      rw [Work.run_bind_of_ok _ (Work.run_files s), if_pos (by simpa using hdocs)]
      rfl
  · refine .inl ⟨.stated ("Controller file does not exist: " ++ file), fun dryRun => ?_⟩
    rw [Command.check, Work.run_bind_of_ok _ (Work.run_files s), if_pos (by simpa using hfile)]
    rfl

/-- A dry run reads the file and prints its documented text. -/
theorem run_runDryWrite (file : String) (docs : DocMap) (s : Session) :
    (runDryWrite file docs).run s =
      match s.files.readText file with
      | .error e => (.error (.unread ("Failed to read " ++ file) e), s)
      | .ok source =>
        let outcome := writeDocs source docs
        match outcome.result with
        | .error e => (.error (.during "Failed to render documentation" (.unparsable file e)),
            s.logged outcome.warnings)
        | .ok text =>
          (.ok (), { s.logged (outcome.warnings ++
            [⟨.warn, "No files were modified (dry-run mode)"⟩]) with
            output := s.output ++ text }) := by
  rw [runDryWrite, Work.run_bind_of_ok _ (Work.run_files s), Work.run_bind, Work.run_ofExcept]
  cases hread : s.files.readText file with
  | error e => rfl
  | ok source =>
    show ExceptT.run (Work.describing _ _ >>= _) s = _
    rw [Work.run_bind, Work.run_describing, writeText, WriteOutcome.run_finish]
    cases hresult : (writeDocs source docs).result with
    | error e => simp only [hresult]; rfl
    | ok text =>
      show ExceptT.run (Work.print text >>= fun _ => Work.warn _) _ = _
      rw [Work.run_bind_of_ok _ (Work.run_print ..)]
      simp [hresult, Session.logged]

/-- Both runs load the documentation first, and a dry run changes nothing afterwards. -/
theorem run_runWrite (file docs : String) (output : Option String) (dryRun : Bool) (s : Session) :
    (runWrite file docs output dryRun).run s =
      match loadDocs s.files docs with
      | .error e => (.error (.known e), s)
      | .ok map =>
        let s' := s.logged
          [⟨.info, "Loaded documentation for " ++ toString map.entries.length ++ " methods"⟩]
        if dryRun then (runDryWrite file map).run s'
        else match (writeFile file map output).run s' with
          | (.ok written, s') =>
            (.ok (), s'.logged [⟨.info, "Documentation written to " ++ written⟩])
          | (.error e, s') => (.error (.known e), s') := by
  rw [runWrite, Work.run_bind_of_ok _ (Work.run_files s), Work.run_bind, Work.run_ofExcept]
  cases loadDocs s.files docs with
  | error e => rfl
  | ok map =>
    show ExceptT.run (Work.info _ >>= _) s = _
    rw [Work.run_bind_of_ok _ (Work.run_info ..)]
    cases dryRun with
    | true => rfl
    | false =>
      simp only [Bool.false_eq_true, if_false]
      rw [Work.run_bind, Work.run_describing, ← Session.logged]
      rcases (writeFile file map output).run _ with ⟨e | written, s'⟩ <;> rfl

/-! ### Dry runs and real runs -/

/-- What the two kinds of a run have in common, whatever they are started with. -/
inductive DryAgrees (fs : FileSystem) (destination : String) :
    Except Failure Unit × Session → Except Failure Unit × Session → Prop
  /-- Both fail, and nothing is changed. -/
  | failed (e e' : Failure) (s s' : Session) : s.files = fs → s'.files = fs →
      DryAgrees fs destination (.error e, s) (.error e', s')
  /-- Both succeed, and what one prints the other leaves at the destination. -/
  | written (s s' : Session) (t : Target) (mode : Nat) : s.files = fs →
      fs.targetOf false destination = .ok t →
      fs.WrittenAt s'.files t.location mode s.output.toUTF8 →
      DryAgrees fs destination (.ok (), s) (.ok (), s')
  /-- Only the real run fails, for the destination, and changes nothing. -/
  | unwritten (e : Error) (s s' : Session) : s.files = fs → e.OfDestination →
      fs.Same s'.files → DryAgrees fs destination (.ok (), s) (.error (.known e), s')

/-- Started with the same files, the two kinds of a run differ only in what they do with the
documented text. -/
theorem dryAgrees_runWrite (file docs : String) (output : Option String) {s s' : Session}
    (hs : s.files = fs) (hs' : s'.files = fs) (hout : s.output = "") :
    DryAgrees fs (output.getD file) ((runWrite file docs output true).run s)
      ((runWrite file docs output false).run s') := by
  rw [run_runWrite, run_runWrite, hs, hs']
  cases loadDocs fs docs with
  | error e => exact .failed _ _ _ _ hs hs'
  | ok map =>
    dsimp only
    rw [if_pos rfl, if_neg (by simp), run_runDryWrite, writeFile, run_writeFileWith]
    simp only [Session.files_logged, hs, hs']
    cases hread : fs.readText file with
    | error e => exact .failed _ _ _ _ hs hs'
    | ok source =>
      dsimp only
      rw [writeDocs]
      cases hresult : (writeDocsWith sourceRanges? source map).result with
      | error e => exact .failed _ _ _ _ hs hs'
      | ok text =>
        dsimp only
        rcases replaceFile_cases (output.getD file) text ((s'.logged _).logged
          (writeDocsWith sourceRanges? source map).warnings) with
          ⟨e, files, hrun, he, hsame⟩ | ⟨t, files, ht, -, hrun, hwritten⟩
        · rw [hrun]
          exact .unwritten _ _ _ rfl he (by simpa [hs'] using hsame)
        · rw [hrun]
          refine .written _ _ t (modeAt fs (output.getD file)) rfl (by simpa [hs'] using ht) ?_
          simpa [hs', hout] using hwritten

/-- **A dry run agrees with a real run.** Started with the same files, a dry run leaves them alone;
it fails if a real run fails before it writes; and otherwise it prints the text that a real run
leaves at the destination, unless the destination cannot be written. -/
theorem dryWrite_agrees (fs : FileSystem) (file docs : String) (output : Option String) :
    DryAgrees fs (output.getD file)
      ((Command.write file docs output true).execute.run (.start fs))
      ((Command.write file docs output false).execute.run (.start fs)) := by
  rcases run_check_write file docs output (.start fs) with ⟨e, hcheck⟩ | hcheck
  · rw [Command.execute, Command.execute, Work.run_bind_of_error _ (hcheck true),
      Work.run_bind_of_error _ (hcheck false)]
    exact .failed e e _ _ rfl rfl
  · obtain ⟨lines, hdry⟩ := hcheck true
    obtain ⟨lines', hreal⟩ := hcheck false
    rw [Command.execute, Command.execute, Work.run_bind_of_ok _ hdry, Work.run_bind_of_ok _ hreal]
    exact dryAgrees_runWrite file docs output rfl rfl rfl

end DocBlocks
