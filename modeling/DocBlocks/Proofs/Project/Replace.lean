import DocBlocks.Project.Replace
import DocBlocks.Proofs.Project.Session
import DocBlocks.Proofs.Store.Resolve

/-!
# Replacing a file in one step

A file is replaced by way of a temporary file beside it. `replaceFile_cases` tells all that can come
of it: either an error about the destination, and the file system holds what it held before, or the
file stands at the location that the destination leads to, and nothing else has changed.

The temporary file gets a name that the directory does not hold (`lookup_freshName`), so that
putting it there and taking it away again leaves the view as it was, and the path of the
destination leads to the same location with and without it
(`FileSystem.exists_target_of_locate_directoryOf`).
-/

namespace DocBlocks

open Entry

/-! ### File systems that hold the same -/

/-- Two file systems hold the same: the same entries with the same permissions and contents. -/
structure FileSystem.Same (before after : FileSystem) : Prop where
  here : after.here = before.here
  view : after.root.view = before.root.view

/-- A file was written at a location, and all else is as before. -/
structure FileSystem.WrittenAt (before after : FileSystem) (l : Location) (mode : Nat)
    (content : ByteArray) : Prop where
  here : after.here = before.here
  view : after.root.view = Function.update before.root.view l (some (.file mode content))

variable {before after : FileSystem} {l l' : Location} {mode : Nat} {content : ByteArray}

theorem FileSystem.Same.refl (fs : FileSystem) : fs.Same fs := ⟨rfl, rfl⟩

namespace FileSystem.WrittenAt

theorem at?_eq (h : before.WrittenAt after l mode content) :
    after.root.at? l = some (.file mode content) := by
  rw [← view_eq_some_file, h.view, Function.update_self]

theorem view_of_ne (h : before.WrittenAt after l mode content) (hne : l' ≠ l) :
    after.root.view l' = before.root.view l' := by
  rw [h.view, Function.update_of_ne hne]

end FileSystem.WrittenAt

/-! ### A name that a directory does not hold -/

theorem lt_length_foldl {grow : String → String × Entry → String}
    (hgrow : ∀ name e, name.length ≤ (grow name e).length ∧ e.1.length < (grow name e).length)
    (es : List (String × Entry)) (name : String) :
    name.length ≤ (es.foldl grow name).length ∧
      ∀ e ∈ es, e.1.length < (es.foldl grow name).length := by
  induction es generalizing name with
  | nil => simp
  | cons e es ih =>
    obtain ⟨hle, hlt⟩ := ih (grow name e)
    have hstep := hgrow name e
    rw [List.foldl_cons]
    refine ⟨by omega, fun e' he' => ?_⟩
    rcases List.mem_cons.1 he' with rfl | he'
    · omega
    · exact hlt e' he'

/-- **A fresh name is longer than every name that the directory holds**, so it is none of them. -/
theorem lookup_freshName (es : List (String × Entry)) : es.lookup (freshName es) = none := by
  rw [List.lookup_eq_none_iff]
  intro e he
  have hlt : e.1.length < (freshName es).length := by
    refine (lt_length_foldl (fun name e => ?_) es ".tmp").2 e he
    have hdot : 0 < ".".length := by decide
    show name.length ≤ (if e.1.length < name.length then name else e.1 ++ ".").length ∧
      e.1.length < (if e.1.length < name.length then name else e.1 ++ ".").length
    split_ifs with h
    · exact ⟨le_rfl, h⟩
    · rw [String.length_append]
      omega
  have hne : freshName es ≠ e.1 := fun heq => by rw [heq] at hlt; omega
  simpa using hne

/-! ### Moving a file -/

namespace Change

variable {fs : FileSystem} {source : Location} {path : String} {t : Target} {e : Entry}

theorem run_moveFile (source : Location) (path : String) (fs : FileSystem) :
    (moveFile source path).run fs =
      match fs.targetOf false path with
      | .error e => (.error e, fs)
      | .ok t =>
        if endsInDots path then (.error .busy, fs)
        else if FileSystem.endsInSlash path then (.error .notDirectory, fs)
        else match fs.root.at? source, fs.root.at? t.location with
          | _, some (.directory _ _) => (.error .isDirectory, fs)
          | none, _ => (.error .notFound, fs)
          | some e, _ => (.ok (), (fs.remove source).put t.location e) := by
  have hget (f : FileSystem → Change Unit) :
      ((do let fs ← get; f fs : Change Unit)).run fs = (f fs).run fs := rfl
  rw [moveFile, hget]
  cases fs.targetOf false path with
  | error e => rfl
  | ok t =>
    dsimp only
    split_ifs
    · rfl
    · rfl
    · cases t <;> dsimp only [Target.location] <;>
        rcases fs.root.at? source with _ | e <;>
        rcases fs.root.at? _ with _ | _ | _ | _ <;> rfl

/-- A move that fails changes nothing, and one that does not puts the file at the location that its
path leads to. -/
theorem moveFile_cases (source : Location) (path : String) (fs : FileSystem) :
    (∃ e, (moveFile source path).run fs = (.error e, fs)) ∨
      ∃ t e, fs.targetOf false path = .ok t ∧ endsInDots path = false ∧
        FileSystem.endsInSlash path = false ∧ fs.root.at? source = some e ∧
        (∀ m es, fs.root.at? t.location ≠ some (.directory m es)) ∧
        (moveFile source path).run fs = (.ok (), (fs.remove source).put t.location e) := by
  rw [run_moveFile]
  cases fs.targetOf false path with
  | error e => exact .inl ⟨e, rfl⟩
  | ok t =>
    dsimp only
    split_ifs with hdots hslash
    · exact .inl ⟨_, rfl⟩
    · exact .inl ⟨_, rfl⟩
    · split
      case h_1 => exact .inl ⟨_, rfl⟩
      case h_2 => exact .inl ⟨_, rfl⟩
      case h_3 e hsource hdest =>
        exact .inr ⟨t, e, rfl, by simpa using hdots, by simpa using hslash, hsource, hdest, rfl⟩

end Change

/-! ### The temporary file -/

section Temporary

/-- The file system with a temporary file in a directory. -/
def FileSystem.withTemporary (fs : FileSystem) (dir : Location) (es : List (String × Entry))
    (mode : Nat) (content : ByteArray) : FileSystem :=
  fs.put (dir ++ [freshName es]) (.file mode content)

variable {fs : FileSystem} {m : Nat} {es : List (String × Entry)} {path : String}

theorem view_freshName (hdir : fs.root.at? l = some (.directory m es)) :
    fs.root.view (l ++ [freshName es]) = none := by
  rw [view_append_singleton, hdir, Option.bind_some, entries, lookup_freshName, Option.map_none]

/-- The temporary file shows at its place and changes nothing else. -/
theorem view_withTemporary (hdir : fs.root.at? l = some (.directory m es)) (mode : Nat)
    (content : ByteArray) :
    (fs.withTemporary l es mode content).root.view =
      Function.update fs.root.view (l ++ [freshName es]) (some (.file mode content)) := by
  refine view_put ⟨es, hdir⟩ ?_ rfl
  rw [view_eq_none.1 (view_freshName hdir)]
  simp [Leaf]

theorem at?_withTemporary (hdir : fs.root.at? l = some (.directory m es)) (mode : Nat)
    (content : ByteArray) :
    (fs.withTemporary l es mode content).root.at? (l ++ [freshName es]) =
      some (.file mode content) := by
  rw [← view_eq_some_file, view_withTemporary hdir, Function.update_self]

/-- **Taking the temporary file away leaves what was there before.** -/
theorem same_remove_withTemporary (hdir : fs.root.at? l = some (.directory m es)) (mode : Nat)
    (content : ByteArray) :
    fs.Same ((fs.withTemporary l es mode content).remove (l ++ [freshName es])) := by
  have hput := view_withTemporary hdir mode content
  have hfile := at?_withTemporary hdir mode content
  have hdir' : ∃ es', (fs.withTemporary l es mode content).root.at? l =
      some (.directory m es') := by
    rw [← view_eq_some_directory, hput, Function.update_of_ne (by simp), view_eq_some_directory]
    exact ⟨es, hdir⟩
  refine ⟨rfl, ?_⟩
  show view (Entry.remove _ _) = _
  rw [view_remove hdir' (by rw [hfile]; simp [Leaf, entries]), hput, Function.update_idem,
    Function.update_eq_self_iff, view_freshName hdir]

/-- **Moving the temporary file to a name in its directory writes the file there** and leaves no
other trace. -/
theorem writtenAt_moved {p : String} {e : Entry} (hdir : fs.root.at? l = some (.directory m es))
    (he : (fs.withTemporary l es mode content).root.at? (l ++ [freshName es]) = some e)
    (hnodir : ∀ m' es', (fs.withTemporary l es mode content).root.at? (l ++ [p]) ≠
      some (.directory m' es')) :
    fs.WrittenAt (((fs.withTemporary l es mode content).remove (l ++ [freshName es])).put
      (l ++ [p]) e) (l ++ [p]) mode content := by
  have hsame := same_remove_withTemporary hdir mode content
  obtain rfl : e = .file mode content := by
    rw [at?_withTemporary hdir] at he
    exact (Option.some.inj he).symm
  have hdir' : ∃ es', ((fs.withTemporary l es mode content).remove
      (l ++ [freshName es])).root.at? l = some (.directory m es') := by
    rw [← view_eq_some_directory, hsame.view, view_eq_some_directory]
    exact ⟨es, hdir⟩
  have hleaf : Leaf (((fs.withTemporary l es mode content).remove
      (l ++ [freshName es])).root.at? (l ++ [p])) := by
    refine leaf_of_view fun m' h => ?_
    rw [hsame.view] at h
    by_cases hp : p = freshName es
    · rw [hp, view_freshName hdir] at h
      cases h
    · have hview : (fs.withTemporary l es mode content).root.view (l ++ [p]) =
          some (.directory m' []) := by
        rw [view_withTemporary hdir, Function.update_of_ne (by simpa using hp), h]
      obtain ⟨es', hes'⟩ := view_eq_some_directory.1 hview
      exact hnodir m' es' hes'
  refine ⟨rfl, ?_⟩
  show view (Entry.put _ _ _) = _
  rw [view_put hdir' hleaf rfl, hsame.view]
  rfl

/-- **The path of the destination leads to a name in its directory**, and to the same one when
something was put where nothing stood. -/
theorem FileSystem.exists_target_of_locate_directoryOf {fs' : FileSystem} {e : Option Entry}
    (hdots : Change.endsInDots path = false) (h : fs.locate (directoryOf path) = .ok l)
    (hl : fs.root.view l = some (.directory m []))
    (hview : fs'.root.view = Function.update fs.root.view l' e) (hl' : fs.root.view l' = none)
    (hhere : fs'.here = fs.here) :
    ∃ t t' p, fs.targetOf false path = .ok t ∧ fs'.targetOf false path = .ok t' ∧
      t.location = l ++ [p] ∧ t'.location = l ++ [p] := by
  obtain ⟨ps, p, links, hsteps, hp, hup, hleads⟩ := leads_of_locate_directoryOf hdots h hl
  have hpath : path ≠ "" := by
    rintro rfl
    simp [stepsOf, pathPieces, splitSlashes] at hsteps
  have hleads' := hleads.of_view hview hl'
  obtain ⟨t, ht, htl, -⟩ := walk_name fs.root links l hp hup
  obtain ⟨t', ht', htl', -⟩ := walk_name fs'.root links l hp hup
  refine ⟨t, t', p, ?_, ?_, htl, htl'⟩
  · rw [targetOf, if_neg hpath, hsteps, ← ht]
    exact hleads.walk (by simp)
  · rw [targetOf, if_neg hpath, hsteps, ← ht', hhere]
    exact hleads'.walk (by simp)

end Temporary

/-! ### Replacing a file -/

/-- The errors about a destination that cannot be written. -/
inductive Error.OfDestination : Error → Prop
  | missing (dir : String) : OfDestination (.destinationMissing dir)
  | notWritable (dir reason : String) : OfDestination (.destinationNotWritable dir reason)
  | unwritable (path : String) (cause : IoFault) : OfDestination (.unwritable path cause)

/-- The last steps of replacing a file: the temporary file is put, moved and, if that fails, taken
away. -/
theorem run_replace_in (s : Session) (destination : String) (l : Location)
    (es : List (String × Entry)) (mode : Nat) (content : ByteArray) :
    ExceptT.run (do
      Work.change (.unwritable destination)
        (Change.put (l ++ [freshName es]) (.file mode content))
      tryCatch (Work.change (.unwritable destination)
          (Change.moveFile (l ++ [freshName es]) destination))
        fun e => do
          Work.change (.unwritable destination) (Change.remove (l ++ [freshName es]))
          throw e : Work Error Unit) s =
      match (Change.moveFile (l ++ [freshName es]) destination).run
        (s.files.withTemporary l es mode content) with
      | (.ok (), files) => (.ok (), { s with files := files })
      | (.error e, files) => (.error (.unwritable destination e),
          { s with files := files.remove (l ++ [freshName es]) }) := by
  have hput : ExceptT.run (Work.change (Error.unwritable destination)
      (Change.put (l ++ [freshName es]) (.file mode content))) s =
      (.ok (), { s with files := s.files.withTemporary l es mode content }) := by
    rw [Work.run_change]
    rfl
  rw [Work.run_bind_of_ok _ hput]
  rcases hmove : (Change.moveFile (l ++ [freshName es]) destination).run
    (s.files.withTemporary l es mode content) with ⟨e | _, files⟩
  · have hchange : ExceptT.run (Work.change (Error.unwritable destination)
        (Change.moveFile (l ++ [freshName es]) destination))
          { s with files := s.files.withTemporary l es mode content } =
        (.error (.unwritable destination e), { s with files := files }) := by
      rw [Work.run_change, hmove]
      rfl
    rw [Work.run_tryCatch_of_error _ hchange, Work.run_bind, Work.run_change]
    rfl
  · have hchange : ExceptT.run (Work.change (Error.unwritable destination)
        (Change.moveFile (l ++ [freshName es]) destination))
          { s with files := s.files.withTemporary l es mode content } =
        (.ok (), { s with files := files }) := by
      rw [Work.run_change, hmove]
      rfl
    rw [Work.run_tryCatch_of_ok _ hchange]

/-- **What replacing a file does**, as one case distinction. -/
theorem run_replaceFile (destination content : String) (s : Session) :
    (replaceFile destination content).run s =
      match s.files.locate (directoryOf destination) with
      | .error _ => (.error (.destinationMissing (directoryOf destination)), s)
      | .ok l =>
        match s.files.root.at? l with
        | some (.directory m es) =>
          if isReadOnly m then
            (.error (.destinationNotWritable (directoryOf destination) "directory is read-only"), s)
          else match (Change.moveFile (l ++ [freshName es]) destination).run
              (s.files.withTemporary l es (modeAt s.files destination) content.toUTF8) with
            | (.ok (), files) => (.ok (), { s with files := files })
            | (.error e, files) => (.error (.unwritable destination e),
                { s with files := files.remove (l ++ [freshName es]) })
        | _ => (.error (.destinationMissing (directoryOf destination)), s) := by
  rw [replaceFile, Work.run_bind_of_ok _ (Work.run_files s)]
  cases s.files.locate (directoryOf destination) with
  | error e => rfl
  | ok l =>
    dsimp only
    rcases s.files.root.at? l with _ | _ | _ | ⟨m, es⟩
    · rfl
    · rfl
    · rfl
    · dsimp only
      split_ifs
      · rfl
      · exact run_replace_in s destination l es _ _

/-- **Replacing a file writes it or leaves everything as it was.** -/
theorem replaceFile_cases (destination content : String) (s : Session) :
    (∃ e files, (replaceFile destination content).run s = (.error e, { s with files := files }) ∧
        e.OfDestination ∧ s.files.Same files) ∨
      ∃ t files, s.files.targetOf false destination = .ok t ∧
        FileSystem.endsInSlash destination = false ∧
        (replaceFile destination content).run s = (.ok (), { s with files := files }) ∧
        s.files.WrittenAt files t.location (modeAt s.files destination) content.toUTF8 := by
  rw [run_replaceFile]
  cases hlocate : s.files.locate (directoryOf destination) with
  | error e => exact .inl ⟨_, s.files, rfl, .missing _, .refl _⟩
  | ok l =>
    dsimp only
    rcases hdir : s.files.root.at? l with _ | _ | _ | ⟨m, es⟩
    · exact .inl ⟨_, s.files, rfl, .missing _, .refl _⟩
    · exact .inl ⟨_, s.files, rfl, .missing _, .refl _⟩
    · exact .inl ⟨_, s.files, rfl, .missing _, .refl _⟩
    dsimp only
    split_ifs
    · exact .inl ⟨_, s.files, rfl, .notWritable _ _, .refl _⟩
    rcases Change.moveFile_cases (l ++ [freshName es]) destination
      (s.files.withTemporary l es (modeAt s.files destination) content.toUTF8) with
      ⟨e, hfailed⟩ | ⟨t', e, ht', hdots, hslash, he, hnodir, hmoved⟩
    · rw [hfailed]
      exact .inl ⟨_, _, rfl, .unwritable _ _, same_remove_withTemporary hdir _ _⟩
    · rw [hmoved]
      obtain ⟨t, t'', p, ht, ht'', htl, htl''⟩ :=
        FileSystem.exists_target_of_locate_directoryOf hdots hlocate
          (view_eq_some_directory.2 ⟨es, hdir⟩) (view_withTemporary hdir _ _)
          (view_freshName hdir) rfl
      obtain rfl : t'' = t' := Except.ok.inj (ht''.symm.trans ht')
      refine .inr ⟨t, _, ht, hslash, rfl, ?_⟩
      rw [htl''] at hnodir ⊢
      rw [htl]
      exact writtenAt_moved hdir he hnodir

end DocBlocks
