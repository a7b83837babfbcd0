import DocBlocks.Proofs.Project.Scan
import DocBlocks.Proofs.Text.Bytes
import DocBlocks.Proofs.Text.Lines

/-!
# The sources of a project

`scan_eligible`: a scan of a directory finds the sources below it, each of them once, in the order
of the bytes of their paths, component by component.

What is a source is decided by its place alone (`IsEligible`): by its name, and by those of the
directories on the way to it. The directory that the scan starts at is not on the way, whatever it
is called. A walk in the order of the names comes to `app/…` before it comes to `app.php`, although
a dot is before a slash: components are compared one by one, not paths as texts.
-/

namespace DocBlocks

open Entry

variable {path dir name : String} {fs : FileSystem} {mode : Nat} {es : List (String × Entry)}

/-! ### Places of sources -/

/-- Whether the name at a place is that of a source, something in front of its extension, and no
directory on the way is hidden or one of those that hold no sources of the project. -/
def IsEligible (l : Location) : Prop :=
  ∃ dirs stem, l = dirs ++ [stem ++ ".php"] ∧ stem ≠ "" ∧
    ∀ dir ∈ dirs, dir.toList.head? ≠ some '.' ∧ dir ∉ ["vendor", "node_modules", "storage"]

theorem isEntered_iff :
    isEntered name = true ↔
      name.toList.head? ≠ some '.' ∧ name ∉ ["vendor", "node_modules", "storage"] := by
  rw [isEntered, skippedDirectories, Bool.and_eq_true]
  simp only [Bool.not_eq_true', beq_eq_false_iff_ne, List.contains_eq_mem, decide_eq_false_iff_not]

/-- The extension of a name is what stands behind the last dot in it, with something in front. -/
theorem extensionOfName?_eq_some {extension : List Char} (h : '.' ∉ extension) :
    extensionOfName? name = some (String.ofList extension) ↔
      ∃ stem, stem ≠ [] ∧ name.toList = stem ++ '.' :: extension := by
  -- the name is read from its end, so that the first dot met is the last one
  have hname : name.toList = name.toList.reverse.reverse := (List.reverse_reverse _).symm
  rw [hname, extensionOfName?]
  generalize name.toList.reverse = cs
  simp only [drop_takeWhile]
  constructor
  · intro hsome
    split at hsome
    · cases hsome
    · cases hsome
    · next hempty hsingle =>
      obtain ⟨dot, stem, hrest⟩ := List.exists_cons_of_ne_nil hempty
      have hdot : dot = '.' := by
        have := List.head_dropWhile_not (· != '.') (l := cs) hempty
        simpa [hrest] using this
      subst hdot
      refine ⟨stem.reverse, ?_, ?_⟩
      · intro hnil
        rw [List.reverse_eq_nil_iff.1 hnil] at hrest
        exact hsingle _ hrest
      · have hsplit : cs = cs.takeWhile (· != '.') ++ '.' :: stem := by
          rw [← hrest, List.takeWhile_append_dropWhile]
        rw [← String.ofList_injective (Option.some.inj hsome)]
        conv_lhs => rw [hsplit]
        simp
  · rintro ⟨stem, hne, htext⟩
    have hcs : cs = extension.reverse ++ '.' :: stem.reverse := by
      rw [← List.reverse_reverse cs, htext]
      simp
    have htake : cs.takeWhile (· != '.') = extension.reverse := by
      rw [hcs, takeWhile_until (by simpa using h)]
    have hdrop : cs.dropWhile (· != '.') = '.' :: stem.reverse := by
      rw [← drop_takeWhile, htake, hcs, List.drop_left]
    obtain ⟨c, rest, hstem⟩ := List.exists_cons_of_ne_nil (mt List.reverse_eq_nil_iff.1 hne)
    rw [hdrop, htake, hstem, List.reverse_reverse]

theorem isSourceName_iff :
    isSourceName name = true ↔ ∃ stem, name = stem ++ ".php" ∧ stem ≠ "" := by
  rw [isSourceName, beq_iff_eq, show "php" = String.ofList ['p', 'h', 'p'] from rfl,
    extensionOfName?_eq_some (by decide)]
  constructor
  · rintro ⟨stem, hne, htext⟩
    refine ⟨String.ofList stem, ?_, by simpa using hne⟩
    rw [← String.toList_inj, htext]
    simp
  · rintro ⟨stem, rfl, hne⟩
    exact ⟨stem.toList, by simpa using hne, by simp⟩

/-- **A scan lists the places that sources have.** -/
theorem isListed_iff {l : Location} : isListed l = true ↔ IsEligible l := by
  induction l with
  | nil => simp [isListed, IsEligible]
  | cons n l ih =>
    cases l with
    | nil =>
      -- the last name is the only one that is not of a directory
      rw [isListed, isSourceName_iff]
      constructor
      · rintro ⟨stem, rfl, hne⟩
        exact ⟨[], stem, rfl, hne, by simp⟩
      · rintro ⟨dirs, stem, hl, hne, -⟩
        have hdirs : dirs = [] := by
          have := congrArg List.length hl
          simpa using this
        subst hdirs
        exact ⟨stem, (List.cons.inj hl).1, hne⟩
    | cons m l =>
      rw [isListed, Bool.and_eq_true, isEntered_iff, ih]
      constructor
      · rintro ⟨hn, dirs, stem, hl, hne, hdirs⟩
        have hlocation : n :: m :: l = (n :: dirs) ++ [stem ++ ".php"] := by
          rw [hl, List.cons_append]
        exact ⟨n :: dirs, stem, hlocation, hne, List.forall_mem_cons.2 ⟨hn, hdirs⟩⟩
      · rintro ⟨_ | ⟨d, dirs⟩, stem, hl, hne, hdirs⟩
        · simp at hl
        · obtain ⟨rfl, htail⟩ := List.cons.inj (hl.trans List.cons_append)
          obtain ⟨hn, hdirs⟩ := List.forall_mem_cons.1 hdirs
          exact ⟨hn, dirs, stem, htail, hne, hdirs⟩

/-! ### Components -/

/-- The components of a path as bytes. A piece that leads nowhere is none. -/
def componentBytes (path : String) : List (List UInt8) :=
  (realPieces (pathPieces path)).map fun piece => bytesOf piece.toList

theorem realPieces_names {l : Location} (h : ∀ n ∈ l, IsName n) : realPieces l = l :=
  List.filter_eq_self.2 fun n hn => by simpa using (h n hn).not_staysPut

theorem componentBytes_pathBelow {l : Location} (hl : l ≠ []) (h : ∀ n ∈ l, IsName n) :
    componentBytes (pathBelow dir l) = componentBytes dir ++ l.map fun n => bytesOf n.toList := by
  obtain ⟨front, hfront, hbelow⟩ := exists_pathPieces_pathBelow dir
  rw [componentBytes, (hbelow l hl h).1, realPieces_append, hfront, realPieces_names h,
    List.map_append, componentBytes]

/-- Different places have different paths. -/
theorem pathBelow_injective {l m : Location} (hl : l ≠ []) (hm : m ≠ []) (hnames : ∀ n ∈ l, IsName n)
    (hnames' : ∀ n ∈ m, IsName n) (h : pathBelow dir l = pathBelow dir m) : l = m := by
  obtain ⟨front, -, hbelow⟩ := exists_pathPieces_pathBelow dir
  have hpieces := congrArg pathPieces h
  rw [(hbelow l hl hnames).1, (hbelow m hm hnames').1] at hpieces
  exact List.append_cancel_left hpieces

/-- Below a directory, what comes before piece by piece does so in the bytes of the components. -/
theorem componentBytes_lt {l m : Location} (hl : l ≠ []) (hm : m ≠ []) (hnames : ∀ n ∈ l, IsName n)
    (hnames' : ∀ n ∈ m, IsName n) (h : PathBefore (pathBelow dir l) (pathBelow dir m)) :
    componentBytes (pathBelow dir l) < componentBytes (pathBelow dir m) := by
  obtain ⟨front, -, hbelow⟩ := exists_pathPieces_pathBelow dir
  rw [PathBefore, (hbelow l hl hnames).1, (hbelow m hm hnames').1] at h
  -- what two paths have in front of the names is the same
  have hlt : l < m := by
    rcases lt_trichotomy l m with hlt | rfl | hgt
    · exact hlt
    · exact absurd h (lt_irrefl _)
    · exact absurd h (lt_asymm (List.append_left_lt hgt))
  rw [componentBytes_pathBelow hl hnames, componentBytes_pathBelow hm hnames']
  exact List.append_left_lt (List.map_lt (fun _ _ => bytesOf_lt_bytesOf.2) hlt)

/-! ### The scan -/

/-- Whether a directory has a source at a place below it. -/
def HasSource (d : Entry) (l : Location) : Prop := IsEligible l ∧ ∃ content, d.HoldsFile l content

theorem HasSource.ne_nil {d : Entry} {l : Location} (h : HasSource d l) : l ≠ [] := by
  obtain ⟨⟨dirs, stem, rfl, -⟩, -⟩ := h
  simp

theorem HasSource.isName {d : Entry} {l : Location} (h : HasSource d l) (hnamed : d.Named) :
    ∀ n ∈ l, IsName n := by
  obtain ⟨-, content, mode, hfile⟩ := h
  exact hnamed.isName_of_mem hfile

theorem mem_scan_iff_hasSource {file : String} (h : fs.find path = .ok (.directory mode es))
    (hnamed : NamedAll es) :
    file ∈ (scan fs path).files ↔
      ∃ l, HasSource (directory mode es) l ∧ pathBelow path l = file := by
  rw [mem_scan h hnamed]
  constructor
  · rintro ⟨l, content, hlisted, hholds, rfl⟩
    exact ⟨l, ⟨isListed_iff.1 hlisted, content, hholds⟩, rfl⟩
  · rintro ⟨l, ⟨heligible, content, hholds⟩, rfl⟩
    exact ⟨l, content, isListed_iff.2 heligible, hholds, rfl⟩

theorem pairwise_componentBytes (h : fs.find path = .ok (.directory mode es))
    (hnamed : NamedAll es) :
    (scan fs path).files.Pairwise fun p q => componentBytes p < componentBytes q := by
  have hroot : (directory mode es).Named := hnamed
  have hbefore : (scan fs path).files.Pairwise PathBefore := by
    rw [scan_eq h]
    exact pairwise_sourcesAmong path hnamed
  refine hbefore.imp_of_mem fun hp hq hpq => ?_
  obtain ⟨l, hl, rfl⟩ := (mem_scan_iff_hasSource h hnamed).1 hp
  obtain ⟨m, hm, rfl⟩ := (mem_scan_iff_hasSource h hnamed).1 hq
  exact componentBytes_lt hl.ne_nil hm.ne_nil (hl.isName hroot) (hm.isName hroot) hpq

/-- **A scan finds the sources below a directory, and nothing else.** What it finds are the files at
the places that sources have, each of them once, strictly in the order of the bytes of their
components, and there is nothing that it warns of. -/
theorem scan_eligible (h : fs.find path = .ok (.directory mode es)) (hnamed : NamedAll es) :
    ∃ found : List Location, scan fs path = ⟨found.map (pathBelow path), []⟩ ∧
      (∀ l, l ∈ found ↔ HasSource (directory mode es) l) ∧ found.Nodup ∧
      (found.map (pathBelow path)).Pairwise fun p q => componentBytes p < componentBytes q := by
  have hroot : (directory mode es).Named := hnamed
  have hordered := pairwise_componentBytes h hnamed
  -- each file that is found has its place
  have hplace : ∀ file : {file // file ∈ (scan fs path).files},
      ∃ l, HasSource (directory mode es) l ∧ pathBelow path l = file :=
    fun file => (mem_scan_iff_hasSource h hnamed).1 file.2
  choose place hsource hpath using hplace
  have hmap : ((scan fs path).files.attach.map place).map (pathBelow path) =
      (scan fs path).files := by
    rw [List.map_map, show pathBelow path ∘ place = Subtype.val from funext hpath,
      List.attach_map_subtype_val]
  refine ⟨(scan fs path).files.attach.map place, ?_, fun l => ?_, ?_, ?_⟩
  · rw [hmap, scan_eq h]
  · constructor
    · intro hl
      obtain ⟨file, -, rfl⟩ := List.mem_map.1 hl
      exact hsource file
    · intro hl
      have hfound : pathBelow path l ∈ (scan fs path).files :=
        (mem_scan_iff_hasSource h hnamed).2 ⟨l, hl, rfl⟩
      have hsame : place ⟨_, hfound⟩ = l :=
        pathBelow_injective (hsource _).ne_nil hl.ne_nil ((hsource _).isName hroot)
          (hl.isName hroot) (hpath ⟨_, hfound⟩)
      exact List.mem_map.2 ⟨⟨_, hfound⟩, List.mem_attach _ _, hsame⟩
  · -- a place that came twice would have its path come before itself
    rw [← hmap, List.pairwise_map] at hordered
    refine List.nodup_iff_pairwise_ne.2 (hordered.imp ?_)
    rintro l _ hlt rfl
    exact List.lt_irrefl _ hlt
  · rw [hmap]
    exact hordered

/-- A directory that would not be entered on the way, with sources and with what is none: below a
hidden directory or one that holds no sources of the project, and a name that is an extension only.
-/
def vendoredEntries : List (String × Entry) :=
  [(".git", .directory 0o755 [("head.php", .file 0o644 ⟨#[]⟩)]), (".php", .file 0o644 ⟨#[]⟩),
    ("app", .directory 0o755 [("Kernel.php", .file 0o644 ⟨#[]⟩)]), ("app.php", .file 0o644 ⟨#[]⟩),
    ("pages.php", .directory 0o755 [(".home.php", .file 0o644 ⟨#[]⟩)]),
    ("storage", .directory 0o755 [("views.php", .file 0o644 ⟨#[]⟩)])]

@[inherit_doc vendoredEntries]
def vendoredProject : FileSystem :=
  ⟨.directory 0o755 [("vendor", .directory 0o755 vendoredEntries)], []⟩

theorem find_vendoredProject :
    vendoredProject.find "vendor" = .ok (.directory 0o755 vendoredEntries) := by
  have hsteps : FileSystem.stepsOf "vendor" ++
      (if FileSystem.endsInSlash "vendor" then ["."] else []) = ["vendor"] := by decide
  rw [FileSystem.find, FileSystem.locate, hsteps, if_neg (by decide), if_neg (by decide),
    FileSystem.walk, if_neg (by decide), if_neg (by decide)]
  simp only [vendoredProject, at?, Option.bind_some, entries, List.lookup_cons_self]
  rw [FileSystem.walk]
  rfl

theorem namedAll_vendoredEntries : NamedAll vendoredEntries := by
  have hinner {n : String} (hn : IsName n) :
      (directory 0o755 [(n, .file 0o644 ⟨#[]⟩)]).Named :=
    ⟨hn, by simp, trivial, trivial⟩
  exact ⟨by decide, by decide, hinner (by decide), by decide, by decide, trivial,
    by decide, by decide, hinner (by decide), by decide, by decide, trivial,
    by decide, by decide, hinner (by decide), by decide, by simp, hinner (by decide), trivial⟩

theorem scan_eligible_vendored :
    (scan vendoredProject "vendor").files =
        ["vendor/app/Kernel.php", "vendor/app.php", "vendor/pages.php/.home.php"] ∧
      HasSource (.directory 0o755 vendoredEntries) ["app", "Kernel.php"] ∧
      ¬ HasSource (.directory 0o755 vendoredEntries) ["storage", "views.php"] := by
  have hfiles : (scan vendoredProject "vendor").files =
      ["vendor/app/Kernel.php", "vendor/app.php", "vendor/pages.php/.home.php"] := by
    rw [scan_eq find_vendoredProject]
    decide +kernel
  obtain ⟨found, hscan, hmem, -, -⟩ := scan_eligible find_vendoredProject namedAll_vendoredEntries
  have hfound : found.map (pathBelow "vendor") = (scan vendoredProject "vendor").files := by
    rw [hscan]
  refine ⟨hfiles, ?_, fun hsource => ?_⟩
  · exact ⟨⟨["app"], "Kernel", by decide, by decide, by decide⟩, ⟨#[]⟩, 0o644, rfl⟩
  · have hlisted := List.mem_map_of_mem (f := pathBelow "vendor") ((hmem _).2 hsource)
    rw [hfound, hfiles] at hlisted
    exact absurd hlisted (by decide)

end DocBlocks
