import DocBlocks.Proofs.Store.Resolve
import DocBlocks.Project.Scan
import Mathlib.Data.List.Sort
import Mathlib.Data.String.Basic

/-!
# What a scan finds, and in which order

* `mem_sourcesAmong`: a scan of a directory finds the files at the locations that are listed, which
  only the names on the way decide (`isListed`).
* `find_pathBelow`: the path that a file is found by leads to that file.
* `pairwise_scan`: files are found in the order of their paths, piece by piece, so that what a scan
  finds decides the order that it is found in.

All this is about directories as they are, `Entry.Named`: their entries are strictly in the order of
their names, and names are names.
-/

namespace DocBlocks

open Entry

variable {path dir name : String} {fs : FileSystem} {mode : Nat} {es : List (String × Entry)}

/-! ### Entries in order -/

namespace Entry

/-- Whether a text can name an entry. -/
structure IsName (name : String) : Prop where
  ne_empty : name ≠ ""
  ne_dot : name ≠ "."
  ne_dots : name ≠ ".."
  no_slash : '/' ∉ name.toList

instance (name : String) : Decidable (IsName name) :=
  decidable_of_iff (name ≠ "" ∧ name ≠ "." ∧ name ≠ ".." ∧ '/' ∉ name.toList)
    ⟨fun h => ⟨h.1, h.2.1, h.2.2.1, h.2.2.2⟩,
      fun h => ⟨h.ne_empty, h.ne_dot, h.ne_dots, h.no_slash⟩⟩

theorem IsName.not_staysPut {name : String} (h : IsName name) : ¬ staysPut name = true := by
  simp [staysPut, h.ne_empty, h.ne_dot]

mutual

/-- Whether every directory at and below an entry has its entries strictly in the order of their
names, and all names are names. -/
def Named : Entry → Prop
  | .file _ _ => True
  | .link _ => True
  | .directory _ es => NamedAll es

/-- As `Named`, for the entries of a directory. -/
def NamedAll : List (String × Entry) → Prop
  | [] => True
  | (name, e) :: es => IsName name ∧ (∀ other ∈ es, name < other.1) ∧ e.Named ∧ NamedAll es

end

theorem NamedAll.of_mem {es : List (String × Entry)} (h : NamedAll es) {entry : String × Entry}
    (hentry : entry ∈ es) : IsName entry.1 ∧ entry.2.Named := by
  induction es with
  | nil => simp at hentry
  | cons first es ih =>
    obtain ⟨hname, -, hfirst, hes⟩ := h
    rcases List.mem_cons.1 hentry with rfl | hentry
    · exact ⟨hname, hfirst⟩
    · exact ih hes hentry

theorem NamedAll.of_lookup {es : List (String × Entry)} (h : NamedAll es) {n : String} {e : Entry}
    (hlookup : es.lookup n = some e) : IsName n ∧ e.Named := by
  obtain ⟨front, back, rfl, -⟩ := List.lookup_eq_some_iff.1 hlookup
  have hentry : (n, e) ∈ front ++ (n, e) :: back := by simp
  exact h.of_mem hentry

theorem Named.namedAll_entries {e : Entry} (h : e.Named) : NamedAll e.entries := by
  cases e with
  | file _ _ => trivial
  | link _ => trivial
  | directory _ es => exact h

theorem Named.of_at? {e root : Entry} (h : root.Named) {l : Location} (hl : root.at? l = some e) :
    e.Named := by
  induction l generalizing root with
  | nil =>
    obtain rfl : root = e := Option.some.inj hl
    exact h
  | cons n l ih =>
    rw [at?, Option.bind_eq_some_iff] at hl
    obtain ⟨c, hc, hl⟩ := hl
    exact ih (h.namedAll_entries.of_lookup hc).2 hl

/-- The names on the way to an entry are names. -/
theorem Named.isName_of_mem {e root : Entry} (h : root.Named) {l : Location}
    (hl : root.at? l = some e) : ∀ n ∈ l, IsName n := by
  induction l generalizing root with
  | nil => simp
  | cons n l ih =>
    rw [at?, Option.bind_eq_some_iff] at hl
    obtain ⟨c, hc, hl⟩ := hl
    obtain ⟨hn, hnamed⟩ := h.namedAll_entries.of_lookup hc
    rintro m (_ | ⟨_, hm⟩)
    · exact hn
    · exact ih hnamed hl m hm

end Entry

/-! ### Pieces of joined paths -/

theorem splitSlashes_append (xs ys : List Char) :
    splitSlashes (xs ++ '/' :: ys) = splitSlashes xs ++ splitSlashes ys := by
  induction xs with
  | nil => simp [splitSlashes]
  | cons c xs ih =>
    obtain ⟨q, qs, hq⟩ := List.exists_cons_of_ne_nil (splitSlashes_ne_nil xs)
    rw [List.cons_append, splitSlashes, splitSlashes, ih, hq]
    split_ifs <;> simp

theorem pathPieces_append_slash (dir : String) (hname : '/' ∉ name.toList) :
    pathPieces (dir ++ "/" ++ name) = pathPieces dir ++ [name] := by
  have htext : (dir ++ "/" ++ name).toList = dir.toList ++ '/' :: name.toList := by
    simp
  rw [pathPieces, htext, splitSlashes_append, splitSlashes_of_not_mem hname, List.map_append]
  simp [pathPieces]

/-- A name below a directory is the last piece of the path. -/
theorem exists_pathPieces_joinPath (dir : String) :
    ∃ front, realPieces front = realPieces (pathPieces dir) ∧ ∀ name : String, '/' ∉ name.toList →
      pathPieces (joinPath dir name) = front ++ [name] := by
  by_cases h : dir.toList.getLast? = some '/'
  · obtain ⟨cs, hcs⟩ := List.getLast?_eq_some_iff.1 h
    have hdir : dir = String.ofList cs ++ "/" := by
      rw [← String.toList_inj, hcs]
      simp
    refine ⟨pathPieces (String.ofList cs), ?_, fun name hname => ?_⟩
    · have hempty : pathPieces (String.ofList cs ++ "/" ++ "") = pathPieces (String.ofList cs) ++ [""] :=
        pathPieces_append_slash _ (by simp)
      rw [String.append_empty, ← hdir] at hempty
      rw [hempty, realPieces_append]
      simp [realPieces, staysPut]
    · rw [joinPath, if_pos (by simp [h]), hdir, pathPieces_append_slash _ hname]
  · refine ⟨pathPieces dir, rfl, fun name hname => ?_⟩
    rw [joinPath, if_neg (by simpa using h), pathPieces_append_slash _ hname]

theorem getLast?_joinPath (dir : String) (h : IsName name) :
    (joinPath dir name).toList.getLast? ≠ some '/' := by
  have hne : name.toList ≠ [] := by simpa using h.ne_empty
  have hlast : (joinPath dir name).toList.getLast? = name.toList.getLast? := by
    rw [joinPath]
    split_ifs
    · rw [String.toList_append, List.getLast?_append_of_ne_nil _ hne]
    · rw [String.toList_append, List.getLast?_append_of_ne_nil _ hne]
  rw [hlast]
  exact fun hslash => h.no_slash (List.mem_of_getLast? hslash)

/-! ### Locations that are listed -/

/-- Whether a scan lists a file at a location below a directory: the directories on the way are
entered, and the last name is that of a source. -/
def isListed : Location → Bool
  | [] => false
  | [n] => isSourceName n
  | n :: m :: l => isEntered n && isListed (m :: l)

/-- The path of a location below a directory. -/
def pathBelow (dir : String) (l : Location) : String := l.foldl joinPath dir

/-- Whether a directory holds a file at a location. -/
def Entry.HoldsFile (d : Entry) (l : Location) (content : ByteArray) : Prop :=
  ∃ mode, d.at? l = some (.file mode content)

theorem not_holdsFile_cons_of_entries_eq_nil {e : Entry} (h : e.entries = []) (n : String)
    (l : Location) (content : ByteArray) : ¬ e.HoldsFile (n :: l) content := by
  rintro ⟨mode, hmode⟩
  simp [at?, h] at hmode

theorem holdsFile_file {l : Location} {content content' : ByteArray} :
    (file mode content).HoldsFile l content' ↔ l = [] ∧ content' = content := by
  cases l with
  | nil => simp [HoldsFile, at?, eq_comm]
  | cons n l =>
    exact iff_of_false (not_holdsFile_cons_of_entries_eq_nil rfl n l content') (by simp)

theorem holdsFile_directory_cons {n : String} {l : Location} {content : ByteArray} :
    (directory mode es).HoldsFile (n :: l) content ↔
      ∃ e, es.lookup n = some e ∧ e.HoldsFile l content := by
  simp only [HoldsFile, at?, entries, Option.bind_eq_some_iff]
  constructor
  · rintro ⟨m, e, he, hm⟩
    exact ⟨e, he, m, hm⟩
  · rintro ⟨e, he, m, hm⟩
    exact ⟨m, e, he, hm⟩

/-- **What a walk finds**: the files at the locations that are listed, at an entry and among the
entries of a directory. -/
theorem mem_sources :
    (∀ (path name : String) (e : Entry), e.Named → ∀ file, file ∈ sourcesAt path name e ↔
      ∃ l content, isListed (name :: l) = true ∧ e.HoldsFile l content ∧ file = pathBelow path l) ∧
      ∀ (dir : String) (es : List (String × Entry)), NamedAll es → ∀ file,
        file ∈ sourcesAmong dir es ↔ ∃ n l content, isListed (n :: l) = true ∧
          (∃ e, es.lookup n = some e ∧ e.HoldsFile l content) ∧
          file = pathBelow (joinPath dir n) l := by
  apply sourcesAt.mutual_induct
  case case1 =>
    intro path name mode content hsource hnamed file
    rw [sourcesAt, if_pos hsource, List.mem_singleton]
    constructor
    · rintro rfl
      exact ⟨[], content, by simpa [isListed] using hsource, ⟨mode, rfl⟩, rfl⟩
    · rintro ⟨l, content', -, hholds, rfl⟩
      obtain ⟨rfl, -⟩ := holdsFile_file.1 hholds
      rfl
  case case2 =>
    intro path name mode content hsource hnamed file
    rw [sourcesAt, if_neg hsource]
    refine iff_of_false (by simp) ?_
    rintro ⟨l, content', hlisted, hholds, rfl⟩
    obtain ⟨rfl, -⟩ := holdsFile_file.1 hholds
    exact hsource (by simpa [isListed] using hlisted)
  case case3 =>
    intro path name target hnamed file
    rw [sourcesAt]
    refine iff_of_false (by simp) ?_
    rintro ⟨_ | ⟨n, l⟩, content', hlisted, hholds, rfl⟩
    · obtain ⟨_, hmode⟩ := hholds
      simp [at?] at hmode
    · exact not_holdsFile_cons_of_entries_eq_nil rfl n l content' hholds
  case case4 =>
    intro path name mode es hentered ih hnamed file
    rw [sourcesAt, if_pos hentered, ih hnamed]
    constructor
    · rintro ⟨n, l, content, hlisted, hholds, rfl⟩
      exact ⟨n :: l, content, by simp [isListed, hentered, hlisted],
        holdsFile_directory_cons.2 hholds, rfl⟩
    · rintro ⟨_ | ⟨n, l⟩, content, hlisted, hholds, rfl⟩
      · obtain ⟨_, hmode⟩ := hholds
        simp [at?] at hmode
      · refine ⟨n, l, content, ?_, holdsFile_directory_cons.1 hholds, rfl⟩
        simpa [isListed, hentered] using hlisted
  case case5 =>
    intro path name mode es hentered hnamed file
    rw [sourcesAt, if_neg hentered]
    refine iff_of_false (by simp) ?_
    rintro ⟨_ | ⟨n, l⟩, content, hlisted, hholds, rfl⟩
    · obtain ⟨_, hmode⟩ := hholds
      simp [at?] at hmode
    · simp [isListed, hentered] at hlisted
  case case6 =>
    intro dir hnamed file
    simp [sourcesAmong]
  case case7 =>
    rintro dir name e es ihentry ihrest ⟨hname, hlater, he, hes⟩ file
    rw [sourcesAmong, List.mem_append, ihentry he, ihrest hes]
    -- the names behind are others, so each location is below one of the entries only
    have hother : es.lookup name = none := by
      rw [List.lookup_eq_none_iff]
      intro other hmem
      simpa using (hlater other hmem).ne
    constructor
    · rintro (⟨l, content, hlisted, hholds, rfl⟩ | ⟨n, l, content, hlisted, ⟨c, hc, hholds⟩, rfl⟩)
      · exact ⟨name, l, content, hlisted, ⟨e, by simp, hholds⟩, rfl⟩
      · have hne : n ≠ name := by
          rintro rfl
          simp [hother] at hc
        exact ⟨n, l, content, hlisted, ⟨c, by simp [lookup_cons, hne, hc], hholds⟩, rfl⟩
    · rintro ⟨n, l, content, hlisted, ⟨c, hc, hholds⟩, rfl⟩
      rw [lookup_cons] at hc
      split_ifs at hc with hn
      · subst hn
        obtain rfl : e = c := Option.some.inj hc
        exact .inl ⟨l, content, hlisted, hholds, rfl⟩
      · exact .inr ⟨n, l, content, hlisted, ⟨c, hc, hholds⟩, rfl⟩

theorem mem_sourcesAmong {file : String} (h : NamedAll es) :
    file ∈ sourcesAmong dir es ↔ ∃ l content, isListed l = true ∧
      (directory mode es).HoldsFile l content ∧ file = pathBelow dir l := by
  rw [mem_sources.2 dir es h file]
  constructor
  · rintro ⟨n, l, content, hlisted, hholds, rfl⟩
    exact ⟨n :: l, content, hlisted, holdsFile_directory_cons.2 hholds, rfl⟩
  · rintro ⟨_ | ⟨n, l⟩, content, hlisted, hholds, rfl⟩
    · simp [isListed] at hlisted
    · exact ⟨n, l, content, hlisted, holdsFile_directory_cons.1 hholds, rfl⟩

/-! ### The order of what is found -/

/-- Whether a path comes before another one, piece by piece. -/
def PathBefore (p q : String) : Prop := pathPieces p < pathPieces q

theorem pathBefore_of_prefix {front : List String} {p q n m : String}
    (hp : front ++ [n] <+: pathPieces p) (hq : front ++ [m] <+: pathPieces q) (h : n < m) :
    PathBefore p q := by
  obtain ⟨xs, hxs⟩ := hp
  obtain ⟨ys, hys⟩ := hq
  rw [PathBefore, ← hxs, ← hys, List.append_assoc, List.append_assoc]
  exact List.append_left_lt (List.cons_lt_cons_iff.2 (.inl h))

/-- Paths that come in order and lie below a path. -/
def OrderedBelow (path : String) (found : List String) : Prop :=
  (∀ p ∈ found, pathPieces path <+: pathPieces p) ∧ found.Pairwise PathBefore

/-- Paths that come in order and lie below the entries of a directory. -/
def OrderedAmong (dir : String) (es : List (String × Entry)) (found : List String) : Prop :=
  ∀ front, (∀ n : String, '/' ∉ n.toList → pathPieces (joinPath dir n) = front ++ [n]) →
    (∀ p ∈ found, ∃ entry ∈ es, front ++ [entry.1] <+: pathPieces p) ∧ found.Pairwise PathBefore

/-- Entries that come later have later names, and so have the paths below them. -/
theorem OrderedAmong.cons {e : Entry} {found more : List String}
    (hfound : OrderedBelow (joinPath dir name) found) (hmore : OrderedAmong dir es more)
    (hname : '/' ∉ name.toList) (hlater : ∀ other ∈ es, name < other.1) :
    OrderedAmong dir ((name, e) :: es) (found ++ more) := by
  intro front hfront
  obtain ⟨hmem, hpair⟩ := hmore front hfront
  have hbelow : ∀ p ∈ found, front ++ [name] <+: pathPieces p := by
    intro p hp
    rw [← hfront name hname]
    exact hfound.1 p hp
  refine ⟨fun p hp => ?_, List.pairwise_append.2 ⟨hfound.2, hpair, fun p hp q hq => ?_⟩⟩
  · rcases List.mem_append.1 hp with hp | hp
    · exact ⟨_, List.mem_cons_self, hbelow p hp⟩
    · obtain ⟨entry, hentry, hpre⟩ := hmem p hp
      exact ⟨entry, List.mem_cons_of_mem _ hentry, hpre⟩
  · obtain ⟨entry, hentry, hpre⟩ := hmem q hq
    exact pathBefore_of_prefix (hbelow p hp) hpre (hlater entry hentry)

/-- A directory that is entered has its files below it. -/
theorem OrderedAmong.orderedBelow {found : List String} (h : OrderedAmong path es found)
    (hpath : path.toList.getLast? ≠ some '/') : OrderedBelow path found := by
  have hfront : ∀ n : String, '/' ∉ n.toList → pathPieces (joinPath path n) =
      pathPieces path ++ [n] := by
    intro n hn
    rw [joinPath, if_neg (by simpa using hpath), pathPieces_append_slash _ hn]
  obtain ⟨hmem, hpair⟩ := h _ hfront
  refine ⟨fun p hp => ?_, hpair⟩
  obtain ⟨entry, -, hpre⟩ := hmem p hp
  exact (List.prefix_append _ _).trans hpre

/-- **What a walk finds comes in order**, at an entry and among the entries of a directory. -/
theorem ordered_sources :
    (∀ (path name : String) (e : Entry), e.Named → path.toList.getLast? ≠ some '/' →
      OrderedBelow path (sourcesAt path name e)) ∧
      ∀ (dir : String) (es : List (String × Entry)), NamedAll es →
        OrderedAmong dir es (sourcesAmong dir es) := by
  apply sourcesAt.mutual_induct
  case case1 =>
    intro path name mode content hsource hnamed hpath
    simp [sourcesAt, hsource, OrderedBelow]
  case case2 =>
    intro path name mode content hsource hnamed hpath
    simp [sourcesAt, hsource, OrderedBelow]
  case case3 =>
    intro path name target hnamed hpath
    simp [sourcesAt, OrderedBelow]
  case case4 =>
    intro path name mode es hentered ih hnamed hpath
    rw [sourcesAt, if_pos hentered]
    exact (ih hnamed).orderedBelow hpath
  case case5 =>
    intro path name mode es hentered hnamed hpath
    simp [sourcesAt, hentered, OrderedBelow]
  case case6 =>
    intro dir hnamed front hfront
    simp [sourcesAmong]
  case case7 =>
    rintro dir name e es ihentry ihrest ⟨hname, hlater, he, hes⟩
    rw [sourcesAmong]
    exact .cons (ihentry he (getLast?_joinPath dir hname)) (ihrest hes) hname.no_slash hlater

theorem pairwise_sourcesAmong (dir : String) (h : NamedAll es) :
    (sourcesAmong dir es).Pairwise PathBefore := by
  obtain ⟨front, -, hfront⟩ := exists_pathPieces_joinPath dir
  exact (ordered_sources.2 dir es h front hfront).2

/-! ### What a scan of a directory looks at -/

/-- A walk that does not follow a link at its end stops where the other one does, or at a link. -/
theorem walk_of_walk {root : Entry} {links : Nat} {dir l : Location} {ps : List String}
    (h : FileSystem.walk root true links dir ps = .ok (.there l)) :
    FileSystem.walk root false links dir ps = .ok (.there l) ∨
      ∃ l' target, FileSystem.walk root false links dir ps = .ok (.there l') ∧
        root.at? l' = some (.link target) := by
  induction links, dir, ps using FileSystem.walk.induct root true with
  | case1 links dir =>
    rw [FileSystem.walk] at h ⊢
    exact .inl h
  | case2 links dir p ps hp ih =>
    rw [FileSystem.walk, if_pos hp] at h ⊢
    exact ih h
  | case3 links dir ps hp ih =>
    rw [FileSystem.walk, if_neg hp, if_pos rfl] at h ⊢
    exact ih h
  | case4 links dir p ps hp hup hnone hps =>
    rw [FileSystem.walk, if_neg hp, if_neg hup, hnone] at h
    simp [hps] at h
  | case5 links dir p ps hp hup hnone hps =>
    rw [FileSystem.walk, if_neg hp, if_neg hup, hnone] at h
    simp [hps] at h
  | case6 links dir p ps hp hup mode es hes ih =>
    rw [FileSystem.walk, if_neg hp, if_neg hup, hes] at h ⊢
    exact ih h
  | case7 links dir p ps hp hup mode content hfile hps =>
    rw [FileSystem.walk, if_neg hp, if_neg hup, hfile] at h ⊢
    exact .inl h
  | case8 links dir p ps hp hup mode content hfile hps =>
    rw [FileSystem.walk, if_neg hp, if_neg hup, hfile] at h
    simp [hps] at h
  | case9 links dir p ps hp hup target htarget hlast => simp at hlast
  | case10 dir p ps hp hup target htarget hlast =>
    rw [FileSystem.walk, if_neg hp, if_neg hup, htarget] at h
    simp at h
  | case11 dir p ps hp hup target htarget hlast links ih =>
    rw [FileSystem.walk, if_neg hp, if_neg hup, htarget] at h ⊢
    simp only [Bool.not_true, Bool.and_false, Bool.false_eq_true, if_false] at h
    by_cases hps : ps = []
    · -- the link is the end of the path
      refine .inr ⟨dir ++ [p], target, by simp [hps], ?_⟩
      rw [at?_append_singleton, htarget]
    · simp only [List.isEmpty_iff, hps, Bool.not_false, Bool.and_true]
      exact ih (by simpa using h)

namespace FileSystem

theorem exists_of_isDirectory (h : fs.isDirectory path = true) :
    ∃ mode es, fs.find path = .ok (.directory mode es) := by
  rw [isDirectory] at h
  split at h
  · rename_i e he
    cases e with
    | file _ _ => simp [Entry.isDirectory] at h
    | link _ => simp [Entry.isDirectory] at h
    | directory mode es => exact ⟨mode, es, he⟩
  · simp at h

theorem find_eq_ok {e : Entry} (h : fs.find path = .ok e) :
    ∃ l, fs.locate path = .ok l ∧ fs.root.at? l = some e := by
  rw [find] at h
  split at h
  · rename_i l hl
    refine ⟨l, hl, ?_⟩
    cases hat : fs.root.at? l with
    | none => simp [hat] at h
    | some e' => simpa [hat] using h
  · simp at h

end FileSystem

/-- Looking at the end of a path without following it finds what the path leads to, or a link. -/
theorem findLink_of_find {e : Entry} (h : fs.find path = .ok e) :
    fs.findLink path = .ok e ∨ ∃ target, fs.findLink path = .ok (.link target) := by
  by_cases hslash : FileSystem.endsInSlash path = true
  · rw [FileSystem.findLink, if_pos hslash]
    exact .inl h
  obtain ⟨l, hl, hat⟩ := FileSystem.find_eq_ok h
  have hpath : path ≠ "" := by
    rintro rfl
    simp [FileSystem.locate] at hl
  have hwalk : FileSystem.walk fs.root true linkLimit (if isAbsolute path then [] else fs.here)
      (FileSystem.stepsOf path) = .ok (.there l) := by
    rw [FileSystem.locate, if_neg hpath] at hl
    simp only [hslash, Bool.false_eq_true, if_false, List.append_nil] at hl
    split at hl
    · rename_i l' hwalk
      rw [hwalk, Except.ok.inj hl]
    · cases hl
    · cases hl
  rw [FileSystem.findLink, if_neg hslash, FileSystem.targetOf, if_neg hpath]
  dsimp only
  rcases walk_of_walk hwalk with hfalse | ⟨l', target, hfalse, hlink⟩
  · rw [hfalse]
    exact .inl (by simp [hat])
  · rw [hfalse]
    exact .inr ⟨target, by simp [hlink]⟩

theorem pathPieces_pathBelow {l : Location} (hdir : dir.toList.getLast? ≠ some '/')
    (h : ∀ n ∈ l, IsName n) : pathPieces (pathBelow dir l) = pathPieces dir ++ l ∧
      (pathBelow dir l).toList.getLast? ≠ some '/' := by
  induction l generalizing dir with
  | nil => exact ⟨by simp [pathBelow], hdir⟩
  | cons n l ih =>
    obtain ⟨hn, hnames⟩ := List.forall_mem_cons.1 h
    obtain ⟨hpieces, hlast⟩ := ih (getLast?_joinPath dir hn) hnames
    refine ⟨?_, hlast⟩
    rw [pathBelow, List.foldl_cons, ← pathBelow, hpieces, joinPath, if_neg (by simpa using hdir),
      pathPieces_append_slash _ hn.no_slash, List.append_assoc, List.singleton_append]

/-- The pieces of a path below a directory are those of the directory, as far as they lead
somewhere, and the names on the way. -/
theorem exists_pathPieces_pathBelow (dir : String) :
    ∃ front, realPieces front = realPieces (pathPieces dir) ∧
      ∀ l : Location, l ≠ [] → (∀ n ∈ l, IsName n) → pathPieces (pathBelow dir l) = front ++ l ∧
        (pathBelow dir l).toList.getLast? ≠ some '/' := by
  obtain ⟨front, hfront, hjoin⟩ := exists_pathPieces_joinPath dir
  refine ⟨front, hfront, fun l hl h => ?_⟩
  cases l with
  | nil => exact absurd rfl hl
  | cons n l =>
    obtain ⟨hn, hnames⟩ := List.forall_mem_cons.1 h
    obtain ⟨hpieces, hlast⟩ := pathPieces_pathBelow (getLast?_joinPath dir hn) hnames
    rw [hjoin n hn.no_slash, List.append_assoc, List.singleton_append] at hpieces
    exact ⟨hpieces, hlast⟩

theorem exists_stepsOf_pathBelow (dir : String) {l : Location} (hl : l ≠ [])
    (h : ∀ n ∈ l, IsName n) :
    ∃ front, FileSystem.stepsOf (pathBelow dir l) = front ++ l ∧
      realPieces front = realPieces (pathPieces dir) ∧
      FileSystem.endsInSlash (pathBelow dir l) = false := by
  obtain ⟨front, hfront, hbelow⟩ := exists_pathPieces_pathBelow dir
  obtain ⟨hpieces, hlast⟩ := hbelow l hl h
  refine ⟨front, ?_, hfront, beq_false_of_ne hlast⟩
  -- the last name is not empty, so nothing is left out at the end
  obtain ⟨last, hmem⟩ := Option.ne_none_iff_exists'.1 (mt List.getLast?_eq_none_iff.1 hl)
  have hreal : last ≠ "" := (h last (List.mem_of_getLast? hmem)).ne_empty
  obtain ⟨init, hinit⟩ := List.getLast?_eq_some_iff.1 hmem
  rw [FileSystem.stepsOf, hpieces, hinit]
  simp [hreal]

theorem isAbsolute_pathBelow (hdir : dir ≠ "") (l : Location) :
    isAbsolute (pathBelow dir l) = isAbsolute dir ∧ pathBelow dir l ≠ "" := by
  induction l generalizing dir with
  | nil => exact ⟨rfl, hdir⟩
  | cons n l ih =>
    have hne : dir.toList ≠ [] := by simpa using hdir
    obtain ⟨c, cs, hcs⟩ := List.exists_cons_of_ne_nil hne
    have hhead : (joinPath dir n).toList.head? = dir.toList.head? := by
      rw [joinPath]
      split_ifs <;> simp [hcs]
    have hjoin : joinPath dir n ≠ "" := by
      intro hempty
      rw [hempty, hcs] at hhead
      simp at hhead
    obtain ⟨habs, hnonempty⟩ := ih hjoin
    refine ⟨?_, hnonempty⟩
    rw [pathBelow, List.foldl_cons, ← pathBelow, habs, isAbsolute, hhead, isAbsolute]

/-- Names below a directory lead down to a file. -/
theorem walk_of_holdsFile {root : Entry} {links : Nat} {dir l : Location} {content : ByteArray}
    (hl : l ≠ []) (hnames : ∀ n ∈ l, IsName n) (h : root.at? (dir ++ l) = some (.file mode content)) :
    FileSystem.walk root true links dir l = .ok (.there (dir ++ l)) := by
  induction l generalizing dir with
  | nil => exact absurd rfl hl
  | cons n l ih =>
    obtain ⟨hn, hnames⟩ := List.forall_mem_cons.1 hnames
    cases l with
    | nil => exact walk_name_of_file hn.not_staysPut hn.ne_dots h
    | cons m l =>
      rw [List.append_cons] at h
      obtain ⟨mode, es, hdir⟩ : ∃ mode es,
          ((root.at? dir).bind fun d => d.entries.lookup n) = some (.directory mode es) := by
        rw [← at?_append_singleton]
        rw [at?_append, Option.bind_eq_some_iff] at h
        obtain ⟨c, hc, hbelow⟩ := h
        cases c with
        | file _ _ => simp [at?, entries] at hbelow
        | link _ => simp [at?, entries] at hbelow
        | directory mode es => exact ⟨mode, es, hc⟩
      have hstep := ih (by simp) hnames h
      rw [← List.append_cons] at hstep
      rw [FileSystem.walk, if_neg hn.not_staysPut, if_neg hn.ne_dots, hdir]
      exact hstep

/-- **The path that a file is found by leads to it.** -/
theorem find_pathBelow {l : Location} {content : ByteArray} {mode' : Nat}
    (h : fs.find path = .ok (.directory mode es)) (hnamed : NamedAll es)
    (hl : l ≠ []) (hfile : (directory mode es).at? l = some (.file mode' content)) :
    fs.find (pathBelow path l) = .ok (.file mode' content) := by
  obtain ⟨dir, hdir, hat⟩ := FileSystem.find_eq_ok h
  have hroot : (directory mode es).Named := hnamed
  have hnames : ∀ n ∈ l, IsName n := hroot.isName_of_mem hfile
  obtain ⟨hpath, -⟩ := FileSystem.exists_walk_of_locate hdir
  obtain ⟨links, hleads⟩ := FileSystem.leads_of_locate hdir
    (view_eq_some_directory.2 ⟨es, hat⟩)
  obtain ⟨front, hsteps, hfront, hslash⟩ := exists_stepsOf_pathBelow path hl hnames
  obtain ⟨habs, hne⟩ := isAbsolute_pathBelow hpath l
  have hthere : fs.root.at? (dir ++ l) = some (.file mode' content) := by
    rw [at?_append, hat]
    exact hfile
  have hstart : (if isAbsolute (pathBelow path l) then [] else fs.here) = fs.startOf path := by
    rw [habs]
    rfl
  have hlocate : fs.locate (pathBelow path l) = .ok (dir ++ l) := by
    rw [FileSystem.locate, if_neg hne, hsteps, hslash, hstart, if_neg (by simp), List.append_nil,
      (hleads.of_realPieces hfront).walk hl, walk_of_holdsFile hl hnames hthere]
  rw [FileSystem.find, hlocate]
  simp [hthere]

/-- **A scan of a directory looks at its entries.** -/
theorem scan_eq (h : fs.find path = .ok (.directory mode es)) :
    scan fs path = ⟨sourcesAmong path es, []⟩ := by
  rcases findLink_of_find h with hdir | ⟨target, hlink⟩
  · rw [scan, hdir]
  · rw [scan, hlink, h]
    rfl

theorem mem_scan {file : String} (h : fs.find path = .ok (.directory mode es))
    (hnamed : NamedAll es) :
    file ∈ (scan fs path).files ↔ ∃ l content, isListed l = true ∧
      (directory mode es).HoldsFile l content ∧ file = pathBelow path l := by
  rw [scan_eq h]
  exact mem_sourcesAmong hnamed

/-- **A file that is found is read.** -/
theorem readText_pathBelow {l : Location} {content : ByteArray}
    (h : fs.find path = .ok (.directory mode es)) (hnamed : NamedAll es)
    (hlisted : isListed l = true) (hfile : (directory mode es).HoldsFile l content) :
    fs.readText (pathBelow path l) = (String.fromUTF8? content).elim (.error .notText) .ok := by
  have hl : l ≠ [] := by
    rintro rfl
    simp [isListed] at hlisted
  obtain ⟨mode', hmode'⟩ := hfile
  rw [FileSystem.readText, find_pathBelow h hnamed hl hmode']

/-- **What a scan of a directory finds comes in order.** -/
theorem pairwise_scan (hroot : fs.root.Named) (h : fs.isDirectory path = true) :
    (scan fs path).files.Pairwise PathBefore := by
  obtain ⟨mode, es, hfind⟩ := FileSystem.exists_of_isDirectory h
  obtain ⟨l, -, hat⟩ := FileSystem.find_eq_ok hfind
  rw [scan_eq hfind]
  exact pairwise_sourcesAmong path (hroot.of_at? hat)

/-- **What two scans find among some files decides the order they find it in.** -/
theorem filter_scan_eq {fs' : FileSystem} {keep keep' : String → Bool} (hroot : fs.root.Named)
    (hroot' : fs'.root.Named) (h : fs.isDirectory path = true) (h' : fs'.isDirectory path = true)
    (hsame : ∀ file, (file ∈ (scan fs path).files ∧ keep file = true) ↔
      (file ∈ (scan fs' path).files ∧ keep' file = true)) :
    (scan fs path).files.filter keep = (scan fs' path).files.filter keep' := by
  have hanti : ∀ p q, PathBefore p q → PathBefore q p → p = q := fun p q hpq hqp =>
    absurd hqp (lt_asymm hpq)
  have : Std.Antisymm PathBefore := ⟨hanti⟩
  have : Std.Irrefl PathBefore := ⟨fun p => lt_irrefl (pathPieces p)⟩
  refine ((pairwise_scan hroot h).filter keep).eq_of_mem_iff
    ((pairwise_scan hroot' h').filter keep') fun file => ?_
  simpa only [List.mem_filter] using hsame file

end DocBlocks
