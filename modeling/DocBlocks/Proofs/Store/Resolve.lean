import DocBlocks.Proofs.Store.Entry
import DocBlocks.Proofs.Store.Path

/-!
# Ways through the file system

`Leads` says that the pieces of a path lead from one directory to another, with as many links left
as it takes. It looks at the view only and is what a walk does (`leads_of_walk`, `Leads.walk`).

* `Leads.of_realPieces`: pieces that lead nowhere may be left out and put in.
* `Leads.of_view`: a way stays when a file is put where nothing stood.
* `leads_of_locate_directoryOf`: the pieces in front of the name that a path ends in lead to the
  directory of the path.
-/

namespace DocBlocks

open Entry

/-- The pieces of a path lead from one directory to another. -/
inductive Leads (root : Entry) : (links : Nat) → (dir : Location) → List String →
    (links' : Nat) → (dir' : Location) → Prop
  | stop (links : Nat) (dir : Location) : Leads root links dir [] links dir
  | stay {links links' : Nat} {dir dir' : Location} {p : String} {ps : List String} :
      staysPut p = true → Leads root links dir ps links' dir' →
      Leads root links dir (p :: ps) links' dir'
  | up {links links' : Nat} {dir dir' : Location} {ps : List String} :
      Leads root links dir.dropLast ps links' dir' →
      Leads root links dir (".." :: ps) links' dir'
  | down {links links' mode : Nat} {dir dir' : Location} {p : String} {ps : List String} :
      ¬ staysPut p = true → p ≠ ".." →
      root.view (dir ++ [p]) = some (.directory mode []) →
      Leads root links (dir ++ [p]) ps links' dir' →
      Leads root links dir (p :: ps) links' dir'
  | follow {links links' : Nat} {dir dir' : Location} {p target : String} {ps : List String} :
      ¬ staysPut p = true → p ≠ ".." → root.view (dir ++ [p]) = some (.link target) →
      Leads root links (if isAbsolute target then [] else dir) (pathPieces target ++ ps)
        links' dir' →
      Leads root (links + 1) dir (p :: ps) links' dir'

variable {root root' : Entry} {links links' : Nat} {dir dir' l : Location} {p target : String}
  {ps qs : List String} {mode : Nat} {followLast : Bool}

/-! ### Ways and walks -/

theorem view_eq_of_lookup {e : Entry}
    (h : ((root.at? dir).bind fun d => d.entries.lookup p) = some e) :
    root.view (dir ++ [p]) = some e.bare := by
  rw [view_append_singleton, h, Option.map_some]

/-- What a step of a walk looks up. -/
theorem lookup_of_view_eq_directory (h : root.view (dir ++ [p]) = some (.directory mode [])) :
    ∃ es, ((root.at? dir).bind fun d => d.entries.lookup p) = some (.directory mode es) := by
  rw [← at?_append_singleton]
  exact view_eq_some_directory.1 h

theorem lookup_of_view_eq_link (h : root.view (dir ++ [p]) = some (.link target)) :
    ((root.at? dir).bind fun d => d.entries.lookup p) = some (.link target) := by
  rw [← at?_append_singleton]
  exact view_eq_some_link.1 h

/-- **A walk that ends in a directory has found a way.** -/
theorem leads_of_walk (h : FileSystem.walk root true links dir ps = .ok (.there l))
    (hl : root.view l = some (.directory mode [])) :
    ∃ links', Leads root links dir ps links' l := by
  induction links, dir, ps using FileSystem.walk.induct root true with
  | case1 links dir =>
    rw [FileSystem.walk] at h
    obtain rfl : dir = l := by simpa using h
    exact ⟨links, .stop links dir⟩
  | case2 links dir p ps hp ih =>
    rw [FileSystem.walk, if_pos hp] at h
    exact (ih h).imp fun _ => .stay hp
  | case3 links dir ps hp ih =>
    rw [FileSystem.walk, if_neg hp, if_pos rfl] at h
    exact (ih h).imp fun _ => .up
  | case4 links dir p ps hp hup hnone hps =>
    rw [FileSystem.walk, if_neg hp, if_neg hup, hnone] at h
    simp [hps] at h
  | case5 links dir p ps hp hup hnone hps =>
    rw [FileSystem.walk, if_neg hp, if_neg hup, hnone] at h
    simp [hps] at h
  | case6 links dir p ps hp hup mode es hes ih =>
    rw [FileSystem.walk, if_neg hp, if_neg hup, hes] at h
    exact (ih h).imp fun _ => .down hp hup (view_eq_of_lookup hes)
  | case7 links dir p ps hp hup mode content hfile hps =>
    rw [FileSystem.walk, if_neg hp, if_neg hup, hfile] at h
    obtain rfl : dir ++ [p] = l := by simpa [hps] using h
    rw [view_eq_of_lookup hfile] at hl
    cases hl
  | case8 links dir p ps hp hup mode content hfile hps =>
    rw [FileSystem.walk, if_neg hp, if_neg hup, hfile] at h
    simp [hps] at h
  | case9 links dir p ps hp hup target htarget hlast => simp at hlast
  | case10 dir p ps hp hup target htarget hlast =>
    rw [FileSystem.walk, if_neg hp, if_neg hup, htarget] at h
    simp at h
  | case11 dir p ps hp hup target htarget hlast links ih =>
    rw [FileSystem.walk, if_neg hp, if_neg hup, htarget] at h
    simp only [Bool.not_true, Bool.and_false, Bool.false_eq_true, if_false] at h
    exact (ih (by simpa using h)).imp fun _ => .follow hp hup (view_eq_of_lookup htarget)

/-- **A walk goes along a way, and then on from its end**, if there are pieces left. -/
theorem Leads.walk (h : Leads root links dir ps links' dir') (hqs : qs ≠ []) :
    FileSystem.walk root followLast links dir (ps ++ qs) =
      FileSystem.walk root followLast links' dir' qs := by
  induction h with
  | stop => rfl
  | stay hp _ ih => rw [List.cons_append, FileSystem.walk, if_pos hp, ih]
  | up _ ih => rw [List.cons_append, FileSystem.walk, if_neg (by decide), if_pos rfl, ih]
  | down hp hup hview _ ih =>
    obtain ⟨es, hes⟩ := lookup_of_view_eq_directory hview
    rw [List.cons_append, FileSystem.walk, if_neg hp, if_neg hup, hes, ← ih]
  | @follow _ _ _ _ _ _ ps hp hup hview _ ih =>
    have hmore : (ps ++ qs).isEmpty = false := by simp [hqs]
    rw [List.cons_append, FileSystem.walk, if_neg hp, if_neg hup, lookup_of_view_eq_link hview]
    simp only [hmore, Bool.false_and, Bool.false_eq_true, if_false]
    rw [← ih, List.append_assoc]

/-! ### Ways that are the same -/

theorem Leads.stay_all (hqs : ∀ q ∈ qs, ¬ (!staysPut q) = true)
    (h : Leads root links dir ps links' dir') : Leads root links dir (qs ++ ps) links' dir' := by
  induction qs with
  | nil => exact h
  | cons q qs ih =>
    have hq : staysPut q = true := by simpa using hqs q List.mem_cons_self
    exact .stay hq (ih fun r hr => hqs r (List.mem_cons_of_mem _ hr))

/-- **Pieces that lead nowhere may be left out and put in.** -/
theorem Leads.of_realPieces (h : Leads root links dir ps links' dir')
    (hqs : realPieces qs = realPieces ps) : Leads root links dir qs links' dir' := by
  induction h generalizing qs with
  | stop links dir =>
    rw [← List.append_nil qs]
    exact .stay_all (List.filter_eq_nil_iff.1 hqs) (.stop links dir)
  | stay hp _ ih => exact ih (hqs.trans (realPieces_cons_of_staysPut hp _))
  | up _ ih =>
    rw [realPieces_cons_of_not_staysPut (by decide)] at hqs
    obtain ⟨front, back, rfl, hfront, -, hback⟩ := List.filter_eq_cons_iff.1 hqs
    exact .stay_all hfront (.up (ih hback))
  | down hp hup hview _ ih =>
    rw [realPieces_cons_of_not_staysPut hp] at hqs
    obtain ⟨front, back, rfl, hfront, -, hback⟩ := List.filter_eq_cons_iff.1 hqs
    exact .stay_all hfront (.down hp hup hview (ih hback))
  | follow hp hup hview _ ih =>
    rw [realPieces_cons_of_not_staysPut hp] at hqs
    obtain ⟨front, back, rfl, hfront, -, hback⟩ := List.filter_eq_cons_iff.1 hqs
    refine .stay_all hfront (.follow hp hup hview (ih ?_))
    rw [realPieces_append, realPieces_append]
    exact congrArg (realPieces _ ++ ·) hback

/-- **A way stays when something is put where nothing stood.** -/
theorem Leads.of_view (h : Leads root links dir ps links' dir') {e : Option Entry}
    (hview : root'.view = Function.update root.view l e) (hl : root.view l = none) :
    Leads root' links dir ps links' dir' := by
  have hstays {k : Location} {e' : Entry} (hk : root.view k = some e') :
      root'.view k = some e' := by
    rw [hview, Function.update_of_ne (by rintro rfl; simp [hl] at hk), hk]
  induction h with
  | stop links dir => exact .stop links dir
  | stay hp _ ih => exact .stay hp ih
  | up _ ih => exact .up ih
  | down hp hup hview _ ih => exact .down hp hup (hstays hview) ih
  | follow hp hup hview _ ih => exact .follow hp hup (hstays hview) ih

/-! ### The end of a path -/

/-- The location of what a path leads to, or the one that it leaves free. -/
def Target.location : Target → Location
  | there l => l
  | vacant dir name => dir ++ [name]

theorem walk_name (root : Entry) (links : Nat) (dir : Location) (hp : ¬ staysPut p = true)
    (hup : p ≠ "..") :
    ∃ t, FileSystem.walk root false links dir [p] = .ok t ∧ t.location = dir ++ [p] ∧
      (∀ l, t = .there l → ∃ e, root.view l = some e) := by
  rw [FileSystem.walk, if_neg hp, if_neg hup]
  cases he : (root.at? dir).bind fun d => d.entries.lookup p with
  | none => exact ⟨.vacant dir p, rfl, rfl, by simp⟩
  | some e =>
    refine ⟨.there (dir ++ [p]), ?_, rfl, ?_⟩
    · cases e with
      | file _ _ => rfl
      | link _ => rfl
      | directory _ _ => simp [FileSystem.walk]
    · rintro l ⟨⟩
      exact ⟨e.bare, view_eq_of_lookup he⟩

theorem walk_name_of_file {content : ByteArray} (hp : ¬ staysPut p = true) (hup : p ≠ "..")
    (h : root.at? (dir ++ [p]) = some (.file mode content)) :
    FileSystem.walk root followLast links dir [p] = .ok (.there (dir ++ [p])) := by
  rw [at?_append_singleton] at h
  rw [FileSystem.walk, if_neg hp, if_neg hup, h]
  rfl

/-- **A walk that ends at a file follows no link there**, so it does not matter whether it would. -/
theorem walk_of_file {t : Target} {content : ByteArray}
    (h : FileSystem.walk root false links dir ps = .ok t)
    (hfile : root.at? t.location = some (.file mode content)) :
    FileSystem.walk root true links dir ps = .ok (.there t.location) := by
  induction links, dir, ps using FileSystem.walk.induct root false with
  | case1 links dir =>
    obtain rfl : Target.there dir = t := by simpa [FileSystem.walk] using h
    rw [FileSystem.walk]
    rfl
  | case2 links dir p ps hp ih =>
    rw [FileSystem.walk, if_pos hp] at h ⊢
    exact ih h
  | case3 links dir ps hp ih =>
    rw [FileSystem.walk, if_neg hp, if_pos rfl] at h ⊢
    exact ih h
  | case4 links dir p ps hp hup hnone hps =>
    rw [FileSystem.walk, if_neg hp, if_neg hup, hnone] at h
    obtain rfl : Target.vacant dir p = t := by simpa [hps] using h
    rw [Target.location, at?_append_singleton, hnone] at hfile
    cases hfile
  | case5 links dir p ps hp hup hnone hps =>
    rw [FileSystem.walk, if_neg hp, if_neg hup, hnone] at h
    simp [hps] at h
  | case6 links dir p ps hp hup _ es hes ih =>
    rw [FileSystem.walk, if_neg hp, if_neg hup, hes] at h ⊢
    exact ih h
  | case7 links dir p ps hp hup _ _ hlast hps =>
    rw [FileSystem.walk, if_neg hp, if_neg hup, hlast] at h ⊢
    obtain rfl : Target.there (dir ++ [p]) = t := by simpa [hps] using h
    simp [hps, Target.location]
  | case8 links dir p ps hp hup _ _ hlast hps =>
    rw [FileSystem.walk, if_neg hp, if_neg hup, hlast] at h
    simp [hps] at h
  | case9 links dir p ps hp hup target htarget hps =>
    rw [FileSystem.walk, if_neg hp, if_neg hup, htarget] at h
    dsimp only at h
    rw [if_pos hps] at h
    obtain rfl : Target.there (dir ++ [p]) = t := Except.ok.inj h
    rw [Target.location, at?_append_singleton, htarget] at hfile
    cases hfile
  | case10 dir p ps hp hup target htarget hps =>
    rw [FileSystem.walk, if_neg hp, if_neg hup, htarget] at h
    dsimp only at h
    rw [if_neg hps] at h
    cases h
  | case11 dir p ps hp hup target htarget hps links ih =>
    rw [FileSystem.walk, if_neg hp, if_neg hup, htarget] at h ⊢
    dsimp only at h ⊢
    rw [if_neg hps] at h
    rw [if_neg (by simp)]
    exact ih h

namespace FileSystem

variable {fs : FileSystem} {path : String} {mode' : Nat} {content : ByteArray}

/-- Where the walk of a path starts. -/
def startOf (fs : FileSystem) (path : String) : Location :=
  if isAbsolute path then [] else fs.here

theorem exists_walk_of_locate (h : fs.locate path = .ok l) :
    path ≠ "" ∧ ∃ qs, realPieces qs = realPieces (pathPieces path) ∧
      walk fs.root true linkLimit (fs.startOf path) qs = .ok (.there l) := by
  by_cases hpath : path = ""
  · rw [locate, if_pos hpath] at h
    cases h
  · refine ⟨hpath, stepsOf path ++ if endsInSlash path then ["."] else [], ?_, ?_⟩
    · have hslash : realPieces (if endsInSlash path then ["."] else []) = [] := by
        split_ifs <;> rfl
      rw [realPieces_append, realPieces_stepsOf, hslash, List.append_nil]
    · rw [locate, if_neg hpath] at h
      rw [startOf]
      split at h
      case h_1 l' hwalk =>
        obtain rfl : l' = l := by simpa using h
        exact hwalk
      all_goals cases h

theorem leads_of_locate (h : fs.locate path = .ok l)
    (hl : fs.root.view l = some (.directory mode [])) :
    ∃ links, Leads fs.root linkLimit (fs.startOf path) (pathPieces path) links l := by
  obtain ⟨-, qs, hqs, hwalk⟩ := exists_walk_of_locate h
  obtain ⟨links, hleads⟩ := leads_of_walk hwalk hl
  exact ⟨links, hleads.of_realPieces hqs.symm⟩

/-- **The directory of a path is where its last piece is looked for.** -/
theorem leads_of_locate_directoryOf (hdots : Change.endsInDots path = false)
    (h : fs.locate (directoryOf path) = .ok l)
    (hl : fs.root.view l = some (.directory mode [])) :
    ∃ ps p links, stepsOf path = ps ++ [p] ∧ ¬ staysPut p = true ∧ p ≠ ".." ∧
      Leads fs.root linkLimit (fs.startOf path) ps links l := by
  obtain ⟨ps, p, qs, hpieces, hqs, hsteps, hp, hup⟩ := exists_pathPieces_of_not_endsInDots hdots
  obtain ⟨links, hleads⟩ := leads_of_locate h hl
  refine ⟨ps, p, links, hsteps, hp, hup, ?_⟩
  rw [startOf, isAbsolute_directoryOf hpieces hqs hp] at hleads
  exact hleads.of_realPieces (realPieces_pathPieces_directoryOf hpieces hqs hp).symm

end FileSystem

end DocBlocks
