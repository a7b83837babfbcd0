import DocBlocks.Store.Change
import Mathlib.Data.List.Infix
import Mathlib.Data.List.TakeWhile

/-!
# The pieces of a path

Pieces put together with slashes are the path again, and the pieces of the directory that a path
lies in are those of the path without the last one, up to pieces that lead nowhere:
`realPieces_pathPieces_directoryOf`. Both paths start at the same place: `isAbsolute_directoryOf`.
-/

namespace DocBlocks

variable {path p : String} {ps : List String}

/-! ### Splitting at slashes and putting together -/

theorem splitSlashes_ne_nil (cs : List Char) : splitSlashes cs ≠ [] := by
  cases cs with
  | nil => simp [splitSlashes]
  | cons c cs =>
    rw [splitSlashes]
    split_ifs
    · simp
    · split <;> simp

theorem intercalate_splitSlashes (cs : List Char) :
    ['/'].intercalate (splitSlashes cs) = cs := by
  induction cs with
  | nil => rfl
  | cons c cs ih =>
    obtain ⟨q, qs, hq⟩ := List.exists_cons_of_ne_nil (splitSlashes_ne_nil cs)
    rw [splitSlashes, hq]
    rw [hq] at ih
    split_ifs with hc
    · rw [List.intercalate_cons_cons, ih, hc]
      rfl
    · cases qs with
      | nil => simpa using ih
      | cons q' qs =>
        rw [List.intercalate_cons_cons] at ih ⊢
        simpa using ih

theorem splitSlashes_append_slash {q : List Char} (hq : '/' ∉ q) (cs : List Char) :
    splitSlashes (q ++ '/' :: cs) = q :: splitSlashes cs := by
  induction q with
  | nil => simp [splitSlashes]
  | cons c q ih =>
    obtain ⟨hc, hq⟩ : c ≠ '/' ∧ '/' ∉ q := by simpa [eq_comm] using hq
    rw [List.cons_append, splitSlashes, if_neg hc, ih hq]

theorem splitSlashes_of_not_mem {q : List Char} (hq : '/' ∉ q) : splitSlashes q = [q] := by
  induction q with
  | nil => rfl
  | cons c q ih =>
    obtain ⟨hc, hq⟩ : c ≠ '/' ∧ '/' ∉ q := by simpa [eq_comm] using hq
    rw [splitSlashes, if_neg hc, ih hq]

theorem not_mem_of_mem_splitSlashes {q cs : List Char} (h : q ∈ splitSlashes cs) : '/' ∉ q := by
  induction cs generalizing q with
  | nil =>
    obtain rfl : q = [] := by simpa [splitSlashes] using h
    simp
  | cons c cs ih =>
    obtain ⟨q', qs, hq'⟩ := List.exists_cons_of_ne_nil (splitSlashes_ne_nil cs)
    rw [splitSlashes, hq'] at h
    rw [hq'] at ih
    split_ifs at h with hc
    · rcases List.mem_cons.1 h with rfl | h
      · simp
      · exact ih h
    · rcases List.mem_cons.1 h with rfl | h
      · simpa [eq_comm, hc] using ih List.mem_cons_self
      · exact ih (List.mem_cons_of_mem _ h)

/-- **Splitting undoes putting together**, for pieces without slashes. -/
theorem splitSlashes_intercalate {qs : List (List Char)} (hne : qs ≠ [])
    (h : ∀ q ∈ qs, '/' ∉ q) : splitSlashes (['/'].intercalate qs) = qs := by
  induction qs with
  | nil => exact absurd rfl hne
  | cons q qs ih =>
    cases qs with
    | nil =>
      rw [List.intercalate_singleton]
      exact splitSlashes_of_not_mem (h q List.mem_cons_self)
    | cons q' qs =>
      rw [List.intercalate_cons_cons, List.append_assoc, List.singleton_append,
        splitSlashes_append_slash (h q List.mem_cons_self),
        ih (by simp) fun r hr => h r (List.mem_cons_of_mem _ hr)]

/-! ### Pieces of a path -/

theorem not_mem_of_mem_pathPieces (h : p ∈ pathPieces path) : '/' ∉ p.toList := by
  obtain ⟨q, hq, rfl⟩ := List.mem_map.1 h
  simpa using not_mem_of_mem_splitSlashes hq

theorem map_toList_pathPieces (path : String) :
    (pathPieces path).map String.toList = splitSlashes path.toList := by
  simp [pathPieces, Function.comp_def]

theorem toList_eq_intercalate (path : String) :
    path.toList = ['/'].intercalate ((pathPieces path).map String.toList) := by
  rw [map_toList_pathPieces, intercalate_splitSlashes]

theorem pathPieces_intercalate (hne : ps ≠ []) (h : ∀ p ∈ ps, '/' ∉ p.toList) :
    pathPieces ("/".intercalate ps) = ps := by
  rw [pathPieces, String.toList_intercalate, show "/".toList = ['/'] from rfl,
    splitSlashes_intercalate (by simpa using hne) (by simpa using h)]
  simp [Function.comp_def]

theorem pathPieces_slash_append (path : String) :
    pathPieces ("/" ++ path) = "" :: pathPieces path := by
  simp [pathPieces, splitSlashes]

/-- The first piece of a path from the top is empty. -/
theorem pathPieces_of_isAbsolute (h : isAbsolute path = true) :
    pathPieces path = "" :: (pathPieces path).tail := by
  cases hcs : path.toList with
  | nil => simp [isAbsolute, hcs] at h
  | cons c cs =>
    obtain rfl : c = '/' := by simpa [isAbsolute, hcs] using h
    simp [pathPieces, hcs, splitSlashes]

/-! ### Pieces that lead nowhere -/

/-- The pieces that lead somewhere. -/
def realPieces (ps : List String) : List String := ps.filter fun p => !staysPut p

theorem realPieces_append (ps qs : List String) :
    realPieces (ps ++ qs) = realPieces ps ++ realPieces qs := List.filter_append ..

theorem realPieces_reverse (ps : List String) :
    realPieces ps.reverse = (realPieces ps).reverse := List.filter_reverse ..

theorem realPieces_eq_nil (h : ∀ p ∈ ps, staysPut p = true) : realPieces ps = [] := by
  simpa [realPieces] using h

theorem realPieces_cons_of_staysPut (h : staysPut p = true) (ps : List String) :
    realPieces (p :: ps) = realPieces ps := by
  simp [realPieces, h]

theorem realPieces_cons_of_not_staysPut (h : ¬ staysPut p = true) (ps : List String) :
    realPieces (p :: ps) = p :: realPieces ps := by
  simp [realPieces, h]

theorem realPieces_trimPieces (ps : List String) : realPieces (trimPieces ps) = realPieces ps := by
  induction ps with
  | nil => rfl
  | cons p ps ih =>
    rw [trimPieces]
    split_ifs with h
    · rw [ih, realPieces_cons_of_staysPut h]
    · rfl

theorem realPieces_trimRelative (ps : List String) :
    realPieces (trimRelative ps) = realPieces ps := by
  fun_induction trimRelative ps with
  | case1 => rfl
  | case2 p h => rw [realPieces_cons_of_staysPut (by simp_all [staysPut])]
  | case3 => rfl
  | case4 p q ps h ih => rw [ih, realPieces_cons_of_staysPut h]
  | case5 => rfl

theorem staysPut_of_mem_takeWhile (h : p ∈ ps.takeWhile (· == "")) : staysPut p = true := by
  obtain rfl : p = "" := by simpa using List.mem_takeWhile_imp h
  rfl

theorem realPieces_stepsOf (path : String) :
    realPieces (FileSystem.stepsOf path) = realPieces (pathPieces path) := by
  rw [FileSystem.stepsOf, realPieces_reverse]
  conv_rhs => rw [← List.reverse_reverse (pathPieces path), realPieces_reverse,
    ← List.takeWhile_append_dropWhile (p := (· == "")) (l := (pathPieces path).reverse)]
  have hslashes : realPieces ((pathPieces path).reverse.takeWhile (· == "")) = [] :=
    realPieces_eq_nil fun p hp => staysPut_of_mem_takeWhile hp
  rw [realPieces_append, hslashes, List.nil_append]

/-! ### The last piece -/

theorem trimPieces_isSuffix (ps : List String) : trimPieces ps <:+ ps := by
  induction ps with
  | nil => exact List.suffix_rfl
  | cons p ps ih =>
    rw [trimPieces]
    split_ifs
    · exact ih.trans (List.suffix_cons p ps)
    · exact List.suffix_rfl

theorem trimRelative_isSuffix (ps : List String) : trimRelative ps <:+ ps := by
  fun_induction trimRelative ps with
  | case1 => exact List.suffix_rfl
  | case2 => exact List.nil_suffix
  | case3 => exact List.suffix_rfl
  | case4 p q ps _ ih => exact ih.trans (List.suffix_cons p _)
  | case5 => exact List.suffix_rfl

theorem trimPieces_append_of_real (hp : ¬ staysPut p = true) {qs : List String}
    (hqs : ∀ q ∈ qs, staysPut q = true) (ps : List String) :
    trimPieces (qs ++ p :: ps) = p :: ps := by
  induction qs with
  | nil => rw [List.nil_append, trimPieces, if_neg hp]
  | cons q qs ih =>
    rw [List.cons_append, trimPieces, if_pos (hqs q List.mem_cons_self),
      ih fun r hr => hqs r (List.mem_cons_of_mem _ hr)]

theorem trimRelative_append_of_real (hp : ¬ staysPut p = true) {qs : List String}
    (hqs : ∀ q ∈ qs, staysPut q = true) (ps : List String) :
    trimRelative (qs ++ p :: ps) = p :: ps := by
  induction qs with
  | nil =>
    cases ps with
    | nil => rw [List.nil_append, trimRelative, if_neg (by simp_all [staysPut])]
    | cons q ps => rw [List.nil_append, trimRelative, if_neg hp]
  | cons q qs ih =>
    obtain ⟨r, rs, hr⟩ : ∃ r rs, qs ++ p :: ps = r :: rs := by cases qs <;> simp
    rw [List.cons_append, hr, trimRelative, if_pos (hqs q List.mem_cons_self), ← hr,
      ih fun r hr => hqs r (List.mem_cons_of_mem _ hr)]

/-- A path that ends in a name: that name, the pieces in front of it and the slashes behind it. -/
theorem exists_pathPieces_of_not_endsInDots (h : Change.endsInDots path = false) :
    ∃ ps p qs, pathPieces path = ps ++ p :: qs ∧ (∀ q ∈ qs, staysPut q = true) ∧
      FileSystem.stepsOf path = ps ++ [p] ∧ ¬ staysPut p = true ∧ p ≠ ".." := by
  have hpieces : pathPieces path = FileSystem.stepsOf path ++
      ((pathPieces path).reverse.takeWhile (· == "")).reverse := by
    rw [FileSystem.stepsOf, ← List.reverse_append, List.takeWhile_append_dropWhile,
      List.reverse_reverse]
  rw [Change.endsInDots] at h
  split at h
  case h_2 => cases h
  case h_1 p hp =>
    obtain ⟨ps, hps⟩ := List.getLast?_eq_some_iff.1 hp
    have hne : p ≠ "" := by
      rintro rfl
      rw [FileSystem.stepsOf, List.getLast?_reverse] at hp
      have := List.head?_dropWhile_not (· == "") (pathPieces path).reverse
      rw [hp] at this
      simp at this
    refine ⟨ps, p, ((pathPieces path).reverse.takeWhile (· == "")).reverse, ?_, ?_, hps, ?_, ?_⟩
    · conv_lhs => rw [hpieces, hps, List.append_assoc, List.singleton_append]
    · exact fun q hq => staysPut_of_mem_takeWhile (List.mem_reverse.1 hq)
    · simp only [Bool.or_eq_false_iff] at h
      simp [staysPut, hne, ne_of_beq_false h.1]
    · simp only [Bool.or_eq_false_iff] at h
      exact ne_of_beq_false h.2

/-! ### The directory of a path -/

theorem realPieces_pathPieces_intercalate (h : ∀ p ∈ ps, '/' ∉ p.toList) :
    realPieces (pathPieces ("/".intercalate ps)) = realPieces ps := by
  by_cases hps : ps = []
  · subst hps
    rfl
  · rw [pathPieces_intercalate hps h]

theorem isPrefix_intercalate_append (sep : List Char) (ps qs : List (List Char)) :
    sep.intercalate ps <+: sep.intercalate (ps ++ qs) := by
  induction ps with
  | nil => simp
  | cons p ps ih =>
    cases ps with
    | nil =>
      cases qs with
      | nil => exact List.prefix_rfl
      | cons q qs =>
        rw [List.cons_append, List.nil_append, List.intercalate_cons_cons,
          List.intercalate_singleton, List.append_assoc]
        exact List.prefix_append p _
    | cons p' ps =>
      rw [List.cons_append, List.cons_append, List.intercalate_cons_cons,
        List.intercalate_cons_cons]
      exact (List.prefix_append_right_inj _).2 ih

variable {qs : List String}

/-- The directory of a path is the path without its last piece, as a text from the top. -/
theorem directoryOf_of_isAbsolute (h : isAbsolute path = true)
    (hpieces : pathPieces path = ps ++ p :: qs) (hqs : ∀ q ∈ qs, staysPut q = true)
    (hp : ¬ staysPut p = true) :
    ∃ ts, directoryOf path = "/" ++ "/".intercalate ts ∧ realPieces ts = realPieces ps ∧
      ∀ t ∈ ts, t ∈ ps := by
  obtain ⟨mid, rfl⟩ : ∃ mid, ps = "" :: mid := by
    rw [pathPieces_of_isAbsolute h] at hpieces
    cases ps with
    | nil =>
      obtain ⟨rfl, -⟩ : "" = p ∧ _ := by simpa using hpieces
      simp [staysPut] at hp
    | cons q mid => exact ⟨mid, by rw [(List.cons.inj hpieces).1]⟩
  have hlast : lastPieces path = p :: mid.reverse := by
    rw [lastPieces, if_pos h, hpieces, List.cons_append, List.tail_cons, List.reverse_append,
      List.reverse_cons, List.append_assoc, List.singleton_append]
    exact trimPieces_append_of_real hp (by simpa using hqs) _
  refine ⟨(trimPieces mid.reverse).reverse, ?_, ?_, ?_⟩
  · rw [directoryOf, parentPath?, hlast]
    simp [h]
  · rw [realPieces_reverse, realPieces_trimPieces, realPieces_reverse, List.reverse_reverse,
      realPieces_cons_of_staysPut rfl]
  · intro t ht
    have := (trimPieces_isSuffix mid.reverse).subset (List.mem_reverse.1 ht)
    exact List.mem_cons_of_mem _ (List.mem_reverse.1 this)

/-- The directory of a relative path is the path without its last piece, or the dot. -/
theorem directoryOf_of_not_isAbsolute (h : ¬ isAbsolute path = true)
    (hpieces : pathPieces path = ps ++ p :: qs) (hqs : ∀ q ∈ qs, staysPut q = true)
    (hp : ¬ staysPut p = true) :
    ∃ ts, directoryOf path =
        (if "/".intercalate ts = "" then "." else "/".intercalate ts) ∧
      realPieces ts = realPieces ps ∧ ts <+: ps := by
  have hlast : lastPieces path = p :: ps.reverse := by
    rw [lastPieces, if_neg h, hpieces, List.reverse_append, List.reverse_cons, List.append_assoc,
      List.singleton_append]
    exact trimRelative_append_of_real hp (by simpa using hqs) _
  refine ⟨(trimRelative ps.reverse).reverse, ?_, ?_, ?_⟩
  · rw [directoryOf, parentPath?, hlast]
    simp [h]
  · rw [realPieces_reverse, realPieces_trimRelative, realPieces_reverse, List.reverse_reverse]
  · rw [← List.reverse_suffix, List.reverse_reverse]
    exact trimRelative_isSuffix ps.reverse

/-- **The directory of a path leads where the pieces in front of the last one lead.** -/
theorem realPieces_pathPieces_directoryOf (hpieces : pathPieces path = ps ++ p :: qs)
    (hqs : ∀ q ∈ qs, staysPut q = true) (hp : ¬ staysPut p = true) :
    realPieces (pathPieces (directoryOf path)) = realPieces ps := by
  have hslash : ∀ t ∈ ps, '/' ∉ t.toList := fun t ht =>
    not_mem_of_mem_pathPieces (hpieces ▸ List.mem_append_left _ ht : t ∈ pathPieces path)
  by_cases h : isAbsolute path = true
  · obtain ⟨ts, hdir, hreal, hmem⟩ := directoryOf_of_isAbsolute h hpieces hqs hp
    rw [hdir, pathPieces_slash_append, realPieces_cons_of_staysPut rfl,
      realPieces_pathPieces_intercalate fun t ht => hslash t (hmem t ht), hreal]
  · obtain ⟨ts, hdir, hreal, hpre⟩ := directoryOf_of_not_isAbsolute h hpieces hqs hp
    have hts := realPieces_pathPieces_intercalate fun t ht => hslash t (hpre.subset ht)
    rw [hdir, ← hreal, ← hts]
    split_ifs with hempty
    · rw [hempty]
      rfl
    · rfl

theorem isAbsolute_directoryOf (hpieces : pathPieces path = ps ++ p :: qs)
    (hqs : ∀ q ∈ qs, staysPut q = true) (hp : ¬ staysPut p = true) :
    isAbsolute (directoryOf path) = isAbsolute path := by
  by_cases h : isAbsolute path = true
  · obtain ⟨ts, hdir, -, -⟩ := directoryOf_of_isAbsolute h hpieces hqs hp
    rw [hdir, h]
    simp [isAbsolute]
  · obtain ⟨ts, hdir, -, rest, rfl⟩ := directoryOf_of_not_isAbsolute h hpieces hqs hp
    rw [hdir]
    split_ifs with hempty
    · simpa [isAbsolute] using h
    · obtain ⟨back, hback⟩ : ("/".intercalate ts).toList <+: path.toList := by
        rw [toList_eq_intercalate path, hpieces, String.toList_intercalate, List.append_assoc,
          List.map_append]
        exact isPrefix_intercalate_append _ _ _
      obtain ⟨c, cs, hc⟩ := List.exists_cons_of_ne_nil (l := ("/".intercalate ts).toList)
        fun hnil => hempty (String.toList_eq_nil_iff.1 hnil)
      rw [isAbsolute, isAbsolute, ← hback, hc]
      rfl

end DocBlocks
