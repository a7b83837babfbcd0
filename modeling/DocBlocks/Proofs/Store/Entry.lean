import DocBlocks.Store.Entry
import Mathlib.Data.List.Basic
import Mathlib.Logic.Function.Basic

/-!
# What stands at the locations of a tree of entries

`Entry.view` tells what stands at each location: the permissions and the content of a file, the
target of a link, the permissions of a directory. Two trees with the same view hold the same files
with the same content, and each directory of one has the entries that it has in the other.

* `view_changeAt`: changing what a directory holds under one name changes the view there only.
* `view_put`, `view_remove`: putting a file and taking one away, as updates of the view.

None of this asks for the order of the entries: an entry is looked up by its name.
-/

namespace DocBlocks

namespace Entry

variable {root d e : Entry} {dir l : Location} {n : String} {mode : Nat}

/-! ### Names among entries -/

theorem lookup_cons (m k : String) (c : Entry) (es : List (String × Entry)) :
    List.lookup m ((k, c) :: es) = if m = k then some c else es.lookup m := by
  by_cases h : m = k
  · simp [h]
  · rw [List.lookup_cons, beq_false_of_ne h, if_neg h]

theorem lookup_insertEntry (n m : String) (e : Entry) (es : List (String × Entry)) :
    (insertEntry n e es).lookup m = if m = n then some e else es.lookup m := by
  induction es with
  | nil => simp only [insertEntry, lookup_cons, List.lookup_nil]
  | cons entry es ih =>
    obtain ⟨k, c⟩ := entry
    by_cases hlt : n < k
    · simp only [insertEntry, hlt, if_true, lookup_cons]
    · by_cases hk : n = k
      · subst hk
        by_cases h : m = n <;> simp [insertEntry, lookup_cons, h]
      · rw [insertEntry, if_neg hlt, if_neg hk, lookup_cons, ih, lookup_cons]
        by_cases h : m = k
        · subst h
          simp [Ne.symm hk]
        · simp only [h, if_false]

theorem lookup_eraseEntry (n m : String) (es : List (String × Entry)) :
    (eraseEntry n es).lookup m = if m = n then none else es.lookup m := by
  induction es with
  | nil => simp [eraseEntry]
  | cons entry es ih =>
    obtain ⟨k, c⟩ := entry
    rw [eraseEntry] at ih ⊢
    by_cases hk : k = n
    · subst hk
      rw [List.filter_cons_of_neg (by simp), ih]
      by_cases h : m = k <;> simp [lookup_cons, h]
    · rw [List.filter_cons_of_pos (by simp [hk]), lookup_cons, ih, lookup_cons]
      by_cases h : m = k
      · subst h
        simp [hk]
      · simp only [h, if_false]

/-! ### Locations -/

theorem at?_append (e : Entry) (l l' : Location) :
    e.at? (l ++ l') = (e.at? l).bind (·.at? l') := by
  induction l generalizing e with
  | nil => rfl
  | cons n l ih =>
    cases h : e.entries.lookup n with
    | none => simp [at?, h]
    | some c => simp [at?, h, ih]

theorem at?_append_singleton (e : Entry) (l : Location) (n : String) :
    e.at? (l ++ [n]) = (e.at? l).bind fun d => d.entries.lookup n := by
  rw [at?_append]
  congr 1
  funext d
  cases h : d.entries.lookup n <;> simp [at?, h]

/-! ### Views -/

/-- An entry without the entries in it. -/
def bare : Entry → Entry
  | directory m _ => directory m []
  | e => e

/-- What stands at a location, a directory without its entries. -/
def view (root : Entry) (l : Location) : Option Entry := (root.at? l).map bare

theorem view_cons (root : Entry) (n : String) (l : Location) :
    root.view (n :: l) = (root.entries.lookup n).bind (·.view l) := by
  cases h : root.entries.lookup n <;> simp [view, at?, h]

theorem view_append_singleton (root : Entry) (l : Location) (n : String) :
    root.view (l ++ [n]) = ((root.at? l).bind fun d => d.entries.lookup n).map bare := by
  rw [view, at?_append_singleton]

/-- **A file is seen as it is.** -/
theorem view_eq_some_file {content : ByteArray} :
    root.view l = some (file mode content) ↔ root.at? l = some (file mode content) := by
  cases h : root.at? l with
  | none => simp [view, h]
  | some e => cases e <;> simp [view, h, bare]

theorem view_eq_none : root.view l = none ↔ root.at? l = none := by simp [view]

theorem view_eq_some_link {target : String} :
    root.view l = some (link target) ↔ root.at? l = some (link target) := by
  cases h : root.at? l with
  | none => simp [view, h]
  | some e => cases e <;> simp [view, h, bare]

theorem view_eq_some_directory :
    root.view l = some (directory mode []) ↔ ∃ es, root.at? l = some (directory mode es) := by
  cases h : root.at? l with
  | none => simp [view, h]
  | some e => cases e <;> simp [view, h, bare]

/-- Nothing stands below an entry that is no directory. -/
theorem view_of_entries_eq_nil (he : e.entries = []) :
    e.view l = if l = [] then some e.bare else none := by
  cases l with
  | nil => rfl
  | cons n l => simp [view_cons, he]

/-! ### Changing one entry -/

/-- Nothing stands below an entry that is no directory, nor where nothing stands at all. -/
def Leaf (e : Option Entry) : Prop := ∀ c ∈ e, c.entries = []

theorem Leaf.view_bind {e : Option Entry} (h : Leaf e) :
    e.bind (·.view l) = if l = [] then e.map bare else none := by
  cases e with
  | none => simp
  | some c => exact view_of_entries_eq_nil (h c rfl)

theorem leaf_of_view (h : ∀ m, root.view l ≠ some (directory m [])) : Leaf (root.at? l) := by
  intro c hc
  cases c with
  | file _ _ => rfl
  | link _ => rfl
  | directory m es => exact absurd (view_eq_some_directory.2 ⟨es, hc⟩) (h m)

/-- **Changing what a directory holds under one name changes the view there only**, if nothing
stands below that name before and after. -/
theorem view_changeAt {change : String → List (String × Entry) → List (String × Entry)}
    {r : Option Entry}
    (hchange : ∀ es m, (change n es).lookup m = if m = n then r else es.lookup m)
    (hdir : ∃ es, root.at? dir = some (directory mode es)) (hold : Leaf (root.at? (dir ++ [n])))
    (hnew : Leaf r) :
    view (changeAt change (dir ++ [n]) root) =
      Function.update root.view (dir ++ [n]) (r.map bare) := by
  induction dir generalizing root with
  | nil =>
    obtain ⟨es, hes⟩ := hdir
    obtain rfl : root = directory mode es := by simpa [at?] using hes
    have hleaf : Leaf (es.lookup n) := by
      rw [at?_append_singleton] at hold
      exact hold
    funext l
    cases l with
    | nil => simp [view, at?, changeAt, bare]
    | cons m l =>
      rw [List.nil_append, changeAt, view_cons, Entry.entries, hchange]
      by_cases hm : m = n
      · subst hm
        rw [if_pos rfl, hnew.view_bind]
        by_cases hl : l = []
        · simp [hl]
        · rw [Function.update_of_ne (by simp [hl]), view_cons, Entry.entries, hleaf.view_bind]
          simp [hl]
      · rw [if_neg hm, Function.update_of_ne (by simp [hm]), view_cons, Entry.entries]
  | cons k dir ih =>
    obtain ⟨es, hes⟩ := hdir
    rw [at?] at hes
    obtain ⟨c, hc, hes⟩ := Option.bind_eq_some_iff.1 hes
    have hold' : Leaf (c.at? (dir ++ [n])) := by simpa [at?, hc] using hold
    specialize ih ⟨es, hes⟩ hold'
    obtain ⟨m, es', rfl⟩ : ∃ m es', root = directory m es' := by
      cases root with
      | directory m es' => exact ⟨m, es', rfl⟩
      | file _ _ => simp [entries] at hc
      | link _ => simp [entries] at hc
    rw [entries] at hc
    -- the second equation of `changeAt` speaks of a location with two names at least
    have hstep : changeAt change (k :: dir ++ [n]) (directory m es') =
        directory m (insertEntry k (changeAt change (dir ++ [n]) c) es') := by
      cases dir <;> simp [changeAt, hc]
    rw [hstep]
    funext l
    cases l with
    | nil => simp [view, at?, bare]
    | cons j l =>
      rw [view_cons, entries, lookup_insertEntry]
      by_cases hj : j = k
      · subst hj
        simp only [if_true, Option.bind_some, ih]
        by_cases hl : l = dir ++ [n]
        · simp [hl]
        · rw [Function.update_of_ne hl, Function.update_of_ne (by simp [hl]), view_cons, entries,
            hc, Option.bind_some]
      · rw [if_neg hj, Function.update_of_ne (by simp [hj]), view_cons, entries]

/-- **Putting a file into a directory shows it there and changes nothing else.** -/
theorem view_put (hdir : ∃ es, root.at? dir = some (directory mode es))
    (hold : Leaf (root.at? (dir ++ [n]))) (hnew : e.entries = []) :
    view (put e (dir ++ [n]) root) = Function.update root.view (dir ++ [n]) (some e.bare) := by
  rw [put, if_neg (by simp)]
  exact view_changeAt (r := some e) (fun es m => lookup_insertEntry n m e es) hdir hold
    (by simpa [Leaf] using hnew)

/-- **Taking a file away leaves nothing at its place and changes nothing else.** -/
theorem view_remove (hdir : ∃ es, root.at? dir = some (directory mode es))
    (hold : Leaf (root.at? (dir ++ [n]))) :
    view (remove (dir ++ [n]) root) = Function.update root.view (dir ++ [n]) none :=
  view_changeAt (r := none) (fun es m => lookup_eraseEntry n m es) hdir hold (by simp [Leaf])

end Entry

end DocBlocks
