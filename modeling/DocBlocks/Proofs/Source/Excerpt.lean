import DocBlocks.Source.Slice
import Mathlib.Data.List.Basic
import Mathlib.Data.String.Basic

/-!
# Excerpts of a source

`Excerpt source start stop text` says that a text is what stands between two byte offsets of a
source. Excerpts that touch make one excerpt (`Excerpt.append`), and between two offsets that divide
no character there is one excerpt only (`exists_excerpt`, `Excerpt.unique`).
-/

namespace DocBlocks

theorem utf8ByteSize_eq_byteLength (s : String) : s.utf8ByteSize = byteLength s.toList := by
  have h : ∀ cs : List Char, (String.ofList cs).utf8ByteSize = byteLength cs := by
    intro cs
    induction cs with
    | nil => simp [byteLength]
    | cons c cs ih => simp [String.ofList_cons, byteLength, ih]
  simpa using h s.toList

/-! ### Cuts -/

theorem eq_nil_of_byteLength_eq_zero {cs : List Char} (h : byteLength cs = 0) : cs = [] := by
  cases cs with
  | nil => rfl
  | cons c cs =>
    have hpos := c.utf8Size_pos
    simp only [byteLength] at h
    omega

/-- **There is one cut at an offset.** -/
theorem append_inj_of_byteLength_eq {front back front' back' : List Char}
    (h : front ++ back = front' ++ back') (hlen : byteLength front = byteLength front') :
    front = front' ∧ back = back' := by
  have hsplit := splitBytes_byteLength front back
  rw [h, hlen, splitBytes_byteLength] at hsplit
  obtain ⟨hfront, hback⟩ := Prod.mk.inj hsplit
  exact ⟨hfront.symm, hback.symm⟩

/-- Of two cuts the front of the earlier one is part of the front of the later one. -/
theorem exists_append_of_byteLength_le {front back front' back' : List Char}
    (h : front ++ back = front' ++ back') (hle : byteLength front ≤ byteLength front') :
    ∃ between, front' = front ++ between ∧ back = between ++ back' := by
  rcases List.append_eq_append_iff.1 h with ⟨between, hfront, hback⟩ | ⟨between, hfront, hback⟩
  · exact ⟨between, hfront, hback⟩
  · -- the earlier cut is not the later one, unless nothing stands between them
    rw [hfront, byteLength_append] at hle
    obtain rfl := eq_nil_of_byteLength_eq_zero (by omega : byteLength between = 0)
    exact ⟨[], by simpa using hfront.symm, by simpa using hback.symm⟩

/-- Whether an offset divides no character of a source. -/
def OnBoundary (source : String) (offset : Nat) : Prop :=
  ∃ front back : List Char, source.toList = front ++ back ∧ byteLength front = offset

theorem onBoundary_iff {source : String} {offset : Nat} :
    OnBoundary source offset ↔ byteLength (splitBytes offset source.toList).1 = offset := by
  constructor
  · rintro ⟨front, back, hsource, rfl⟩
    rw [hsource, splitBytes_byteLength]
  · intro h
    exact ⟨_, _, (splitBytes_append offset source.toList).symm, h⟩

instance (source : String) (offset : Nat) : Decidable (OnBoundary source offset) :=
  decidable_of_iff _ onBoundary_iff.symm

theorem onBoundary_zero (source : String) : OnBoundary source 0 :=
  ⟨[], source.toList, rfl, rfl⟩

theorem onBoundary_utf8ByteSize (source : String) : OnBoundary source source.utf8ByteSize :=
  ⟨source.toList, [], by simp, (utf8ByteSize_eq_byteLength source).symm⟩

theorem OnBoundary.le {source : String} {offset : Nat} (h : OnBoundary source offset) :
    offset ≤ source.utf8ByteSize := by
  obtain ⟨front, back, hsource, rfl⟩ := h
  rw [utf8ByteSize_eq_byteLength, hsource, byteLength_append]
  exact Nat.le_add_right _ _

/-! ### Excerpts -/

/-- Whether a text stands in a source from one byte offset to another. -/
def Excerpt (source : String) (start stop : Nat) (text : String) : Prop :=
  ∃ before after : List Char, source.toList = before ++ text.toList ++ after ∧
    byteLength before = start ∧ byteLength (before ++ text.toList) = stop

theorem exists_excerpt {source : String} {start stop : Nat} (hstart : OnBoundary source start)
    (hstop : OnBoundary source stop) (hle : start ≤ stop) :
    ∃ text, Excerpt source start stop text := by
  obtain ⟨before, back, hsource, rfl⟩ := hstart
  obtain ⟨front, after, hsource', rfl⟩ := hstop
  obtain ⟨between, rfl, rfl⟩ := exists_append_of_byteLength_le (hsource.symm.trans hsource') hle
  exact ⟨String.ofList between, before, after, by simpa using hsource, rfl, by simp⟩

namespace Excerpt

variable {source text text' : String} {start middle stop : Nat}

theorem le (h : Excerpt source start stop text) : start ≤ stop := by
  obtain ⟨before, after, -, rfl, rfl⟩ := h
  rw [byteLength_append]
  exact Nat.le_add_right _ _

theorem unique (h : Excerpt source start stop text) (h' : Excerpt source start stop text') :
    text = text' := by
  obtain ⟨before, after, hsource, hstart, hstop⟩ := h
  obtain ⟨before', after', hsource', hstart', hstop'⟩ := h'
  obtain ⟨hfront, -⟩ := append_inj_of_byteLength_eq (hsource.symm.trans hsource')
    (hstop.trans hstop'.symm)
  obtain ⟨-, htext⟩ := append_inj_of_byteLength_eq hfront (hstart.trans hstart'.symm)
  exact String.toList_injective htext

/-- An excerpt without characters. -/
theorem empty (h : OnBoundary source start) : Excerpt source start start "" := by
  obtain ⟨front, back, hsource, rfl⟩ := h
  exact ⟨front, back, by simpa using hsource, rfl, by simp⟩

/-- **Excerpts that touch make one excerpt.** -/
theorem append (h : Excerpt source start middle text) (h' : Excerpt source middle stop text') :
    Excerpt source start stop (text ++ text') := by
  obtain ⟨before, after, hsource, rfl, rfl⟩ := h
  obtain ⟨before', after', hsource', hstart', rfl⟩ := h'
  rw [List.append_assoc before'] at hsource'
  obtain ⟨rfl, rfl⟩ := append_inj_of_byteLength_eq (hsource.symm.trans hsource') hstart'.symm
  exact ⟨before, after', by simpa using hsource, rfl, by simp⟩

/-- An excerpt between different offsets has text. -/
theorem ne_empty (h : Excerpt source start stop text) (hlt : start < stop) : text ≠ "" := by
  rintro rfl
  obtain ⟨before, after, -, rfl, rfl⟩ := h
  simp at hlt

theorem eq_source (h : Excerpt source 0 source.utf8ByteSize text) : text = source :=
  h.unique ⟨[], [], by simp, rfl, by simp [utf8ByteSize_eq_byteLength]⟩

end Excerpt

end DocBlocks
