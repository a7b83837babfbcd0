import DocBlocks.Proofs.Text.Bytes
import DocBlocks.Source.Span
import Mathlib.Order.Monotone.Basic

/-!
# Lines of offsets

`LineIndex.lineOf_exact`: the line of a byte offset is one more than the number of line feeds among
the bytes in front of it, at every offset, behind the end of the text too. So lines count from one
and never go down.

An index is searched by halving. What a search has left to look at is between numbers that are too
small and numbers that are too great (`searchBetween_correct`), so either answer of it says how many
of the numbers are not too great (`LineIndex.lineOf_eq_countP`). How many line starts are not behind
an offset is then seen on the bytes, one character at a time (`LineIndex.countP_breaksFrom`).
-/

namespace DocBlocks

/-! ### Searching -/

section Search

variable {xs : Array Nat} {x : Nat}

/-- Whether the answer of a search is right: it stands where it was found, or else all numbers
before the position are smaller and all others greater. -/
def Sought.Correct (xs : Array Nat) (x : Nat) : Sought → Prop
  | found i => ∃ h : i < xs.size, xs[i] = x
  | missing i => i ≤ xs.size ∧ (∀ j, ∀ h : j < xs.size, j < i → xs[j] < x) ∧
      ∀ j, ∀ h : j < xs.size, i ≤ j → x < xs[j]

theorem getElem_lt_getElem (hs : xs.toList.Pairwise (· < ·)) {i j : Nat} (hij : i < j)
    (hj : j < xs.size) : xs[i] < xs[j] := by
  have h := List.pairwise_iff_getElem.1 hs i j (by simpa using hij.trans hj) (by simpa using hj) hij
  simpa using h

/-- **A stretch is searched rightly** if what stands before it is too small and what stands behind
it too great. -/
theorem searchBetween_correct (hs : xs.toList.Pairwise (· < ·)) {low high : Nat}
    (hle : low ≤ high) (h : high ≤ xs.size) (hlow : ∀ j, ∀ hj : j < xs.size, j < low → xs[j] < x)
    (hhigh : ∀ j, ∀ hj : j < xs.size, high ≤ j → x < xs[j]) :
    (searchBetween xs x low high h).Correct xs x := by
  fun_induction searchBetween xs x low high h with
  | case1 low high h hlt middle hmiddle heq => exact ⟨hmiddle, heq⟩
  | case2 low high h hlt middle hmiddle hne hless ih =>
    have hmid : low ≤ middle ∧ middle < high := by omega
    refine ih (by omega) ?_ hhigh
    intro j hj hjm
    -- what stands before the middle is smaller than what stands there
    rcases Nat.lt_or_eq_of_le (Nat.le_of_lt_succ hjm) with hlt' | rfl
    · exact (getElem_lt_getElem hs hlt' hmiddle).trans hless
    · exact hless
  | case3 low high h hlt middle hmiddle hne hless ih =>
    have hmid : low ≤ middle ∧ middle < high := by omega
    have hgreater : x < xs[middle] := by omega
    refine ih hmid.1 hlow ?_
    intro j hj hmj
    rcases Nat.lt_or_eq_of_le hmj with hlt' | rfl
    · exact hgreater.trans (getElem_lt_getElem hs hlt' hj)
    · exact hgreater
  | case4 low high h hnlt =>
    obtain rfl : low = high := by omega
    exact ⟨h, hlow, hhigh⟩

/-- **Searching ascending numbers gives the right answer.** -/
theorem search_correct (hs : xs.toList.Pairwise (· < ·)) : (search xs x).Correct xs x := by
  refine searchBetween_correct hs (Nat.zero_le _) (Nat.le_refl _) ?_ ?_
  · intro j _ hj
    omega
  · intro j hj hle
    omega

/-- How many numbers are not too great, if those that are stand behind all others. -/
theorem countP_le_eq {k : Nat} (hk : k ≤ xs.size) (hfront : ∀ j, ∀ h : j < xs.size, j < k → xs[j] ≤ x)
    (hback : ∀ j, ∀ h : j < xs.size, k ≤ j → x < xs[j]) : xs.toList.countP (· ≤ x) = k := by
  have htake : (xs.toList.take k).countP (· ≤ x) = k := by
    have hall : ∀ y ∈ xs.toList.take k, decide (y ≤ x) = true := by
      intro y hy
      obtain ⟨j, hj, rfl⟩ := List.mem_take_iff_getElem.1 hy
      simp only [Array.length_toList, lt_inf_iff] at hj
      simpa using hfront j hj.2 hj.1
    rw [List.countP_eq_length.2 hall, List.length_take, Array.length_toList]
    omega
  have hdrop : (xs.toList.drop k).countP (· ≤ x) = 0 := by
    rw [List.countP_eq_zero]
    intro y hy
    obtain ⟨j, hj, rfl⟩ := List.mem_drop_iff_getElem.1 hy
    simp only [Array.length_toList] at hj
    simpa using hback (k + j) (by omega) (by omega)
  rw [← List.take_append_drop k xs.toList, List.countP_append, htake, hdrop, Nat.add_zero]

end Search

/-! ### Line feeds among bytes -/

theorem length_bytesOf (cs : List Char) : (bytesOf cs).length = byteLength cs := by
  induction cs with
  | nil => rfl
  | cons c cs ih =>
    rw [bytesOf_cons, List.length_append, String.length_utf8EncodeChar, ih, byteLength]

/-- The byte of a line feed stands in no other character. -/
theorem eq_of_lineFeed_mem {c : Char} (h : 0x0A ∈ String.utf8EncodeChar c) : c = '\n' := by
  have hval : c.val.toNat = 10 := by
    simp only [String.utf8EncodeChar] at h
    split_ifs at h <;>
      simp only [List.mem_cons, List.not_mem_nil, or_false, ← UInt8.toNat_inj, UInt8.toNat_ofNat',
        UInt8.toNat_ofNat] at h <;> omega
  exact Char.ext (UInt32.toNat_inj.1 hval)

/-- A part of the bytes of a character has no line feed, if it is not the whole of one. -/
theorem count_take_utf8EncodeChar {c : Char} {k : Nat} (h : c = '\n' → k = 0) :
    ((String.utf8EncodeChar c).take k).count 0x0A = 0 := by
  rw [List.count_eq_zero]
  intro hmem
  have hc : c = '\n' := eq_of_lineFeed_mem (List.mem_of_mem_take hmem)
  rw [h hc] at hmem
  exact List.not_mem_nil hmem

theorem count_bytesOf (cs : List Char) : (bytesOf cs).count 0x0A = cs.count '\n' := by
  induction cs with
  | nil => rfl
  | cons c cs ih =>
    rw [bytesOf_cons, List.count_append, ih]
    by_cases hc : c = '\n'
    · subst hc
      rw [List.count_cons_self, Nat.add_comm]
      rfl
    · have hnone : (String.utf8EncodeChar c).count 0x0A = 0 :=
        List.count_eq_zero.2 fun h => hc (eq_of_lineFeed_mem h)
      rw [hnone, List.count_cons_of_ne hc, Nat.zero_add]

namespace LineIndex

/-- **The line of an offset is the number of line starts that are not behind it**, whether a line
starts there or not. -/
theorem lineOf_eq_countP (index : LineIndex) (offset : Nat) :
    index.lineOf offset = index.starts.toList.countP (· ≤ offset) := by
  have hcorrect := search_correct (x := offset) index.ascending
  rw [lineOf]
  split
  · next i hfound =>
    rw [hfound] at hcorrect
    obtain ⟨hi, hat⟩ := hcorrect
    symm
    refine countP_le_eq hi ?_ ?_
    · intro j hj hji
      rcases Nat.lt_or_eq_of_le (Nat.le_of_lt_succ hji) with hlt | rfl
      · exact hat ▸ (getElem_lt_getElem index.ascending hlt hi).le
      · exact hat.le
    · intro j hj hij
      exact hat ▸ getElem_lt_getElem index.ascending hij hj
  · next i hmissing =>
    rw [hmissing] at hcorrect
    obtain ⟨hle, hfront, hback⟩ := hcorrect
    exact (countP_le_eq hle (fun j hj hji => (hfront j hj hji).le) hback).symm

/-- The line breaks up to an offset are the line feeds among the bytes in front of it. -/
theorem countP_breaksFrom (offset k : Nat) (cs : List Char) :
    (breaksFrom offset cs).countP (· ≤ k) = ((bytesOf cs).take (k - offset)).count 0x0A := by
  induction cs generalizing offset with
  | nil => simp [breaksFrom, bytesOf]
  | cons c cs ih =>
    have hrest := ih (offset + c.utf8Size)
    rw [bytesOf_cons, List.take_append, List.count_append, String.length_utf8EncodeChar,
      Nat.sub_sub, ← hrest]
    simp only [breaksFrom]
    split
    · next hc =>
      subst hc
      have hsize : '\n'.utf8Size = 1 := rfl
      have hbytes : String.utf8EncodeChar '\n' = [0x0A] := rfl
      rw [List.countP_cons, Nat.add_comm, hsize, hbytes]
      congr 1
      -- the break counts as soon as the offset is behind the byte of the line feed
      by_cases hk : offset + 1 ≤ k
      · obtain ⟨d, hd⟩ : ∃ d, k - offset = d + 1 := ⟨k - offset - 1, by omega⟩
        rw [hd, if_pos (by simpa using hk), List.take_succ_cons, List.take_nil,
          List.count_singleton_self]
      · have hzero : k - offset = 0 := by omega
        rw [hzero, if_neg (by simpa using hk)]
        rfl
    · next hc => rw [count_take_utf8EncodeChar fun h => absurd h hc, Nat.zero_add]

theorem lineOf_ofText_eq (text : String) (offset : Nat) :
    (ofText text).lineOf offset = 1 + ((bytesOf text.toList).take offset).count 0x0A := by
  have hbreaks := countP_breaksFrom 0 offset text.toList
  rw [Nat.sub_zero] at hbreaks
  rw [lineOf_eq_countP, ofText, ofChars, List.countP_cons, hbreaks, Nat.add_comm]
  simp

/-- **The line of a byte is one more than the line feeds in front of its character.** -/
theorem lineOf_ofText {source : String} {k : Nat} {front rest : List Char}
    (h : source.toList = front ++ rest) (hfront : byteLength front ≤ k)
    (hrest : ∀ c ∈ rest.head?, k < byteLength front + c.utf8Size) :
    (ofText source).lineOf k = 1 + front.count '\n' := by
  have hall : (bytesOf front).take k = bytesOf front :=
    List.take_of_length_le (by rwa [length_bytesOf])
  have hnone : ((bytesOf rest).take (k - byteLength front)).count 0x0A = 0 := by
    cases rest with
    | nil => simp [bytesOf]
    | cons c rest =>
      have hk : k < byteLength front + c.utf8Size := hrest c rfl
      have hinside : k - byteLength front - c.utf8Size = 0 := by omega
      rw [bytesOf_cons, List.take_append, String.length_utf8EncodeChar, hinside, List.take_zero,
        List.append_nil]
      refine count_take_utf8EncodeChar ?_
      rintro rfl
      have hsize : '\n'.utf8Size = 1 := rfl
      omega
  rw [lineOf_ofText_eq, h, bytesOf_append, List.take_append, List.count_append, hall, count_bytesOf,
    length_bytesOf, hnone, Nat.add_zero]

/-- The span of a piece of a text, lines included. -/
theorem span_ofText {source : String} {before text after : List Char}
    (h : source.toList = before ++ text ++ after) :
    (ofText source).span (byteLength before) (byteLength (before ++ text)) =
      ⟨byteLength before, byteLength (before ++ text), 1 + before.count '\n',
        1 + (before ++ text.dropLast).count '\n'⟩ := by
  have hstart : (ofText source).lineOf (byteLength before) = 1 + before.count '\n' := by
    refine lineOf_ofText (by rw [h, List.append_assoc]) (Nat.le_refl _) fun c _ => ?_
    have := c.utf8Size_pos
    omega
  simp only [span, hstart, Span.mk.injEq, true_and]
  -- an empty text ends where it starts; any other one with the bytes of its last character
  rcases List.eq_nil_or_concat text with rfl | ⟨init, last, rfl⟩
  · simp
  · have hlast := last.utf8Size_pos
    have hlen : byteLength (before ++ (init ++ [last])) =
        byteLength (before ++ init) + last.utf8Size := by
      simp [byteLength_append, byteLength, Nat.add_assoc]
    have hle : byteLength before ≤ byteLength (before ++ init) := by
      rw [byteLength_append]
      exact Nat.le_add_right _ _
    have hsource : source.toList = (before ++ init) ++ last :: after := by simp [h]
    rw [List.concat_eq_append, hlen, if_pos (by omega), List.dropLast_concat]
    refine lineOf_ofText hsource (by omega) fun c hc => ?_
    obtain rfl := Option.some.inj hc
    omega

/-- **Lines are exact at every offset.** The line of an offset is one more than the number of line
feeds among the bytes of the text in front of it. It is at least one, and an offset further back is
on no earlier line. -/
theorem lineOf_exact (text : String) :
    (∀ offset, (ofText text).lineOf offset =
      1 + (text.toUTF8.data.toList.take offset).count 0x0A) ∧
      (∀ offset, 1 ≤ (ofText text).lineOf offset) ∧ Monotone (ofText text).lineOf := by
  have hbytes : text.toUTF8.data.toList = bytesOf text.toList := by
    rw [toUTF8_eq_bytesOf, List.data_toByteArray]
  refine ⟨fun offset => ?_, fun offset => ?_, fun k k' hle => ?_⟩
  · rw [hbytes, lineOf_ofText_eq]
  · rw [lineOf_ofText_eq]
    exact Nat.le_add_right _ _
  · rw [lineOf_ofText_eq, lineOf_ofText_eq]
    have hfront : (bytesOf text.toList).take k <+: (bytesOf text.toList).take k' :=
      List.take_prefix_take_left hle
    exact Nat.add_le_add_left (hfront.sublist.count_le _) 1

/-- A line feed is on the line that it ends, and the bytes of one character are on one line. -/
example : [0, 1, 2, 3, 4, 5, 99].map (ofText "a\n\u00e9\n").lineOf = [1, 1, 2, 2, 2, 3, 3] := by
  decide +kernel

end LineIndex

end DocBlocks
