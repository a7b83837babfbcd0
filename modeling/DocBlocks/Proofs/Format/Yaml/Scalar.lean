import DocBlocks.Format.Yaml.Write
import DocBlocks.Proofs.Number.Text

/-!
# What plain scalars read as

Integers and floating-point numbers are read back from the texts that are written for them
(`readScalarInteger?_toString`, `readScalarFloat?_write`). All of these texts can stand without
quotes (`standsPlain_toString`, `standsPlain_write`), and so can what is written so
(`StandsPlain.of_allowsPlain`).
-/

namespace DocBlocks.Yaml

/-! ### Integers -/

theorem isPaddedDigits_toString (i : Int) : isPaddedDigits (toString i).toList = false := by
  rw [isPaddedDigits, takeSign_toString]
  by_cases h : i.natAbs = 0
  · rw [h]
    rfl
  · have hhead := head?_toDigits_ne h
    dsimp only
    split
    · rename_i heq
      rw [heq] at hhead
      simp at hhead
    · rfl

theorem baseOf?_toDigits (n : Nat) : baseOf? (Nat.toDigits 10 n) = none := by
  have hdigit (c : Char) (hc : c ∈ Nat.toDigits 10 n) : c.isDigit = true := isDigit_of_mem_toDigits hc
  unfold baseOf?
  split <;> first | rfl | (rename_i heq; rw [heq] at hdigit; simp at hdigit)

/-- **An integer is read back** if it has at most as many bits as are read. -/
theorem readScalarInteger?_toString {i : Int} (hlow : -2 ^ 127 ≤ i) (hhigh : i < 2 ^ 128) :
    readScalarInteger? (toString i).toList = some i := by
  have hbits : Nat.pow 2 (integerBits - 1) = 2 ^ 127 ∧ Nat.pow 2 integerBits = 2 ^ 128 := by
    decide
  simp only [readScalarInteger?, isPaddedDigits_toString, takeSign_toString, baseOf?_toDigits,
    Bool.false_eq_true, if_false, readDigits?_toDigits, decide_eq_true_eq]
  by_cases h : i < 0
  · rw [if_pos h, if_pos (by omega)]
    exact congrArg some (by omega)
  · rw [if_neg h, if_pos (by omega)]
    exact congrArg some (by omega)

/-! ### Floating-point numbers -/

/-- **A floating-point number is read back**, also one that is not finite. -/
theorem readScalarFloat?_write {x : Binary64} (h : x.Canonical) :
    readScalarFloat? (numberStyle.write x) = some x := by
  cases x with
  | infinite negative => cases negative <;> decide
  | undefined => decide
  | finite negative m e =>
    have hread := numberStyle.readNumber?_write (by decide) h
    obtain ⟨s, hs, -, -, htext⟩ := numberStyle.exists_spelling_write (by decide) h
    obtain ⟨c, cs, hchars, hc⟩ := hs.exists_chars_eq_cons numberStyle.signedExponent
    have hsign : takeSign (numberStyle.write (.finite negative m e)).toList = (negative, c :: cs) := by
      rw [htext, hchars]
      cases negative with
      | false => exact takeSign_of_isDigit hc
      | true => rfl
    -- none of the words for what is not finite has a digit in front
    have hinf : infinityWords.contains (String.ofList (c :: cs)) = false := by
      have hwords : ∀ w ∈ infinityWords, w.toList.head?.any Char.isDigit = false := by decide
      refine Bool.eq_false_iff.2 fun hmem => ?_
      simpa [hc] using hwords _ (List.contains_iff_mem.1 hmem)
    have hnan : undefinedWords.contains (numberStyle.write (.finite negative m e)) = false := by
      have hwords : ∀ w ∈ undefinedWords, (takeSign w.toList).2.head?.any Char.isDigit = false := by
        decide
      refine Bool.eq_false_iff.2 fun hmem => ?_
      simpa [hsign, hc] using hwords _ (List.contains_iff_mem.1 hmem)
    simp only [readScalarFloat?, hsign, hinf, hnan, Bool.false_eq_true, if_false]
    split
    · rename_i heq
      cases heq
      cases hc
    · rename_i heq
      cases heq
      cases hc
    · rw [hread]

/-! ### Characters with their neighbours -/

/-- A property that no character has with its neighbours. -/
theorem anyNext_eq_false {p : Option Char → Char → Option Char → Bool} {before : Option Char}
    {cs : List Char} (h : anyNext p before cs = false) {front back : List Char} {c : Char}
    (hcs : cs = front ++ c :: back) : p (front.getLast?.or before) c back.head? = false := by
  induction front generalizing before cs with
  | nil =>
    subst hcs
    rw [List.nil_append, anyNext, Bool.or_eq_false_iff] at h
    exact h.1
  | cons d front ih =>
    subst hcs
    rw [List.cons_append, anyNext, Bool.or_eq_false_iff] at h
    have := ih h.2 rfl
    cases hlast : front.getLast? <;> simp_all [List.getLast?_cons]

/-- Whether characters can stand in a plain text behind its first character. -/
structure IsPlain (cs : List Char) : Prop where
  inLine : ∀ c ∈ cs, isPrintable c = true ∧ isBreak c = false
  colon : ∀ front back, cs = front ++ ':' :: back → isBlankOrEnd back.head? = false
  comment : ∀ front back, cs ≠ front ++ ' ' :: '#' :: back
  last : cs.getLast? ≠ some ' '

theorem IsPlain.of_append {front cs : List Char} (h : IsPlain (front ++ cs)) : IsPlain cs where
  inLine c hc := h.inLine c (List.mem_append_right _ hc)
  colon front' back hcs := h.colon (front ++ front') back (by rw [hcs, List.append_assoc])
  comment front' back hcs := h.comment (front ++ front') back (by rw [hcs, List.append_assoc])
  last hlast := by
    have hne : cs ≠ [] := by
      rintro rfl
      cases hlast
    exact h.last (by rw [List.getLast?_append_of_ne_nil _ hne, hlast])

/-- Whether characters can stand as a plain text. -/
structure StandsPlain (cs : List Char) : Prop extends IsPlain cs where
  ne_nil : cs ≠ []
  head : ∀ c ∈ cs.head?, c ≠ ' ' ∧ c ∉ openingIndicators
  mark : ∀ c ∈ cs.head?, c = '?' ∨ c = '-' → isBlankOrEnd cs.tail.head? = false
  document : opensDocument cs = false

theorem StandsPlain.of_allowsPlain {cs : List Char} (h : allowsPlain cs = true) (hne : cs ≠ []) :
    StandsPlain cs := by
  simp only [allowsPlain, Bool.and_eq_true, Bool.not_eq_true', List.all_eq_true] at h
  obtain ⟨⟨⟨⟨hline, hhead⟩, hlast⟩, hdocument⟩, hindicator⟩ := h
  have hfirst : ∀ c ∈ cs.head?, openingIndicators.contains c = false ∧
      ((c == '?' || c == '-') && isBlankOrEnd cs.tail.head?) = false := by
    intro c hc
    obtain ⟨tail, rfl⟩ := List.head?_eq_some_iff.1 hc
    have := anyNext_eq_false hindicator (List.nil_append _).symm
    unfold isIndicator at this
    exact Bool.or_eq_false_iff.1 (Bool.or_eq_false_iff.1 this).2
  refine ⟨⟨hline, fun front back hcs => ?_, fun front back hcs => ?_, fun hspace => ?_⟩, hne,
    fun c hc => ⟨?_, fun hmem => ?_⟩, fun c hc hmark => ?_, hdocument⟩
  · have := anyNext_eq_false hindicator hcs
    unfold isIndicator at this
    rw [Bool.or_eq_false_iff, beq_self_eq_true, Bool.true_and] at this
    exact this.1
  · have hcs' : cs = (front ++ [' ']) ++ '#' :: back := by rw [hcs, List.append_assoc]; rfl
    have := anyNext_eq_false hindicator hcs'
    rw [List.getLast?_concat] at this
    cases this
  · rw [hspace] at hlast
    cases hlast
  · rintro rfl
    rw [Option.mem_def.1 hc] at hhead
    cases hhead
  · exact absurd (List.contains_iff_mem.2 hmem) (Bool.eq_false_iff.1 (hfirst c hc).1)
  · have := (hfirst c hc).2
    rcases hmark with rfl | rfl <;> exact this

theorem StandsPlain.head?_ne_space {cs : List Char} (h : StandsPlain cs) : cs.head? ≠ some ' ' :=
  fun hc => (h.head _ hc).1 rfl

theorem StandsPlain.head?_ne_comment {cs : List Char} (h : StandsPlain cs) :
    cs.head? ≠ some '#' :=
  fun hc => (h.head _ hc).2 (by decide)

/-! ### Numbers without quotes -/

theorem openingIndicators_eq : openingIndicators =
    ['#', ',', '[', ']', '\x7b', '\x7d', '&', '*', '!', '|', '>', '\'', '"', '%', '@', '\x60'] := by
  rfl

/-- The decimal digits. -/
def digitChars : List Char := ['0', '1', '2', '3', '4', '5', '6', '7', '8', '9']

/-- What numbers are written with. -/
def numberChars : List Char := digitChars ++ ['.', 'e', '+', '-']

theorem mem_digitChars {c : Char} (h : c.isDigit = true) : c ∈ digitChars := by
  obtain ⟨hlow, hhigh⟩ : 48 ≤ c.toNat ∧ c.toNat ≤ 57 := by
    rw [Char.isDigit, Bool.and_eq_true, decide_eq_true_eq, decide_eq_true_eq] at h
    exact h
  rw [← Char.ofNat_toNat c]
  interval_cases c.toNat <;> decide

/-- Digits with a sign in front and few other characters behind can stand as a plain text. -/
theorem StandsPlain.of_number (negative : Bool) {c : Char} {cs : List Char}
    (hc : c ∈ digitChars) (hcs : ∀ c ∈ cs, c ∈ numberChars) :
    StandsPlain ((if negative then ['-'] else []) ++ c :: cs) := by
  have hmem : ∀ d ∈ (if negative then ['-'] else []) ++ c :: cs, d ∈ numberChars := by
    intro d hd
    rw [List.mem_append, List.mem_cons] at hd
    rcases hd with hd | rfl | hd
    · cases negative with
      | false => cases hd
      | true =>
        rw [List.mem_singleton.1 hd]
        decide
    · exact List.mem_append_left _ hc
    · exact hcs d hd
  have hchars : ∀ d ∈ numberChars, isPrintable d = true ∧ isBreak d = false ∧ d ≠ ' ' ∧ d ≠ ':' ∧
      d ∉ openingIndicators := by
    have hall : (numberChars.all fun d => isPrintable d && !isBreak d && d != ' ' && d != ':' &&
        !openingIndicators.contains d) = true := by
      rw [openingIndicators_eq]
      rfl
    intro d hd
    simpa [and_assoc] using List.all_eq_true.1 hall d hd
  have hdigits : ∀ d ∈ digitChars, isBlankOrEnd (some d) = false ∧ d ≠ '?' ∧ d ≠ '-' ∧ d ≠ '.' := by
    have hall : (digitChars.all fun d => !isBlankOrEnd (some d) && d != '?' && d != '-' &&
        d != '.') = true := by rfl
    intro d hd
    simpa [and_assoc] using List.all_eq_true.1 hall d hd
  obtain ⟨hblank, hquestion, hdash, hdot⟩ := hdigits c hc
  refine ⟨⟨fun d hd => ?_, fun front back h => ?_, fun front back h => ?_, fun h => ?_⟩, by simp,
    fun d hd => ?_, fun d hd h => ?_, ?_⟩
  · exact ⟨(hchars d (hmem d hd)).1, (hchars d (hmem d hd)).2.1⟩
  · exact absurd rfl (hchars ':' (hmem _ (by rw [h]; simp))).2.2.2.1
  · exact absurd rfl (hchars ' ' (hmem _ (by rw [h]; simp))).2.2.1
  · exact absurd rfl (hchars ' ' (hmem _ (List.mem_of_getLast? h))).2.2.1
  · obtain ⟨-, -, hspace, -, hindicator⟩ := hchars d (hmem _ (List.mem_of_mem_head? hd))
    exact ⟨hspace, hindicator⟩
  · cases negative with
    | false =>
      obtain rfl : c = d := Option.some.inj hd
      rcases h with h | h
      · exact absurd h hquestion
      · exact absurd h hdash
    | true => exact hblank
  · cases negative with
    | false => simp [opensDocument, List.isPrefixOf, hdash.symm, hdot.symm]
    | true => simp [opensDocument, List.isPrefixOf, hdash.symm]
theorem standsPlain_toString (i : Int) : StandsPlain (toString i).toList := by
  obtain ⟨c, cs, hd, hdigit⟩ := exists_toDigits_eq_cons i.natAbs
  rw [List.forall_mem_cons] at hdigit
  have h := StandsPlain.of_number (decide (i < 0)) (mem_digitChars hdigit.1) fun d hd =>
    List.mem_append_left _ (mem_digitChars (hdigit.2 d hd))
  rw [toList_toString_int, hd]
  simpa using h

theorem mem_numberChars_of_mem_chars {s : Spelling} (h : s.Regular) (signed : Bool) {c : Char}
    (hc : c ∈ s.chars signed) : c ∈ numberChars := by
  obtain ⟨front, back, exponent⟩ := s
  have hdigit {d : Char} (hd : d.isDigit = true) : d ∈ numberChars :=
    List.mem_append_left _ (mem_digitChars hd)
  simp only [Spelling.chars, List.mem_append] at hc
  rcases hc with (hc | hc) | hc
  · exact hdigit (h.isDigit_front c hc)
  · split at hc
    · cases hc
    · rcases List.mem_cons.1 hc with rfl | hc
      · decide
      · exact hdigit (h.isDigit_back c hc)
  · cases exponent with
    | none => cases hc
    | some e =>
      rw [Option.elim_some, Spelling.exponentChars, List.cons_append, List.mem_cons,
        List.mem_append] at hc
      rcases hc with rfl | hc | hc
      · decide
      · split at hc
        · rw [List.mem_singleton.1 hc]
          decide
        · split at hc
          · rw [List.mem_singleton.1 hc]
            decide
          · cases hc
      · exact hdigit (isDigit_of_mem_toDigits hc)

theorem standsPlain_write {x : Binary64} (h : x.Canonical) :
    StandsPlain (numberStyle.write x).toList := by
  cases x with
  | infinite negative => cases negative <;> exact .of_allowsPlain (by decide) (by decide)
  | undefined => exact .of_allowsPlain (by decide) (by decide)
  | finite negative m e =>
    obtain ⟨s, hs, -, -, htext⟩ := numberStyle.exists_spelling_write (by decide) h
    obtain ⟨c, cs, hchars, hc⟩ := hs.exists_chars_eq_cons numberStyle.signedExponent
    rw [htext, hchars]
    refine .of_number negative (mem_digitChars hc) fun d hd => ?_
    exact mem_numberChars_of_mem_chars hs numberStyle.signedExponent (by rw [hchars]; simp [hd])

end DocBlocks.Yaml
