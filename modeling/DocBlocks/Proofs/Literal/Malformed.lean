import DocBlocks.Proofs.Literal.Quoted

/-!
# Double-quoted literals without well-formed escapes

`decodeDoubleQuoted?_malformed`: the inside of a double-quoted literal in which no backslash begins
a well-formed escape stands for some text, and it stands for itself exactly if no brace in it is
misread. Two kinds of braces are. One that `\u` opens and that is never closed is read as if it were
closed at the end. And a number with a plus sign in front of it is read as that number, unless the
braces around it stand in the braces of an escape before them, which are passed over as a whole.

The reader goes from backslash to backslash. `readsMalformed_escapeAt` says all that it can do at a
backslash that begins no well-formed escape, and what carries the induction is that being free of
misread braces (`KeepsBraces`) is handed on to what stands behind.
-/

namespace DocBlocks

/-! ### Digits read back -/

theorem exists_hasDigit_of_isHexDigit {c : Char} (h : isHexDigit c = true) :
    ∃ d, HasDigit 16 c d := by
  have hcode : 48 ≤ c.toNat ∧ c.toNat ≤ 57 ∨ 97 ≤ c.toNat ∧ c.toNat ≤ 102 ∨
      65 ≤ c.toNat ∧ c.toNat ≤ 70 := by
    simp only [isHexDigit, Char.isDigit, Bool.or_eq_true, Bool.and_eq_true, decide_eq_true_eq,
      Char.le_def, UInt32.le_iff_toNat_le, ge_iff_le, Char.toNat_val] at h
    have h0 : '0'.toNat = 48 := rfl
    have h9 : '9'.toNat = 57 := rfl
    have ha : 'a'.toNat = 97 := rfl
    have hf : 'f'.toNat = 102 := rfl
    have hA : 'A'.toNat = 65 := rfl
    have hF : 'F'.toNat = 70 := rfl
    omega
  have hall : ∀ n < 103, 48 ≤ n ∧ n ≤ 57 ∨ 97 ≤ n ∧ n ≤ 102 ∨ 65 ≤ n ∧ n ≤ 70 →
      ∃ d < 16, Char.ofNat n = Nat.digitChar d ∨ Char.ofNat n = (Nat.digitChar d).toUpper := by
    decide
  obtain ⟨d, hd, hc⟩ := hall c.toNat (by omega) hcode
  rw [Char.ofNat_toNat] at hc
  exact ⟨d, hd, hc⟩

theorem exists_hasDigit_of_isOctalDigit {c : Char} (h : isOctalDigit c = true) :
    ∃ d, HasDigit 8 c d := by
  have hcode : 48 ≤ c.toNat ∧ c.toNat ≤ 55 := by
    simp only [isOctalDigit, Bool.and_eq_true, decide_eq_true_eq, Char.le_def,
      UInt32.le_iff_toNat_le, Char.toNat_val] at h
    have h0 : '0'.toNat = 48 := rfl
    have h7 : '7'.toNat = 55 := rfl
    omega
  have hall : ∀ n < 56, 48 ≤ n → ∃ d < 8, Char.ofNat n = Nat.digitChar d := by decide
  obtain ⟨d, hd, hc⟩ := hall c.toNat (by omega) hcode.1
  rw [Char.ofNat_toNat] at hc
  exact ⟨d, hd, .inl hc⟩

theorem hasDigit_of_anyDigitValue? {c : Char} {d : Nat} (h : anyDigitValue? 16 c = some d) :
    HasDigit 16 c d := by
  have hdigit : isHexDigit c = true := by
    rw [isHexDigit]
    by_contra hnone
    simp only [Bool.not_eq_true, Bool.or_eq_false_iff] at hnone
    simp [anyDigitValue?, hnone] at h
  -- a character has no other digit than the one that is read
  obtain ⟨e, he⟩ := exists_hasDigit_of_isHexDigit hdigit
  rw [he.anyDigitValue?_eq (Nat.le_refl _)] at h
  obtain rfl := Option.some.inj h
  exact he

/-- What is read as a number in hexadecimal digits is a run of such digits. -/
theorem exists_hasDigit_of_readDigits? {cs : List Char} {n : Nat} (h : readDigits? 16 cs = some n) :
    cs ≠ [] ∧ ∃ ds, List.Forall₂ (HasDigit 16) cs ds ∧ Nat.ofDigits 16 ds.reverse = n := by
  have hne : cs ≠ [] := by
    rintro rfl
    cases h
  have hdigits : ∀ (cs : List Char) (m n : Nat),
      cs.foldlM (fun n c => (anyDigitValue? 16 c).map fun d => 16 * n + d) m = some n →
        ∃ ds, List.Forall₂ (HasDigit 16) cs ds := by
    intro cs
    induction cs with
    | nil => exact fun _ _ _ => ⟨[], .nil⟩
    | cons c cs ih =>
      intro m n hfold
      rw [List.foldlM_cons] at hfold
      obtain ⟨k, hk, hfold⟩ := Option.bind_eq_some_iff.1 hfold
      obtain ⟨d, hd, -⟩ := Option.map_eq_some_iff.1 hk
      obtain ⟨ds, hds⟩ := ih k n hfold
      exact ⟨d :: ds, .cons (hasDigit_of_anyDigitValue? hd) hds⟩
  have hfold := h
  rw [readDigits?, if_neg (by simpa using hne)] at hfold
  obtain ⟨ds, hds⟩ := hdigits cs 0 n hfold
  refine ⟨hne, ds, hds, ?_⟩
  rw [readDigits?_of_hasDigit (Nat.le_refl _) hds hne] at h
  exact Option.some.inj h

/-! ### Escapes and braces -/

/-- Whether a backslash in front of a text begins a well-formed escape. -/
inductive BeginsEscape : List Char → Prop
  | letter {l c : Char} {rest : List Char} (mem : (l, c) ∈ escapeLetters) : BeginsEscape (l :: rest)
  | hexadecimal {c : Char} {d : Nat} {rest : List Char} (digit : HasDigit 16 c d) :
      BeginsEscape ('x' :: c :: rest)
  | octal {c : Char} {d : Nat} {rest : List Char} (digit : HasDigit 8 c d) : BeginsEscape (c :: rest)
  | scalar {cs : List Char} {ds : List Nat} {c : Char} {rest : List Char}
      (digits : List.Forall₂ (HasDigit 16) cs ds) (nonempty : cs ≠ [])
      (number : Nat.ofDigits 16 ds.reverse = c.toNat) :
      BeginsEscape ('u' :: '{' :: (cs ++ '}' :: rest))

/-- Whether no backslash in a text begins a well-formed escape. -/
def HoldsNoEscape (cs : List Char) : Prop :=
  ∀ rest, '\\' :: rest <:+ cs → ¬ BeginsEscape rest

/-- Whether every brace that stands behind a backslash and the letter `u` is closed. -/
def BracesClosed (cs : List Char) : Prop :=
  ∀ rest, '\\' :: 'u' :: '{' :: rest <:+ cs → '}' ∈ rest

/-- Whether a backslash in front of a text would begin a well-formed escape for a character but for
a plus sign in front of the number. -/
def BeginsSigned (cs : List Char) : Prop :=
  ∃ rest, cs = 'u' :: '{' :: '+' :: rest ∧ BeginsEscape ('u' :: '{' :: rest)

/-- Whether a text has such a number with a sign in it outside the braces of other escapes: all that
were opened in front of it are closed there. -/
def ReadsSigned (cs : List Char) : Prop :=
  ∃ front rest, cs = front ++ '\\' :: rest ∧ BracesClosed front ∧ BeginsSigned rest

/-- Whether no brace in a text is misread. -/
structure KeepsBraces (cs : List Char) : Prop where
  closed : BracesClosed cs
  unsigned : ¬ ReadsSigned cs

theorem HoldsNoEscape.of_suffix {cs rest : List Char} (h : HoldsNoEscape cs) (hrest : rest <:+ cs) :
    HoldsNoEscape rest :=
  fun t ht => h t (ht.trans hrest)

theorem HoldsNoEscape.cons {c : Char} {cs : List Char} (h : HoldsNoEscape cs)
    (hc : c = '\\' → ¬ BeginsEscape cs) : HoldsNoEscape (c :: cs) := by
  intro rest hrest
  rcases List.suffix_cons_iff.1 hrest with heq | hrest
  · obtain ⟨rfl, rfl⟩ := List.cons.inj heq
    exact hc rfl
  · exact h rest hrest

theorem HoldsNoEscape.of_not_mem {cs : List Char} (h : '\\' ∉ cs) : HoldsNoEscape cs :=
  fun _ hrest => absurd (hrest.subset (List.mem_cons_self ..)) h

theorem BracesClosed.of_suffix {cs rest : List Char} (h : BracesClosed cs) (hrest : rest <:+ cs) :
    BracesClosed rest :=
  fun t ht => h t (ht.trans hrest)

theorem bracesClosed_nil : BracesClosed [] := by
  intro rest h
  simpa using h.length_le

theorem KeepsBraces.nil : KeepsBraces [] := by
  refine ⟨bracesClosed_nil, ?_⟩
  rintro ⟨front, rest, hsplit, -⟩
  simp at hsplit

/-- What does not open braces says nothing about them. -/
theorem bracesClosed_cons {c : Char} {cs : List Char} (h : ∀ t, c :: cs ≠ '\\' :: 'u' :: '{' :: t) :
    BracesClosed (c :: cs) ↔ BracesClosed cs := by
  refine ⟨fun hclosed => hclosed.of_suffix (List.suffix_cons _ _), fun hclosed rest hrest => ?_⟩
  rcases List.suffix_cons_iff.1 hrest with heq | hrest
  · exact absurd heq.symm (h rest)
  · exact hclosed rest hrest

theorem keepsBraces_cons {c : Char} {cs : List Char} (h : ∀ t, c :: cs ≠ '\\' :: 'u' :: '{' :: t) :
    KeepsBraces (c :: cs) ↔ KeepsBraces cs := by
  have hfront : ∀ front rest, cs = front ++ rest →
      (BracesClosed (c :: front) ↔ BracesClosed front) := by
    rintro front rest rfl
    refine bracesClosed_cons fun t ht => h (t ++ rest) ?_
    rw [← List.cons_append, ht, List.cons_append, List.cons_append, List.cons_append]
  have hsigned : ReadsSigned (c :: cs) ↔ ReadsSigned cs := by
    constructor
    · rintro ⟨_ | ⟨c', front⟩, rest, hsplit, hclosed, hbegins⟩
      · -- a signed number opens braces
        obtain ⟨rest', rfl, -⟩ := hbegins
        exact absurd hsplit (h _)
      · obtain ⟨rfl, hrest⟩ := List.cons.inj (hsplit.trans List.cons_append)
        exact ⟨front, rest, hrest, (hfront _ _ hrest).1 hclosed, hbegins⟩
    · rintro ⟨front, rest, hsplit, hclosed, hbegins⟩
      exact ⟨c :: front, rest, by rw [hsplit, List.cons_append], (hfront _ _ hsplit).2 hclosed, hbegins⟩
  constructor
  · exact fun hkeeps => ⟨(bracesClosed_cons h).1 hkeeps.closed, mt hsigned.2 hkeeps.unsigned⟩
  · exact fun hkeeps => ⟨(bracesClosed_cons h).2 hkeeps.closed, mt hsigned.1 hkeeps.unsigned⟩

theorem keepsBraces_cons_of_ne {c : Char} (h : c ≠ '\\') (cs : List Char) :
    KeepsBraces (c :: cs) ↔ KeepsBraces cs :=
  keepsBraces_cons fun _ ht => h (List.cons.inj ht).1

/-! ### Braces behind an escape -/

/-- What begins with a backslash at or behind an escape with closed braces stands behind the closing
brace, or has it in it. -/
theorem suffix_or_exists_append {inside t rest : List Char}
    (h : '\\' :: t <:+ '\\' :: 'u' :: '{' :: (inside ++ '}' :: rest)) :
    '\\' :: t <:+ rest ∨ ∃ front, '\\' :: t = front ++ '}' :: rest := by
  have hbrace : '}' :: rest <:+ '\\' :: 'u' :: '{' :: (inside ++ '}' :: rest) :=
    ⟨'\\' :: 'u' :: '{' :: inside, by simp⟩
  rcases List.suffix_or_suffix_of_suffix h hbrace with hsuffix | ⟨front, hfront⟩
  · rcases List.suffix_cons_iff.1 hsuffix with heq | hsuffix
    · cases heq
    · exact .inl hsuffix
  · exact .inr ⟨front, hfront.symm⟩

theorem bracesClosed_braces {inside rest : List Char} :
    BracesClosed ('\\' :: 'u' :: '{' :: (inside ++ '}' :: rest)) ↔ BracesClosed rest := by
  constructor
  · exact fun h => h.of_suffix ⟨'\\' :: 'u' :: '{' :: (inside ++ ['}']), by simp⟩
  · intro h t ht
    rcases suffix_or_exists_append ht with ht | ⟨front, heq⟩
    · exact h t ht
    · -- what opens in front of the closing brace is closed by it
      have hmem : '}' ∈ '\\' :: 'u' :: '{' :: t := by simp [heq]
      simpa using hmem

theorem not_bracesClosed_open {inside : List Char} (h : '}' ∉ inside) :
    ¬ BracesClosed ('\\' :: 'u' :: '{' :: inside) :=
  fun hclosed => h (hclosed inside (List.suffix_refl _))

theorem readsSigned_braces {inside rest : List Char} (hinside : '}' ∉ inside) :
    ReadsSigned ('\\' :: 'u' :: '{' :: (inside ++ '}' :: rest)) ↔
      BeginsSigned ('u' :: '{' :: (inside ++ '}' :: rest)) ∨ ReadsSigned rest := by
  constructor
  · rintro ⟨front, t, hsplit, hclosed, hbegins⟩
    rcases suffix_or_exists_append ⟨front, hsplit.symm⟩ with ⟨front', rfl⟩ | ⟨middle, hmiddle⟩
    · -- the number stands behind the braces
      have hwhole : front ++ '\\' :: t =
          ('\\' :: 'u' :: '{' :: (inside ++ '}' :: front')) ++ '\\' :: t := by
        rw [← hsplit]
        simp
      have hfront := List.append_cancel_right hwhole
      rw [hfront, bracesClosed_braces] at hclosed
      exact .inr ⟨front', t, rfl, hclosed, hbegins⟩
    · have hwhole : (front ++ middle) ++ '}' :: rest =
          ('\\' :: 'u' :: '{' :: inside) ++ '}' :: rest := by
        rw [List.append_assoc, ← hmiddle, ← hsplit]
        simp
      have hopen := List.append_cancel_right hwhole
      cases middle with
      | nil => cases hmiddle
      | cons c middle =>
        obtain rfl : '\\' = c := (List.cons.inj hmiddle).1
        -- the number stands at the front, or between the braces, which are open there
        rcases front with _ | ⟨c₁, _ | ⟨c₂, _ | ⟨c₃, front⟩⟩⟩
        · exact .inl ((List.cons.inj hsplit).2 ▸ hbegins)
        · simp at hopen
        · simp at hopen
        · simp only [List.cons_append, List.cons.injEq] at hopen
          obtain ⟨rfl, rfl, rfl, rfl⟩ := hopen
          have hfront : '}' ∉ front := fun h => hinside (List.mem_append_left _ h)
          exact absurd hclosed (not_bracesClosed_open hfront)
  · rintro (hbegins | ⟨front, t, rfl, hclosed, hbegins⟩)
    · exact ⟨[], _, rfl, bracesClosed_nil, hbegins⟩
    · exact ⟨'\\' :: 'u' :: '{' :: (inside ++ '}' :: front), t, by simp,
        bracesClosed_braces.2 hclosed, hbegins⟩

/-- **An escape in braces without a signed number is passed over as a whole.** -/
theorem keepsBraces_braces {inside rest : List Char} (hinside : '}' ∉ inside) :
    KeepsBraces ('\\' :: 'u' :: '{' :: (inside ++ '}' :: rest)) ↔
      ¬ BeginsSigned ('u' :: '{' :: (inside ++ '}' :: rest)) ∧ KeepsBraces rest := by
  constructor
  · rintro ⟨hclosed, hunsigned⟩
    rw [readsSigned_braces hinside, not_or] at hunsigned
    exact ⟨hunsigned.1, bracesClosed_braces.1 hclosed, hunsigned.2⟩
  · rintro ⟨hbegins, hclosed, hunsigned⟩
    refine ⟨bracesClosed_braces.2 hclosed, ?_⟩
    rw [readsSigned_braces hinside, not_or]
    exact ⟨hbegins, hunsigned⟩

/-! ### What is read at a backslash -/

theorem HasDigit.ne_u {c : Char} {d : Nat} (h : HasDigit 8 c d) : c ≠ 'u' :=
  h.elim (P := fun c _ => c ≠ 'u') (by decide)

/-- The escapes with the letter `u` are those with a number in braces. -/
theorem BeginsEscape.exists_braces {cs : List Char} (h : BeginsEscape ('u' :: cs)) :
    ∃ digits ds c rest, cs = '{' :: (digits ++ '}' :: rest) ∧ digits ≠ [] ∧
      List.Forall₂ (HasDigit 16) digits ds ∧ Nat.ofDigits 16 ds.reverse = Char.toNat c := by
  generalize htext : 'u' :: cs = text at h
  cases h with
  | letter mem =>
    obtain ⟨rfl, -⟩ := List.cons.inj htext
    simp [escapeLetters] at mem
  | hexadecimal digit => cases htext
  | octal digit => exact absurd (List.cons.inj htext).1.symm digit.ne_u
  | scalar digits nonempty number =>
    exact ⟨_, _, _, _, (List.cons.inj htext).2, nonempty, digits, number⟩

/-- Braces with something else than a digit at their front are no escape. -/
theorem not_beginsEscape_braces {c : Char} {cs : List Char} (hc : isHexDigit c = false) :
    ¬ BeginsEscape ('u' :: '{' :: c :: cs) := by
  intro h
  obtain ⟨digits, ds, scalar, rest, htail, hne, hds, -⟩ := h.exists_braces
  cases hds with
  | nil => exact hne rfl
  | cons hdigit =>
    obtain rfl := (List.cons.inj (List.cons.inj htail).2).1
    exact Bool.false_ne_true
      (hc.symm.trans (hdigit.elim (P := fun c _ => isHexDigit c = true) (by decide)))

/-- The number that braces are read as: hexadecimal digits, with a plus sign in front of them or
without. -/
theorem scalarOfHex?_eq_some {inside : List Char} {c : Char} (h : scalarOfHex? inside = some c) :
    ∃ digits ds, (inside = digits ∨ inside = '+' :: digits) ∧ digits ≠ [] ∧
      List.Forall₂ (HasDigit 16) digits ds ∧ Nat.ofDigits 16 ds.reverse = c.toNat := by
  unfold scalarOfHex? at h
  obtain ⟨n, hn, hc⟩ := Option.bind_eq_some_iff.1 h
  obtain ⟨hne, ds, hds, rfl⟩ := exists_hasDigit_of_readDigits? hn
  rw [Option.ite_none_right_eq_some, Option.some.injEq] at hc
  obtain ⟨hvalid, rfl⟩ := hc
  -- a sign is taken off before the digits are read
  refine ⟨_, ds, ?_, hne, hds, ?_⟩
  · split
    · exact .inr rfl
    · exact .inl rfl
  · rw [Char.toNat_ofNat, if_pos hvalid]

theorem scalarOfHex?_plus {digits : List Char} {ds : List Nat} {c : Char}
    (h : List.Forall₂ (HasDigit 16) digits ds) (hne : digits ≠ [])
    (hnumber : Nat.ofDigits 16 ds.reverse = c.toNat) : scalarOfHex? ('+' :: digits) = some c := by
  have hvalid : c.toNat.isValidChar := c.valid
  rw [scalarOfHex?]
  simp only [readDigits?_of_hasDigit (Nat.le_refl _) h hne, hnumber, Option.bind_some, if_pos hvalid,
    Char.ofNat_toNat]

/-- **Braces that are no escape are read as a number exactly if a sign stands in front of one.** -/
theorem beginsSigned_braces {inside rest : List Char} (hinside : '}' ∉ inside)
    (h : ¬ BeginsEscape ('u' :: '{' :: (inside ++ '}' :: rest))) :
    BeginsSigned ('u' :: '{' :: (inside ++ '}' :: rest)) ↔ scalarOfHex? inside ≠ none := by
  constructor
  · rintro ⟨t, ht, hbegins⟩
    obtain ⟨digits, ds, c, rest', htail, hne, hds, hnumber⟩ := hbegins.exists_braces
    obtain rfl : t = digits ++ '}' :: rest' := (List.cons.inj htail).2
    have hsplit : inside ++ '}' :: rest = ('+' :: digits) ++ '}' :: rest' := by
      simpa using ht
    have hplus : '}' ∉ '+' :: digits :=
      List.not_mem_cons_of_ne_of_not_mem (by decide) (brace_not_mem_of_hasDigit hds)
    -- both end at the first closing brace
    have hfirst := congrArg (List.takeWhile (· != '}')) hsplit
    rw [takeWhile_until hinside, takeWhile_until hplus] at hfirst
    subst hfirst
    simp [scalarOfHex?_plus hds hne hnumber]
  · intro hread
    obtain ⟨c, hc⟩ := Option.ne_none_iff_exists'.1 hread
    obtain ⟨digits, ds, rfl | rfl, hne, hds, hnumber⟩ := scalarOfHex?_eq_some hc
    · exact absurd (.scalar hds hne hnumber) h
    · exact ⟨digits ++ '}' :: rest, rfl, .scalar hds hne hnumber⟩

theorem scalarEscape_open {inside : List Char} (h : '}' ∉ inside) :
    scalarEscape ('{' :: inside) =
      ((scalarOfHex? inside).elim (bytesOf ('\\' :: 'u' :: '{' :: (inside ++ ['}'])))
        fun c => bytesOf [c], []) := by
  have htake : inside.takeWhile (· != '}') = inside :=
    List.takeWhile_eq_self_iff.2 (forall_bne_of_not_mem h)
  rw [scalarEscape]
  simp only [htake, List.drop_of_length_le (Nat.le_succ _)]
  cases scalarOfHex? inside <;> rfl

theorem hexEscape_of_not_beginsEscape {cs : List Char} (h : ¬ BeginsEscape ('x' :: cs)) :
    hexEscape cs = (bytesOf ['\\', 'x'], cs) := by
  have htake : takeEscapeDigits isHexDigit 2 cs = ([], cs) := by
    cases cs with
    | nil => rfl
    | cons c cs =>
      have hdigit : isHexDigit c = false := by
        by_contra hdigit
        obtain ⟨d, hd⟩ := exists_hasDigit_of_isHexDigit (Bool.not_eq_false _ ▸ hdigit)
        exact h (.hexadecimal hd)
      simp [takeEscapeDigits, hdigit]
  rw [hexEscape, htake]
  rfl

theorem plainEscape?_of_not_beginsEscape {c : Char} {cs : List Char}
    (h : ¬ BeginsEscape (c :: cs)) : plainEscape? c = none := by
  by_contra hplain
  have hmem : c ∈ escapeLetters.map Prod.fst := by
    unfold plainEscape? at hplain
    split at hplain
    all_goals first | exact absurd rfl hplain | decide
  obtain ⟨⟨l, d⟩, hd, rfl⟩ := List.mem_map.1 hmem
  exact h (.letter hd)

/-- What a backslash that begins no well-formed escape is read as. -/
inductive ReadsMalformed : List Char → List UInt8 → List Char → Prop
  /-- Itself, with the letter behind it or without. -/
  | kept (front : List Char) {rest : List Char} (letter : front ∈ [[], ['x'], ['u']])
      (unopened : ∀ t, front ++ rest ≠ 'u' :: '{' :: t) :
      ReadsMalformed (front ++ rest) (bytesOf ('\\' :: front)) rest
  | braces {inside rest : List Char} (notMem : '}' ∉ inside) :
      ReadsMalformed ('u' :: '{' :: (inside ++ '}' :: rest))
        ((scalarOfHex? inside).elim (bytesOf ('\\' :: 'u' :: '{' :: (inside ++ ['}'])))
          fun c => bytesOf [c]) rest
  | opened {inside : List Char} (notMem : '}' ∉ inside) :
      ReadsMalformed ('u' :: '{' :: inside)
        ((scalarOfHex? inside).elim (bytesOf ('\\' :: 'u' :: '{' :: (inside ++ ['}'])))
          fun c => bytesOf [c]) []

theorem readsMalformed_scalarEscape (cs : List Char) :
    ReadsMalformed ('u' :: cs) (scalarEscape cs).1 (scalarEscape cs).2 := by
  by_cases hopen : ∃ t, cs = '{' :: t
  · obtain ⟨t, rfl⟩ := hopen
    by_cases hclosed : '}' ∈ t
    · obtain ⟨inside, rest, rfl, hinside⟩ := List.eq_append_cons_of_mem hclosed
      rw [scalarEscape_closed hinside]
      exact .braces hinside
    · rw [scalarEscape_open hclosed]
      exact .opened hclosed
  · have hescape : scalarEscape cs = (bytesOf ['\\', 'u'], cs) := by
      unfold scalarEscape
      split
      · exact absurd ⟨_, rfl⟩ hopen
      · rfl
    rw [hescape]
    exact .kept ['u'] (by simp) fun t ht => hopen ⟨t, (List.cons.inj ht).2⟩

/-- **All that is done at a backslash that begins no well-formed escape.** -/
theorem readsMalformed_escapeAt {cs : List Char} (h : ¬ BeginsEscape cs) :
    ReadsMalformed cs (escapeAt cs).1 (escapeAt cs).2 := by
  cases cs with
  | nil => exact .kept [] (by simp) (by simp)
  | cons c cs =>
    have hplain := plainEscape?_of_not_beginsEscape h
    by_cases hx : c = 'x'
    · subst hx
      rw [escapeAt_hexadecimal, hexEscape_of_not_beginsEscape h]
      exact .kept ['x'] (by simp) (by simp)
    by_cases hu : c = 'u'
    · subst hu
      rw [escapeAt_scalar]
      exact readsMalformed_scalarEscape cs
    have hoctal : isOctalDigit c = false := by
      by_contra hdigit
      obtain ⟨d, hd⟩ := exists_hasDigit_of_isOctalDigit (Bool.not_eq_false _ ▸ hdigit)
      exact h (.octal hd)
    have hescape : escapeAt (c :: cs) = (bytesOf ['\\'], c :: cs) := by
      simp [escapeAt, hplain, hx, hu, hoctal]
    rw [hescape]
    exact .kept [] (by simp) fun t ht => hu (List.cons.inj ht).1

/-! ### Reading through -/

/-- That a text is read as another one. It is the same one exactly if no brace in it is misread, and
at most one character longer. -/
structure ReadAs (cs out : List Char) : Prop where
  bytes : unescapeDouble cs = bytesOf out
  length_le : out.length ≤ cs.length + 1
  eq_iff : out = cs ↔ KeepsBraces cs

theorem ReadAs.nil : ReadAs [] [] where
  bytes := unescapeDouble_nil
  length_le := Nat.zero_le _
  eq_iff := iff_of_true rfl .nil

theorem ReadAs.cons {c : Char} {cs out : List Char} (h : ReadAs cs out) (hc : c ≠ '\\') :
    ReadAs (c :: cs) (c :: out) where
  bytes := by rw [unescapeDouble_cons hc, bytesOf_cons, h.bytes]
  length_le := by
    have := h.length_le
    simp only [List.length_cons]
    omega
  eq_iff := by rw [List.cons_inj_right, h.eq_iff, keepsBraces_cons_of_ne hc]

/-- A backslash in front of one of these letters opens no braces with them alone. -/
theorem keepsBraces_kept {front rest : List Char} (letter : front ∈ [[], ['x'], ['u']])
    (unopened : ∀ t, front ++ rest ≠ 'u' :: '{' :: t) :
    KeepsBraces ('\\' :: (front ++ rest)) ↔ KeepsBraces rest := by
  rw [keepsBraces_cons fun t ht => unopened t (List.cons.inj ht).2]
  simp only [List.mem_cons, List.not_mem_nil, or_false] at letter
  rcases letter with rfl | rfl | rfl
  · rfl
  · exact keepsBraces_cons_of_ne (by decide) rest
  · exact keepsBraces_cons_of_ne (by decide) rest

/-- **One step at a backslash.** What is read there and what is read behind it add up. -/
theorem ReadsMalformed.exists_readAs {cs rest out : List Char} {bytes : List UInt8}
    (h : ReadsMalformed cs bytes rest) (hcs : ¬ BeginsEscape cs)
    (hbytes : unescapeDouble ('\\' :: cs) = bytes ++ unescapeDouble rest) (hrest : ReadAs rest out) :
    ∃ out', ReadAs ('\\' :: cs) out' := by
  have hlength := hrest.length_le
  rw [hrest.bytes] at hbytes
  cases h with
  | @kept front rest letter unopened =>
    -- nothing is lost, and no braces begin here
    refine ⟨'\\' :: front ++ out, by rw [hbytes, bytesOf_append], ?_, ?_⟩
    · simp only [List.length_cons, List.length_append]
      omega
    · rw [List.cons_append, List.cons_inj_right, List.append_cancel_left_eq, hrest.eq_iff,
        keepsBraces_kept letter unopened]
  | @braces inside rest hinside =>
    have hsigned := beginsSigned_braces hinside hcs
    cases hread : scalarOfHex? inside with
    | none =>
      rw [hread] at hbytes hsigned
      refine ⟨'\\' :: 'u' :: '{' :: (inside ++ ['}']) ++ out, by rw [hbytes, bytesOf_append]; rfl,
        ?_, ?_⟩
      · simp only [List.length_cons, List.length_append, List.length_nil]
        omega
      · simp [keepsBraces_braces hinside, hsigned, hrest.eq_iff]
    | some c =>
      rw [hread] at hbytes hsigned
      refine ⟨[c] ++ out, by rw [hbytes, bytesOf_append]; rfl, ?_, iff_of_false ?_ ?_⟩
      · simp only [List.length_cons, List.length_append, List.length_nil]
        omega
      · -- a character is shorter than the braces that it is read from
        intro heq
        have := congrArg List.length heq
        simp only [List.length_cons, List.length_append, List.length_nil] at this
        omega
      · rw [keepsBraces_braces hinside]
        exact fun hkeeps => hkeeps.1 (hsigned.2 (by simp))
  | @opened inside hinside =>
    -- what is read has a brace more than what is written, or is a character alone
    have hclosed : ¬ KeepsBraces ('\\' :: 'u' :: '{' :: inside) :=
      fun hkeeps => not_bracesClosed_open hinside hkeeps.closed
    rw [← hrest.bytes, unescapeDouble_nil, List.append_nil] at hbytes
    cases hread : scalarOfHex? inside with
    | none =>
      rw [hread] at hbytes
      refine ⟨'\\' :: 'u' :: '{' :: (inside ++ ['}']), hbytes, ?_, iff_of_false ?_ hclosed⟩
      · simp
      · simp
    | some c =>
      rw [hread] at hbytes
      exact ⟨[c], hbytes, by simp, iff_of_false (by simp) hclosed⟩

theorem ReadsMalformed.suffix {cs rest : List Char} {bytes : List UInt8}
    (h : ReadsMalformed cs bytes rest) : rest <:+ cs := by
  cases h with
  | kept => exact List.suffix_append _ _
  | @braces inside rest => exact ⟨'u' :: '{' :: (inside ++ ['}']), by simp⟩
  | opened => exact List.nil_suffix

/-- **What is read of a text without well-formed escapes.** -/
theorem HoldsNoEscape.exists_readAs {cs : List Char} (h : HoldsNoEscape cs) :
    ∃ out, ReadAs cs out := by
  induction cs using unescapeDouble.induct with
  | case1 => exact ⟨[], .nil⟩
  | case2 cs ih =>
    have hcs : ¬ BeginsEscape cs := h cs (List.suffix_refl _)
    have hread := readsMalformed_escapeAt hcs
    obtain ⟨out, hout⟩ := ih ((h.of_suffix (List.suffix_cons _ _)).of_suffix hread.suffix)
    exact hread.exists_readAs hcs (unescapeDouble_backslash cs) hout
  | case3 c cs hc ih =>
    obtain ⟨out, hout⟩ := ih (h.of_suffix (List.suffix_cons _ _))
    exact ⟨c :: out, hout.cons hc⟩

/-- **Malformed escapes are kept as written, but for braces that are misread.** The inside of a
literal in which no backslash begins a well-formed escape stands for a text. This text is the inside
itself exactly if all braces behind `\u` are closed and none of those that are read holds a number
with a sign. -/
theorem decodeDoubleQuoted?_malformed (mark : ByteMark) {inside : List Char}
    (h : HoldsNoEscape inside) :
    (∃ s, decodeDoubleQuoted? (quotedLiteral mark '"' inside) = some s) ∧
      (decodeDoubleQuoted? (quotedLiteral mark '"' inside) = some (String.ofList inside) ↔
        BracesClosed inside ∧ ¬ ReadsSigned inside) := by
  obtain ⟨out, hout⟩ := h.exists_readAs
  have hdecode : decodeDoubleQuoted? (quotedLiteral mark '"' inside) = some (String.ofList out) := by
    rw [decodeDoubleQuoted?_quotedLiteral, hout.bytes, textOfBytes?_bytesOf]
  refine ⟨⟨_, hdecode⟩, ?_⟩
  rw [hdecode, Option.some.injEq, String.ofList_inj, hout.eq_iff]
  exact ⟨fun hkeeps => ⟨hkeeps.closed, hkeeps.unsigned⟩, fun hkeeps => ⟨hkeeps.1, hkeeps.2⟩⟩

/-- Braces are kept if they are closed, and one is put behind those that are not. -/
theorem decodeDoubleQuoted?_malformed_braces :
    (HoldsNoEscape "\\u\x7bzz\x7d".toList ∧ BracesClosed "\\u\x7bzz\x7d".toList ∧
      decodeDoubleQuoted? "b\"\\u\x7bzz\x7d\"" = some "\\u\x7bzz\x7d") ∧
    (HoldsNoEscape "\\u\x7bzz".toList ∧ ¬ BracesClosed "\\u\x7bzz".toList ∧
      decodeDoubleQuoted? "\"\\u\x7bzz\"" = some "\\u\x7bzz\x7d") := by
  have hclosed : HoldsNoEscape "\\u\x7bzz\x7d".toList :=
    (HoldsNoEscape.of_not_mem (by decide)).cons fun _ => not_beginsEscape_braces (by decide)
  have hopen : HoldsNoEscape "\\u\x7bzz".toList :=
    (HoldsNoEscape.of_not_mem (by decide)).cons fun _ => not_beginsEscape_braces (by decide)
  have hkept : decodeDoubleQuoted? "b\"\\u\x7bzz\x7d\"" = some "\\u\x7bzz\x7d" := by
    decide +kernel
  refine ⟨⟨hclosed, ?_, hkept⟩, hopen, not_bracesClosed_open (by decide), by decide +kernel⟩
  exact ((decodeDoubleQuoted?_malformed .small hclosed).2.1 hkept).1

end DocBlocks
