import DocBlocks.Literal.Value
import DocBlocks.Proofs.Number.Text
import Mathlib.Data.Nat.Digits.Defs
import Mathlib.Tactic.IntervalCases

/-!
# Integer literals

`valueOf_of_spells`: what is made of an integer literal, of any length and in any notation. Up to
the largest signed word of 64 bits it is the integer that the literal denotes. Beyond it a decimal
literal is the number nearest to what it denotes, and of a literal with a letter behind its zero
nothing is told. A literal that is octal by its leading zero alone is the exception: its digits are
read once more as decimal ones, which always is a larger number.

A literal is given by its notation and its digits (`IntegerForm.Spells`). Without its underscores
and in lower case it is the mark of the notation with the digits behind it (`Spells.chars_eq`), and
each reader of numbers is followed from there.
-/

namespace DocBlocks

/-! ### Notations -/

/-- The notations of integer literals. -/
inductive IntegerForm where
  | decimal
  | hexadecimal
  | binary
  | octal
  /-- Octal with nothing but a zero in front of the digits. -/
  | zeroOctal
  deriving DecidableEq, Repr

/-- Digits in some base, the leading one first. Two of them may have an underscore between them, and
a letter may be a capital. -/
inductive GroupedDigits (base : Nat) : List Nat → List Char → Prop
  | single {d : Nat} {c : Char} (lt : d < base) (char : c.toLower = Nat.digitChar d) :
      GroupedDigits base [d] [c]
  | cons {d : Nat} {c : Char} {ds : List Nat} {cs : List Char} (lt : d < base)
      (char : c.toLower = Nat.digitChar d) (rest : GroupedDigits base ds cs) :
      GroupedDigits base (d :: ds) (c :: cs)
  | grouped {d : Nat} {c : Char} {ds : List Nat} {cs : List Char} (lt : d < base)
      (char : c.toLower = Nat.digitChar d) (rest : GroupedDigits base ds cs) :
      GroupedDigits base (d :: ds) (c :: '_' :: cs)

namespace IntegerForm

/-- The base of the digits. -/
def base : IntegerForm → Nat
  | decimal => 10
  | hexadecimal => 16
  | binary => 2
  | octal => 8
  | zeroOctal => 8

/-- The letter between the zero in front and the digits. -/
def letter? : IntegerForm → Option Char
  | hexadecimal => some 'x'
  | binary => some 'b'
  | octal => some 'o'
  | _ => none

/-- The integer that digits denote. -/
def value (form : IntegerForm) (digits : List Nat) : Nat := Nat.ofDigits form.base digits.reverse

/-- How a literal is spelled. A decimal one begins with a zero only if it is the zero itself. -/
inductive Spells : IntegerForm → List Nat → List Char → Prop
  | decimal {digits : List Nat} {cs : List Char} (grouped : GroupedDigits 10 digits cs)
      (unpadded : digits.head? = some 0 → digits = [0]) : Spells .decimal digits cs
  | zeroOctal {d : Nat} {ds : List Nat} {cs : List Char} (grouped : GroupedDigits 8 (0 :: d :: ds) cs) :
      Spells .zeroOctal (0 :: d :: ds) cs
  | marked {form : IntegerForm} {digits : List Nat} {c : Char} {cs : List Char}
      (letter : form.letter? = some c.toLower) (grouped : GroupedDigits form.base digits cs) :
      Spells form digits ('0' :: c :: cs)

end IntegerForm

/-! ### Digits -/

theorem digitChar_ne_underscore {d : Nat} (h : d < 16) : Nat.digitChar d ≠ '_' := by
  interval_cases d <;> decide

theorem isDigit_digitChar {d : Nat} (h : d < 10) : (Nat.digitChar d).isDigit = true := by
  interval_cases d <;> rfl

theorem digitValue_digitChar {d : Nat} (h : d < 10) : digitValue (Nat.digitChar d) = d := by
  interval_cases d <;> rfl

theorem anyDigitValue?_digitChar {base d : Nat} (hbase : base ≤ 16) (h : d < base) :
    anyDigitValue? base (Nat.digitChar d) = some d := by
  have hvalue : ∀ d < 16, anyDigitValue? 16 (Nat.digitChar d) = some d := by decide
  have hd := hvalue d (by omega)
  simp only [anyDigitValue?, Option.filter_eq_some_iff] at hd ⊢
  exact ⟨hd.1, by simpa using h⟩

theorem takeSign_digitChar {d : Nat} (h : d < 16) (cs : List Char) :
    takeSign (Nat.digitChar d :: cs) = (false, Nat.digitChar d :: cs) := by
  interval_cases d <;> rfl

/-- Digits that begin with a zero only if they are the zero itself have nothing behind it. -/
theorem map_digitChar_ne {digits : List Nat} (h : digits.head? = some 0 → digits = [0])
    (hlt : ∀ d ∈ digits, d < 10) {c : Char} {cs : List Char} :
    digits.map Nat.digitChar ≠ '0' :: c :: cs := by
  intro heq
  cases digits with
  | nil => simp at heq
  | cons d ds =>
    rw [List.map_cons, List.cons.injEq] at heq
    have hd : d < 10 := hlt d List.mem_cons_self
    have hzero : d = 0 := by
      rw [← digitValue_digitChar hd, heq.1]
      rfl
    subst hzero
    obtain rfl : ds = [] := by simpa using h rfl
    simp at heq

/-- The digits of a literal are all that is left of it without its underscores. -/
theorem GroupedDigits.chars_eq {base : Nat} (hbase : base ≤ 16) {digits : List Nat}
    {cs : List Char} (h : GroupedDigits base digits cs) :
    (cs.filter (· != '_')).map Char.toLower = digits.map Nat.digitChar := by
  have hkeep : ∀ {d : Nat} {c : Char}, d < base → c.toLower = Nat.digitChar d →
      (c != '_') = true := by
    intro d c hd hc
    rw [bne_iff_ne]
    rintro rfl
    exact digitChar_ne_underscore (by omega) hc.symm
  induction h with
  | single lt char => simp [hkeep lt char, char]
  | cons lt char _ ih => simp [hkeep lt char, char, ih]
  | grouped lt char _ ih => simp [hkeep lt char, char, ih]

theorem GroupedDigits.forall_lt {base : Nat} {digits : List Nat} {cs : List Char}
    (h : GroupedDigits base digits cs) : ∀ d ∈ digits, d < base := by
  induction h with
  | single lt _ => simpa using lt
  | cons lt _ _ ih => exact List.forall_mem_cons.2 ⟨lt, ih⟩
  | grouped lt _ _ ih => exact List.forall_mem_cons.2 ⟨lt, ih⟩

theorem GroupedDigits.ne_nil {base : Nat} {digits : List Nat} {cs : List Char}
    (h : GroupedDigits base digits cs) : digits ≠ [] := by
  cases h <;> simp

theorem foldlM_digitChar {base : Nat} (hbase : base ≤ 16) {digits : List Nat}
    (h : ∀ d ∈ digits, d < base) (n : Nat) :
    (digits.map Nat.digitChar).foldlM
        (fun n c => (anyDigitValue? base c).map fun d => base * n + d) n =
      some (base ^ digits.length * n + Nat.ofDigits base digits.reverse) := by
  induction digits generalizing n with
  | nil => simp
  | cons d ds ih =>
    rw [List.forall_mem_cons] at h
    have hrest := ih h.2 (base * n + d)
    rw [List.map_cons, List.foldlM_cons, anyDigitValue?_digitChar hbase h.1]
    show (ds.map Nat.digitChar).foldlM _ (base * n + d) = _
    rw [hrest, Nat.ofDigits_reverse_cons, List.length_cons, pow_succ]
    congr 1
    ring

/-- **Digits are read as the number that they denote**, in every base. -/
theorem readDigits?_digitChar {base : Nat} (hbase : base ≤ 16) {digits : List Nat}
    (h : ∀ d ∈ digits, d < base) (hne : digits ≠ []) :
    readDigits? base (digits.map Nat.digitChar) =
      some (Nat.ofDigits base digits.reverse) := by
  rw [readDigits?, if_neg (by simpa using hne), foldlM_digitChar hbase h]
  simp

theorem readInteger?_digitChar {base : Nat} (hbase : base ≤ 16) {digits : List Nat}
    (h : ∀ d ∈ digits, d < base) (hne : digits ≠ []) :
    readInteger? base (digits.map Nat.digitChar) =
      some ((Nat.ofDigits base digits.reverse : Nat) : Int) := by
  have hread := readDigits?_digitChar hbase h hne
  cases digits with
  | nil => exact absurd rfl hne
  | cons d ds =>
    have hd : d < 16 := (h d List.mem_cons_self).trans_le hbase
    rw [List.map_cons] at hread ⊢
    simp only [readInteger?, takeSign_digitChar hd, hread]
    rfl

theorem decimalValue_digitChar {digits : List Nat} (h : ∀ d ∈ digits, d < 10) :
    decimalValue (digits.map Nat.digitChar) = Nat.ofDigits 10 digits.reverse := by
  induction digits with
  | nil => rfl
  | cons d ds ih =>
    rw [List.forall_mem_cons] at h
    rw [List.map_cons, decimalValue_cons, digitValue_digitChar h.1, ih h.2,
      Nat.ofDigits_reverse_cons, List.length_map]
    ring

/-- Decimal digits alone are read as the number nearest to what they denote. -/
theorem floatValue_digitChar {digits : List Nat} (h : ∀ d ∈ digits, d < 10) (hne : digits ≠ []) :
    floatValue (digits.map Nat.digitChar) =
      .float (.ofInt (Nat.ofDigits 10 digits.reverse : Nat)) := by
  have hdigit : ∀ c ∈ digits.map Nat.digitChar, c.isDigit = true := by
    intro c hc
    obtain ⟨d, hd, rfl⟩ := List.mem_map.1 hc
    exact isDigit_digitChar (h d hd)
  have hvalue := decimalValue_digitChar h
  have hne' : digits.map Nat.digitChar ≠ [] := by simpa using hne
  generalize digits.map Nat.digitChar = cs at hdigit hvalue hne' ⊢
  have hwhole : cs.takeWhile Char.isDigit = cs := by
    simpa using takeWhile_append_eq hdigit [] rfl
  have hread : readDecimal? false cs = some (.ofDecimal false (decimalValue cs) 0) := by
    simp [readDecimal?, hwhole, hne', readExponent?]
  obtain ⟨c, rest, rfl⟩ := List.exists_cons_of_ne_nil hne'
  have hsign : takeSign (c :: rest) = (false, c :: rest) :=
    takeSign_of_isDigit (hdigit c List.mem_cons_self)
  have hnumber : readNumber? (c :: rest) = readDecimal? false (c :: rest) := by
    rw [readNumber?_eq_readDecimal? (by rw [hsign]; simp [hdigit c List.mem_cons_self]), hsign]
  have hsigned : decide (((Nat.ofDigits 10 digits.reverse : Nat) : Int) < 0) = false := by simp
  rw [floatValue, hnumber, hread, hvalue, Binary64.ofInt, hsigned, Int.natAbs_natCast]

/-- A zero with a letter behind it is no number with a point or an exponent. -/
theorem floatValue_letter {form : IntegerForm} {c : Char} (h : form.letter? = some c)
    (cs : List Char) : floatValue ('0' :: c :: cs) = .unresolved := by
  have hread : readNumber? ('0' :: c :: cs) = none := by
    rw [readNumber?_eq_readDecimal? rfl]
    cases form <;> simp only [IntegerForm.letter?, Option.some.injEq, reduceCtorEq] at h <;>
      subst h <;> rfl
  rw [floatValue, hread]

/-! ### Literals -/

namespace IntegerForm

/-- What stands in front of the digits. -/
def mark (form : IntegerForm) : List Char := form.letter?.elim [] fun c => ['0', c]

theorem base_le (form : IntegerForm) : form.base ≤ 16 := by
  cases form <;> decide

theorem Spells.grouped {form : IntegerForm} {digits : List Nat} {cs : List Char}
    (h : form.Spells digits cs) : ∃ cs', GroupedDigits form.base digits cs' := by
  cases h with
  | decimal grouped _ => exact ⟨_, grouped⟩
  | zeroOctal grouped => exact ⟨_, grouped⟩
  | marked _ grouped => exact ⟨_, grouped⟩

/-- **Without its underscores and in lower case a literal is its mark and its digits.** -/
theorem Spells.chars_eq {form : IntegerForm} {digits : List Nat} {s : String}
    (h : form.Spells digits s.toList) :
    (dropUnderscores s).map Char.toLower = form.mark ++ digits.map Nat.digitChar := by
  rw [dropUnderscores]
  generalize s.toList = cs at h ⊢
  cases h with
  | decimal grouped _ => exact grouped.chars_eq (by decide)
  | zeroOctal grouped => exact grouped.chars_eq (by decide)
  | @marked _ _ c cs letter grouped =>
    have hkeep : (c != '_') = true := by
      rw [bne_iff_ne]
      rintro rfl
      cases form <;> simp [letter?] at letter
    simp [hkeep, grouped.chars_eq form.base_le, mark, letter]

/-- The digits behind the mark are read in the base of the notation. -/
theorem Spells.integerOf?_eq {form : IntegerForm} {digits : List Nat} {cs : List Char}
    (h : form.Spells digits cs) :
    integerOf? (form.mark ++ digits.map Nat.digitChar) = some (form.value digits : Int) := by
  obtain ⟨cs', hgrouped⟩ := h.grouped
  have hlt := hgrouped.forall_lt
  have hread := readInteger?_digitChar form.base_le hlt hgrouped.ne_nil
  cases h with
  | decimal _ unpadded =>
    show integerOf? (digits.map Nat.digitChar) = _
    unfold integerOf?
    split
    case h_5 => exact hread
    -- in every other case a zero stands in front of something
    all_goals
      rename_i heq
      exact absurd heq (map_digitChar_ne unpadded hlt)
  | @zeroOctal d ds _ _ =>
    have hrest : ∀ e ∈ d :: ds, e < 8 := fun e he => hlt e (List.mem_cons_of_mem _ he)
    have hd : d < 8 := hrest d List.mem_cons_self
    have hvalue : IntegerForm.zeroOctal.value (0 :: d :: ds) = Nat.ofDigits 8 (d :: ds).reverse :=
      Nat.ofDigits_reverse_zero_cons (d :: ds)
    have hread := readInteger?_digitChar (by decide) hrest (by simp)
    rw [hvalue, ← hread]
    show integerOf? ('0' :: Nat.digitChar d :: ds.map Nat.digitChar) = _
    rw [List.map_cons]
    -- a digit is none of the letters that mark another notation
    interval_cases d <;> rfl
  | @marked _ _ c _ letter _ =>
    rw [value, ← hread, mark, letter]
    cases form <;> simp only [letter?, Option.some.injEq, reduceCtorEq] at letter <;>
      rw [← letter] <;> rfl

/-- What becomes of a literal that no signed word of 64 bits can hold. -/
theorem Spells.floatValue_eq {form : IntegerForm} {digits : List Nat} {cs : List Char}
    (h : form.Spells digits cs) :
    floatValue (form.mark ++ digits.map Nat.digitChar) =
      if form.letter?.isSome then .unresolved else .float (.ofInt (IntegerForm.decimal.value digits)) := by
  obtain ⟨cs', hgrouped⟩ := h.grouped
  have hten (hbase : form.base ≤ 10) : floatValue (digits.map Nat.digitChar) =
      .float (.ofInt (IntegerForm.decimal.value digits)) :=
    floatValue_digitChar (fun d hd => (hgrouped.forall_lt d hd).trans_le hbase) hgrouped.ne_nil
  cases h with
  | decimal _ _ => exact hten (by decide)
  | zeroOctal _ => exact hten (by decide)
  | marked letter _ =>
    have hvalue := floatValue_letter letter (digits.map Nat.digitChar)
    simpa [mark, letter] using hvalue

/-- Octal digits read as decimal ones make a larger number, from two digits on. -/
theorem ofDigits_octal_lt_decimal {digits : List Nat} (h : ∀ d ∈ digits, d < 8)
    (hvalue : 8 ≤ Nat.ofDigits 8 digits) : Nat.ofDigits 8 digits < Nat.ofDigits 10 digits := by
  cases digits with
  | nil => simp at hvalue
  | cons d ds =>
    have hd : d < 8 := h d List.mem_cons_self
    have hmono : Nat.ofDigits 8 ds ≤ Nat.ofDigits 10 ds := Nat.ofDigits_monotone ds (by decide)
    rw [Nat.ofDigits_cons] at hvalue
    rw [Nat.ofDigits_cons, Nat.ofDigits_cons]
    omega

end IntegerForm

/-! ### Values -/

theorem fitsWord_natCast (n : Nat) : fitsWord n = true ↔ n ≤ 2 ^ 63 - 1 := by
  have hpow : Int.pow 2 63 = 9223372036854775808 := rfl
  simp only [fitsWord, hpow, Bool.and_eq_true, decide_eq_true_eq]
  omega

/-- The value of a literal is the integer it denotes if that fits a signed word of 64 bits, and else
what its text is as a number with a point or an exponent. -/
theorem integerValue_of_spells {form : IntegerForm} {digits : List Nat} {s : String}
    (h : form.Spells digits s.toList) :
    integerValue s = if form.value digits ≤ 2 ^ 63 - 1 then .integer (form.value digits)
      else if form.letter?.isSome then .unresolved
      else .float (.ofInt (IntegerForm.decimal.value digits)) := by
  have hfits := fitsWord_natCast (form.value digits)
  simp only [integerValue, h.chars_eq, h.integerOf?_eq, h.floatValue_eq]
  by_cases hle : form.value digits ≤ 2 ^ 63 - 1
  · have hfilter : (some (form.value digits : Int)).filter fitsWord = some ↑(form.value digits) := by
      rw [Option.filter_some, if_pos (hfits.2 hle)]
    rw [hfilter, if_pos hle]
  · have hfilter : (some (form.value digits : Int)).filter fitsWord = none := by
      rw [Option.filter_some, if_neg (fun hfit => hle (hfits.1 hfit))]
    rw [hfilter, if_neg hle]

/-- **Integer literals keep their value**, whatever their notation and length. A literal is resolved
to an integer exactly if the one it denotes is at most `2 ^ 63 - 1`, and then to that one. Beyond
that limit nothing is told of it or it is the number nearest to what it denotes, unless it is octal
by its leading zero alone: then its digits are taken for decimal ones, which always denote a larger
number. -/
theorem valueOf_of_spells {n : Node} (hkind : n.kind = .expr (.literal .integer))
    {form : IntegerForm} {digits : List Nat} (h : form.Spells digits n.text.toList) :
    (∀ i : Int, valueOf n = .integer i ↔
        i = form.value digits ∧ form.value digits ≤ 2 ^ 63 - 1) ∧
      (2 ^ 63 - 1 < form.value digits → form ≠ .zeroOctal →
        valueOf n = .unresolved ∨ valueOf n = .float (.ofInt (form.value digits))) ∧
      (2 ^ 63 - 1 < form.value digits → form = .zeroOctal →
        valueOf n = .float (.ofInt (IntegerForm.decimal.value digits)) ∧
          form.value digits < IntegerForm.decimal.value digits) := by
  have hvalue : valueOf n = integerValue n.text := by
    simp [valueOf, hkind]
  rw [hvalue, integerValue_of_spells h]
  refine ⟨fun i => ?_, fun hbig hform => ?_, fun hbig hform => ?_⟩
  · by_cases hle : form.value digits ≤ 2 ^ 63 - 1
    · rw [if_pos hle, and_iff_left hle, ArgumentValue.integer.injEq, eq_comm]
    · rw [if_neg hle]
      constructor
      · intro heq
        split at heq <;> simp at heq
      · rintro ⟨-, hle'⟩
        exact absurd hle' hle
  · rw [if_neg (by omega)]
    cases form with
    | decimal => exact .inr rfl
    | zeroOctal => exact absurd rfl hform
    | hexadecimal => exact .inl rfl
    | binary => exact .inl rfl
    | octal => exact .inl rfl
  · rw [if_neg (by omega)]
    subst hform
    obtain ⟨cs, hgrouped⟩ := h.grouped
    refine ⟨rfl, IntegerForm.ofDigits_octal_lt_decimal ?_ ?_⟩
    · exact fun d hd => hgrouped.forall_lt d (List.mem_reverse.1 hd)
    · have hlimit : 8 ≤ 2 ^ 63 - 1 := by norm_num
      exact hlimit.trans hbig.le

/-- A hexadecimal literal with capitals and an underscore in it. -/
theorem valueOf_of_spells_hexadecimal :
    IntegerForm.hexadecimal.Spells [7, 15, 15, 15] "0X7f_Ff".toList ∧
      valueOf (.leaf ⟨.expr (.literal .integer), "integer", none, default⟩ "0X7f_Ff") =
        .integer 32767 := by
  have hdigits : GroupedDigits 16 [7, 15, 15, 15] "7f_Ff".toList :=
    .cons (by decide) (by decide) <| .grouped (by decide) (by decide) <|
      .cons (by decide) (by decide) <| .single (by decide) (by decide)
  have hspells : IntegerForm.hexadecimal.Spells [7, 15, 15, 15] "0X7f_Ff".toList :=
    .marked rfl hdigits
  have hvalue : IntegerForm.hexadecimal.value [7, 15, 15, 15] = 32767 := rfl
  refine ⟨hspells, ((valueOf_of_spells rfl hspells).1 32767).2 ?_⟩
  rw [hvalue]
  exact ⟨rfl, by decide⟩

end DocBlocks
