import DocBlocks.Number.Text
import DocBlocks.Proofs.Number.Shortest
import DocBlocks.Proofs.Text.Lines

/-!
# Numbers read back from their texts

`readNumber?_write`: every style writes a number of double precision so that it is read as the same
number. The digits of an integer are `readDigits?_toDigits`, and its sign is `takeSign_toString`.

A finite number is written as a `Spelling`: digits with a point among them and an exponent. What is
known of the spelling of a decimal (`Spelling.Regular`) is all that a reader of numbers needs,
whatever it does with the digits: the point has digits on both sides, the digits in front of it do
not begin with a zero unless it stands alone, and all digits together fit 64 bits.
`NumberStyle.written` is the decimal that the digits of a number are without their point: zeros that
are written count as digits.
-/

namespace DocBlocks

/-! ### Runs of digits -/

theorem decimalValue_nil : decimalValue [] = 0 := rfl

theorem foldl_digits (cs : List Char) (n : Nat) :
    cs.foldl (fun n c => 10 * n + digitValue c) n = n * 10 ^ cs.length + decimalValue cs := by
  induction cs generalizing n with
  | nil => simp [decimalValue_nil]
  | cons c cs ih =>
    rw [decimalValue, List.foldl_cons, List.foldl_cons, ih, ih (10 * 0 + digitValue c),
      List.length_cons, pow_succ]
    ring

theorem decimalValue_append (cs ds : List Char) :
    decimalValue (cs ++ ds) = decimalValue cs * 10 ^ ds.length + decimalValue ds := by
  rw [decimalValue, List.foldl_append]
  exact foldl_digits ..

theorem decimalValue_cons (c : Char) (cs : List Char) :
    decimalValue (c :: cs) = digitValue c * 10 ^ cs.length + decimalValue cs := by
  rw [decimalValue, List.foldl_cons, foldl_digits]
  simp

theorem decimalValue_zeros (n : Nat) : decimalValue (List.replicate n '0') = 0 := by
  induction n with
  | zero => rfl
  | succ n ih => rw [List.replicate_succ, decimalValue_cons, ih]; simp [digitValue]

theorem decimalValue_toDigits (n : Nat) : decimalValue (Nat.toDigits 10 n) = n :=
  Nat.ofDigitChars_toDigits (by decide) (by decide)

theorem digitValue_lt {c : Char} (h : c.isDigit = true) : digitValue c < 10 := by
  simp only [Char.isDigit, ge_iff_le, Bool.and_eq_true, decide_eq_true_eq, UInt32.le_iff_toNat_le,
    Char.reduceVal, UInt32.reduceToNat] at h
  simp only [digitValue, Char.toNat, Char.reduceVal, UInt32.reduceToNat]
  omega

theorem decimalValue_lt {cs : List Char} (h : ∀ c ∈ cs, c.isDigit = true) :
    decimalValue cs < 10 ^ cs.length := by
  induction cs with
  | nil => simp [decimalValue_nil]
  | cons c cs ih =>
    rw [List.forall_mem_cons] at h
    have hc := digitValue_lt h.1
    have hcs := ih h.2
    rw [decimalValue_cons, List.length_cons, pow_succ]
    nlinarith [Nat.mul_le_mul_right (10 ^ cs.length) (Nat.le_of_lt_succ hc)]

theorem isDigit_of_mem_toDigits {n : Nat} {c : Char} (h : c ∈ Nat.toDigits 10 n) :
    c.isDigit = true :=
  Nat.isDigit_of_mem_toDigits (by decide) (by decide) h

/-- A positive number is not written with a zero in front. -/
theorem head?_toDigits_ne {n : Nat} (hn : n ≠ 0) : (Nat.toDigits 10 n).head? ≠ some '0' := by
  intro h
  obtain ⟨cs, hcs⟩ : ∃ cs, Nat.toDigits 10 n = '0' :: cs := by
    cases hd : Nat.toDigits 10 n with
    | nil => exact absurd hd Nat.toDigits_ne_nil
    | cons c cs =>
      rw [hd, List.head?_cons, Option.some.injEq] at h
      exact ⟨cs, by rw [h]⟩
  have hvalue := decimalValue_toDigits n
  rw [hcs, decimalValue_cons] at hvalue
  have hlow : 10 ^ cs.length ≤ n := by
    refine Binary64.pow_le_of_lt_decimalLength hn ?_
    rw [Binary64.decimalLength, hcs]
    exact Nat.lt_succ_self _
  have hhigh : decimalValue cs < 10 ^ cs.length := decimalValue_lt fun c hc =>
    isDigit_of_mem_toDigits (hcs ▸ List.mem_cons_of_mem _ hc)
  simp only [digitValue, Nat.sub_self, Nat.zero_mul, Nat.zero_add] at hvalue
  omega

/-! ### Integers -/

/-- The digits of an integer with its sign. -/
theorem toList_toString_int (i : Int) :
    (toString i).toList = (if i < 0 then ['-'] else []) ++ Nat.toDigits 10 i.natAbs := by
  cases i with
  | ofNat n =>
    rw [if_neg (by simp)]
    show (Nat.repr n).toList = _
    rw [Nat.repr_eq_ofList_toDigits]
    simp
  | negSucc n =>
    rw [if_pos (Int.negSucc_lt_zero n)]
    show ("-" ++ Nat.repr (n + 1)).toList = _
    rw [Nat.repr_eq_ofList_toDigits, String.toList_append]
    simp

theorem anyDigitValue?_of_isDigit {c : Char} (h : c.isDigit = true) :
    anyDigitValue? 10 c = some (digitValue c) := by
  simp [anyDigitValue?, h, Option.filter, digitValue_lt h]

theorem readDigits?_eq_some {cs : List Char} (hne : cs ≠ []) (h : ∀ c ∈ cs, c.isDigit = true) :
    readDigits? 10 cs = some (decimalValue cs) := by
  have hfold (n : Nat) : cs.foldlM (fun n c => (anyDigitValue? 10 c).map fun d => 10 * n + d) n =
      some (cs.foldl (fun n c => 10 * n + digitValue c) n) := by
    induction cs generalizing n with
    | nil => rfl
    | cons c cs ih =>
      rw [List.forall_mem_cons] at h
      rw [List.foldlM_cons, anyDigitValue?_of_isDigit h.1, List.foldl_cons]
      by_cases hcs : cs = []
      · subst hcs
        rfl
      · exact ih hcs h.2 _
  rw [readDigits?, if_neg (by simpa using hne), hfold]
  rfl

theorem readDigits?_toDigits (n : Nat) : readDigits? 10 (Nat.toDigits 10 n) = some n := by
  rw [readDigits?_eq_some Nat.toDigits_ne_nil fun c => isDigit_of_mem_toDigits,
    decimalValue_toDigits]

theorem takeSign_of_isDigit {c : Char} {cs : List Char} (h : c.isDigit = true) :
    takeSign (c :: cs) = (false, c :: cs) := by
  unfold takeSign
  split
  · rename_i heq
    obtain ⟨rfl, -⟩ := List.cons.inj heq
    simp at h
  · rename_i heq
    obtain ⟨rfl, -⟩ := List.cons.inj heq
    simp at h
  · rfl

theorem exists_toDigits_eq_cons (n : Nat) :
    ∃ c cs, Nat.toDigits 10 n = c :: cs ∧ ∀ d ∈ c :: cs, d.isDigit = true := by
  cases hd : Nat.toDigits 10 n with
  | nil => exact absurd hd Nat.toDigits_ne_nil
  | cons c cs => exact ⟨c, cs, rfl, fun d h => isDigit_of_mem_toDigits (hd ▸ h)⟩

theorem takeSign_toString (i : Int) :
    takeSign (toString i).toList = (decide (i < 0), Nat.toDigits 10 i.natAbs) := by
  rw [toList_toString_int]
  split
  · simp [takeSign, *]
  · obtain ⟨c, cs, hd, hdigit⟩ := exists_toDigits_eq_cons i.natAbs
    rw [List.nil_append, hd, takeSign_of_isDigit (hdigit c (by simp))]
    simp [*]

/-! ### Spellings -/

/-- A positive number as it is spelled: the digits in front of the point, the digits behind it, and
an exponent. -/
structure Spelling where
  front : List Char
  back : List Char
  exponent : Option Int

namespace Spelling

/-- An exponent with its mark and sign. -/
def exponentChars (signed : Bool) (e : Int) : List Char :=
  'e' :: (if e < 0 then ['-'] else if signed then ['+'] else []) ++ Nat.toDigits 10 e.natAbs

/-- The characters of a spelling. A flag tells whether a positive exponent carries its sign. -/
def chars (signed : Bool) (s : Spelling) : List Char :=
  s.front ++ (if s.back.isEmpty then [] else '.' :: s.back) ++
    s.exponent.elim [] (exponentChars signed)

/-- The power of ten that the digits without their point count in. -/
def scale (s : Spelling) : Int := s.exponent.getD 0 - s.back.length

/-- The decimal that a spelling is. -/
def decimal (s : Spelling) : Decimal := ⟨decimalValue (s.front ++ s.back), s.scale⟩

/-- The number that a spelling with a sign in front stands for. -/
def number (negative : Bool) (s : Spelling) : Binary64 :=
  .ofDecimal negative s.decimal.digits s.decimal.exponent

/-- The spellings that a number may have. -/
structure Regular (s : Spelling) : Prop where
  front_ne_nil : s.front ≠ []
  isDigit_front : ∀ c ∈ s.front, c.isDigit = true
  isDigit_back : ∀ c ∈ s.back, c.isDigit = true
  /-- A zero in front of other digits is left out. -/
  unpadded : s.front.head? ≠ some '0' ∨ s.front = ['0']
  /-- It does not look like an integer. -/
  isFraction : s.back ≠ [] ∨ s.exponent.isSome = true
  /-- The digits fit 64 bits. -/
  fits : decimalValue (s.front ++ s.back) < 2 ^ 64
  /-- No number needs a larger exponent. -/
  exponent_le : ∀ e, s.exponent = some e → e.natAbs ≤ 331

/-- The spelling of zero. -/
def zero : Spelling := ⟨['0'], ['0'], none⟩

theorem regular_zero : zero.Regular :=
  ⟨by simp [zero], by simp [zero], by simp [zero], .inr rfl, .inl (by simp [zero]),
    by norm_num [zero, decimalValue, digitValue], by simp [zero]⟩

theorem number_zero (negative : Bool) : zero.number negative = .zero negative :=
  Binary64.ofDecimal_zero ..

end Spelling

/-- A whole decimal with a zero behind its point. -/
def Decimal.pointed (d : Decimal) : Decimal :=
  if 0 ≤ d.exponent then ⟨d.digits * 10 ^ (d.exponent.toNat + 1), -1⟩ else d

theorem Decimal.ofDecimal_pointed (negative : Bool) (d : Decimal) :
    Binary64.ofDecimal negative d.pointed.digits d.pointed.exponent =
      .ofDecimal negative d.digits d.exponent := by
  unfold pointed
  split
  · rw [Binary64.ofDecimal_mul_pow]
    congr 1
    push_cast
    omega
  · rfl

namespace NumberStyle

/-- Whether a style writes a decimal positionally. -/
def IsPositional (style : NumberStyle) (d : Decimal) : Prop :=
  style.positionalFrom < (Binary64.decimalLength d.digits : Int) + d.exponent ∧
    (Binary64.decimalLength d.digits : Int) + d.exponent ≤ style.positionalBelow

instance (style : NumberStyle) (d : Decimal) : Decidable (style.IsPositional d) :=
  inferInstanceAs (Decidable (_ ∧ _))

/-- The decimal that a style spells for another one: a whole one that is written positionally has a
zero behind its point. -/
def spelled (style : NumberStyle) (d : Decimal) : Decimal :=
  if style.IsPositional d then d.pointed else d

/-- The decimal that a style writes for a finite number. -/
def written (style : NumberStyle) (m e : Nat) : Decimal :=
  if m = 0 then ⟨0, -1⟩ else style.spelled (Binary64.shortest style.tieUp m e)

theorem ofDecimal_spelled (style : NumberStyle) (negative : Bool) (d : Decimal) :
    Binary64.ofDecimal negative (style.spelled d).digits (style.spelled d).exponent =
      .ofDecimal negative d.digits d.exponent := by
  unfold spelled
  split
  · exact d.ofDecimal_pointed negative
  · rfl

end NumberStyle

/-- The first of some digits, which is no zero, and the others. -/
theorem head?_take_ne {cs : List Char} {n : Nat} (hn : 0 < n) (h : cs.head? ≠ some '0') :
    (cs.take n).head? ≠ some '0' := by
  rwa [List.head?_take, if_neg hn.ne']

/-- The place of the point is in front of the digits. -/
theorem spelling_of_point_le {d : Decimal} {point : Int} (hlow : d.digits ≤ 10 ^ 17)
    (hpoint : point = ((Nat.toDigits 10 d.digits).length : Int) + d.exponent) (h : point ≤ 0) :
    ∃ s : Spelling, s.Regular ∧ s.decimal = d.pointed ∧ ∀ signed, s.chars signed =
      ['0', '.'] ++ List.replicate (-point).toNat '0' ++ Nat.toDigits 10 d.digits := by
  have hvalue : decimalValue (['0'] ++ (List.replicate (-point).toNat '0' ++
      Nat.toDigits 10 d.digits)) = d.digits := by
    rw [decimalValue_append, decimalValue_append, decimalValue_zeros, decimalValue_toDigits]
    simp [decimalValue, digitValue]
  refine ⟨⟨['0'], List.replicate (-point).toNat '0' ++ Nat.toDigits 10 d.digits, none⟩,
    ⟨by simp, by simp, ?_, .inr rfl, .inl ?_, ?_, nofun⟩, ?_, fun signed => ?_⟩
  · intro c hc
    rcases List.mem_append.1 hc with hc | hc
    · rw [List.eq_of_mem_replicate hc]
      rfl
    · exact isDigit_of_mem_toDigits hc
  · simp [Nat.toDigits_ne_nil]
  · rw [hvalue]
    exact hlow.trans_lt (by norm_num)
  · have hpos : 0 < (Nat.toDigits 10 d.digits).length := Nat.length_toDigits_pos
    have hscale : -((List.replicate (-point).toNat '0' ++ Nat.toDigits 10 d.digits).length : Int) =
        d.exponent := by
      rw [List.length_append, List.length_replicate]
      omega
    rw [Decimal.pointed, if_neg (by omega), Spelling.decimal, hvalue]
    simp only [Spelling.scale, Option.getD_none, zero_sub, hscale]
  · simp [Spelling.chars, Nat.toDigits_ne_nil]

/-- The place of the point is among the digits or behind them. -/
theorem spelling_of_point_pos {d : Decimal} {point : Int} (hdigits : d.digits ≠ 0)
    (hlow : d.digits ≤ 10 ^ 17)
    (hpoint : point = ((Nat.toDigits 10 d.digits).length : Int) + d.exponent)
    (h : 0 < point) (hsmall : point ≤ 16) :
    ∃ s : Spelling, s.Regular ∧ s.decimal = d.pointed ∧ ∀ signed, s.chars signed =
      (Nat.toDigits 10 d.digits).take point.toNat ++
        List.replicate (point.toNat - (Nat.toDigits 10 d.digits).length) '0' ++ ['.'] ++
        (if ((Nat.toDigits 10 d.digits).drop point.toNat).isEmpty then ['0']
          else (Nat.toDigits 10 d.digits).drop point.toNat) := by
  have hhead := head?_toDigits_ne hdigits
  have hvalue := decimalValue_toDigits d.digits
  have hlt := Binary64.lt_pow_decimalLength d.digits
  have hisDigit : ∀ c ∈ Nat.toDigits 10 d.digits, c.isDigit = true :=
    fun c => isDigit_of_mem_toDigits
  have hpos : 0 < (Nat.toDigits 10 d.digits).length := Nat.length_toDigits_pos
  rw [Binary64.decimalLength] at hlt
  generalize Nat.toDigits 10 d.digits = digits at *
  have htake : digits.take point.toNat ≠ [] := by
    rw [ne_eq, List.take_eq_nil_iff]
    rintro (h0 | h0)
    · omega
    · simp [h0] at hpos
  have hfront : ∀ c ∈ digits.take point.toNat ++
      List.replicate (point.toNat - digits.length) '0', c.isDigit = true := by
    intro c hc
    rcases List.mem_append.1 hc with hc | hc
    · exact hisDigit c (List.mem_of_mem_take hc)
    · rw [List.eq_of_mem_replicate hc]
      rfl
  have hunpadded : (digits.take point.toNat ++
      List.replicate (point.toNat - digits.length) '0').head? ≠ some '0' := by
    rw [List.head?_append_of_ne_nil _ htake]
    exact head?_take_ne (by omega) hhead
  by_cases hback : digits.length ≤ point.toNat
  · -- the digits end in front of the point
    have hall : decimalValue (digits.take point.toNat ++
        List.replicate (point.toNat - digits.length) '0' ++ ['0']) =
        d.digits * 10 ^ (point.toNat - digits.length + 1) := by
      rw [List.take_of_length_le hback, decimalValue_append, decimalValue_append,
        decimalValue_zeros, hvalue, List.length_replicate, pow_succ]
      simp [decimalValue, digitValue]
      ring
    refine ⟨⟨_, ['0'], none⟩, ⟨by simp [htake], hfront, by simp, .inl hunpadded, .inl (by simp),
      ?_, nofun⟩, ?_, fun signed => ?_⟩
    · rw [hall]
      calc d.digits * 10 ^ (point.toNat - digits.length + 1)
          < 10 ^ digits.length * 10 ^ (point.toNat - digits.length + 1) :=
            Nat.mul_lt_mul_of_pos_right hlt (by positivity)
        _ = 10 ^ (point.toNat + 1) := by rw [← pow_add]; congr 1; omega
        _ ≤ 10 ^ 17 := Nat.pow_le_pow_right (by decide) (by omega)
        _ < 2 ^ 64 := by norm_num
    · have hzeros : point.toNat - digits.length + 1 = d.exponent.toNat + 1 := by omega
      rw [Decimal.pointed, if_pos (by omega), Spelling.decimal, hall, hzeros]
      rfl
    · rw [List.drop_of_length_le hback]
      simp [Spelling.chars]
  · have hzeros : point.toNat - digits.length = 0 := by omega
    have hdrop : digits.drop point.toNat ≠ [] := by
      rw [ne_eq, List.drop_eq_nil_iff]
      omega
    have hall : decimalValue (digits.take point.toNat ++
        List.replicate (point.toNat - digits.length) '0' ++ digits.drop point.toNat) =
        d.digits := by
      rw [hzeros, List.replicate_zero, List.append_nil, List.take_append_drop, hvalue]
    refine ⟨⟨_, digits.drop point.toNat, none⟩, ⟨by simp [htake], hfront,
      fun c hc => hisDigit c (List.mem_of_mem_drop hc), .inl hunpadded, .inl hdrop, ?_,
      nofun⟩, ?_, fun signed => ?_⟩
    · rw [hall]
      exact hlow.trans_lt (by norm_num)
    · have hscale : -((digits.drop point.toNat).length : Int) = d.exponent := by
        rw [List.length_drop]
        omega
      rw [Decimal.pointed, if_neg (by omega), Spelling.decimal, hall]
      simp only [Spelling.scale, Option.getD_none, zero_sub, hscale]
    · simp [Spelling.chars, hdrop]

/-- The digits are written with an exponent. -/
theorem spelling_of_exponent {d : Decimal} {point : Int} (hdigits : d.digits ≠ 0)
    (hlow : d.digits ≤ 10 ^ 17)
    (hpoint : point = ((Nat.toDigits 10 d.digits).length : Int) + d.exponent)
    (hnear : -330 ≤ point ∧ point ≤ 310) :
    ∃ s : Spelling, s.Regular ∧ s.decimal = d ∧ ∀ signed, s.chars signed =
      (Nat.toDigits 10 d.digits).take 1 ++
        (if ((Nat.toDigits 10 d.digits).drop 1).isEmpty then []
          else '.' :: (Nat.toDigits 10 d.digits).drop 1) ++
        Spelling.exponentChars signed (point - 1) := by
  have hhead := head?_toDigits_ne hdigits
  have hvalue := decimalValue_toDigits d.digits
  have hisDigit : ∀ c ∈ Nat.toDigits 10 d.digits, c.isDigit = true :=
    fun c => isDigit_of_mem_toDigits
  have hpos : 0 < (Nat.toDigits 10 d.digits).length := Nat.length_toDigits_pos
  generalize Nat.toDigits 10 d.digits = digits at *
  have hall : decimalValue (digits.take 1 ++ digits.drop 1) = d.digits := by
    rw [List.take_append_drop, hvalue]
  refine ⟨⟨digits.take 1, digits.drop 1, some (point - 1)⟩,
    ⟨?_, fun c hc => hisDigit c (List.mem_of_mem_take hc),
      fun c hc => hisDigit c (List.mem_of_mem_drop hc), .inl (head?_take_ne Nat.one_pos hhead),
      .inr rfl, ?_, ?_⟩, ?_, fun signed => ?_⟩
  · rw [ne_eq, List.take_eq_nil_iff]
    rintro (h0 | h0)
    · omega
    · simp [h0] at hpos
  · rw [hall]
    exact hlow.trans_lt (by norm_num)
  · rintro e ⟨⟩
    omega
  · have hscale : point - 1 - ((digits.drop 1).length : Int) = d.exponent := by
      rw [List.length_drop]
      omega
    rw [Spelling.decimal, hall]
    simp only [Spelling.scale, Option.getD_some, hscale]
  · simp [Spelling.chars]

/-- A decimal is written as the style spells it. -/
theorem NumberStyle.exists_spelling (style : NumberStyle) (hstyle : style.positionalBelow ≤ 16)
    {d : Decimal} (hdigits : d.digits ≠ 0) (hlow : d.digits ≤ 10 ^ 17)
    (hnear : -330 ≤ (Binary64.decimalLength d.digits : Int) + d.exponent ∧
      (Binary64.decimalLength d.digits : Int) + d.exponent ≤ 310) :
    ∃ s : Spelling, s.Regular ∧ s.decimal = style.spelled d ∧
      (style.decimal d).toList = s.chars style.signedExponent := by
  simp only [NumberStyle.decimal, String.toList_ofList]
  split
  · rename_i hpoint
    simp only [Bool.and_eq_true, decide_eq_true_eq] at hpoint
    have hspelled : style.spelled d = d.pointed := if_pos hpoint
    rw [hspelled]
    split
    · obtain ⟨s, hs, hd, hchars⟩ := spelling_of_point_le hlow rfl ‹_›
      exact ⟨s, hs, hd, (hchars _).symm⟩
    · obtain ⟨s, hs, hd, hchars⟩ := spelling_of_point_pos hdigits hlow rfl (by omega) (by omega)
      exact ⟨s, hs, hd, (hchars _).symm⟩
  · rename_i hpoint
    simp only [Bool.and_eq_true, decide_eq_true_eq] at hpoint
    have hspelled : style.spelled d = d := if_neg hpoint
    obtain ⟨s, hs, hd, hchars⟩ := spelling_of_exponent hdigits hlow rfl hnear
    refine ⟨s, hs, hd.trans hspelled.symm, ?_⟩
    rw [hchars, Spelling.exponentChars]
    simp

/-- **A finite number is written in a spelling that stands for it.** -/
theorem NumberStyle.exists_spelling_write (style : NumberStyle)
    (hstyle : style.positionalBelow ≤ 16) {negative : Bool} {m e : Nat}
    (hcanonical : (Binary64.finite negative m e).Canonical) :
    ∃ s : Spelling, s.Regular ∧ s.decimal = style.written m e ∧
      s.number negative = .finite negative m e ∧
      (style.write (.finite negative m e)).toList =
        (if negative then ['-'] else []) ++ s.chars style.signedExponent := by
  have hsign (s : String) : (if negative then "-" ++ s else s).toList =
      (if negative then ['-'] else []) ++ s.toList := by
    cases negative <;> simp
  obtain ⟨bits, full, small⟩ := Binary64.canonical_finite_iff.1 hcanonical
  simp only [NumberStyle.write]
  by_cases hm : m = 0
  · obtain rfl : e = 0 := full.resolve_right (by omega)
    subst hm
    refine ⟨.zero, Spelling.regular_zero, rfl, Spelling.number_zero negative, ?_⟩
    rw [hsign]
    simp [Spelling.chars, Spelling.zero]
  · have hpositive : (Binary64.finite false m e).Canonical := .finite bits full small
    obtain ⟨hback, hle⟩ := Binary64.readsBack_shortest style.tieUp hm hpositive
    obtain ⟨s, hs, hd, hchars⟩ := style.exists_spelling hstyle
      (Binary64.digits_ne_zero_of_readsBack hm hback) hle
      (Binary64.point_bounds_of_readsBack hm hback)
    refine ⟨s, hs, by rw [hd, NumberStyle.written, if_neg hm], ?_, ?_⟩
    · rw [Spelling.number, hd, style.ofDecimal_spelled]
      rw [Binary64.readsBack_iff] at hback
      cases negative
      · exact hback
      · rw [show true = !false from rfl, ← Binary64.neg_ofDecimal, hback]
        rfl
    · rw [hsign, if_neg hm, hchars]

/-! ### Reading a spelling -/

namespace Spelling

theorem readExponent?_exponentChars (signed : Bool) (e : Int) :
    readExponent? (exponentChars signed e) = some e := by
  have hsign : takeSign ((if e < 0 then ['-'] else if signed then ['+'] else []) ++
      Nat.toDigits 10 e.natAbs) = (decide (e < 0), Nat.toDigits 10 e.natAbs) := by
    split
    · simp [takeSign, *]
    · cases signed
      · obtain ⟨c, cs, hd, hdigit⟩ := exists_toDigits_eq_cons e.natAbs
        rw [if_neg Bool.false_ne_true, List.nil_append, hd,
          takeSign_of_isDigit (hdigit c (by simp))]
        simp [*]
      · simp [takeSign, *]
  have hall : (Nat.toDigits 10 e.natAbs).all Char.isDigit = true :=
    List.all_eq_true.2 fun c => isDigit_of_mem_toDigits
  have hvalue : (if e < 0 then -(e.natAbs : Int) else e.natAbs) = e := by omega
  simp only [exponentChars, List.cons_append, readExponent?, beq_self_eq_true, Bool.true_or,
    if_true, hsign, hall, List.isEmpty_eq_false_iff.2 Nat.toDigits_ne_nil,
    decimalValue_toDigits, Bool.not_true, Bool.or_self, Bool.false_eq_true, if_false,
    decide_eq_true_eq, hvalue]

/-- What stands behind the digits of a spelling is no digit. -/
theorem head?_exponentChars (signed : Bool) (exponent : Option Int) :
    (exponent.elim [] (exponentChars signed)).head?.any Char.isDigit = false := by
  cases exponent <;> rfl

theorem readExponent?_elim (signed : Bool) (exponent : Option Int) :
    readExponent? (exponent.elim [] (exponentChars signed)) = some (exponent.getD 0) := by
  cases exponent with
  | none => rfl
  | some e => exact readExponent?_exponentChars signed e

/-- **A spelling reads back as the number that it stands for.** -/
theorem Regular.readDecimal?_chars {s : Spelling} (h : s.Regular) (negative signed : Bool) :
    readDecimal? negative (s.chars signed) = some (s.number negative) := by
  obtain ⟨front, back, exponent⟩ := s
  have hfront : front.isEmpty = false := List.isEmpty_eq_false_iff.2 h.front_ne_nil
  have hread := readExponent?_elim signed exponent
  by_cases hback : back = []
  · -- without a point there is an exponent behind the digits
    subst hback
    obtain ⟨e, rfl⟩ := Option.isSome_iff_exists.1 (h.isFraction.resolve_left (by simp))
    simp only [Option.elim_some, exponentChars, List.cons_append] at hread
    simp only [chars, List.isEmpty_nil, if_true, List.append_nil, Option.elim_some, exponentChars,
      List.cons_append]
    generalize (if e < 0 then ['-'] else if signed then ['+'] else []) ++
      Nat.toDigits 10 e.natAbs = tail at *
    have hwhole := takeWhile_append_eq h.isDigit_front ('e' :: tail) rfl
    simp [readDecimal?, hwhole, hread, hfront, number, decimal, scale]
  · have hexponent := head?_exponentChars signed exponent
    simp only [chars, List.isEmpty_eq_false_iff.2 hback, Bool.false_eq_true, if_false,
      List.append_assoc]
    generalize exponent.elim [] (exponentChars signed) = tail at *
    have hwhole := takeWhile_append_eq h.isDigit_front ('.' :: (back ++ tail)) rfl
    have hfraction := takeWhile_append_eq h.isDigit_back _ hexponent
    simp [readDecimal?, hwhole, hfraction, hread, hfront, number, decimal, scale]

end Spelling

/-- The first character of a spelling is a digit. -/
theorem Spelling.Regular.exists_chars_eq_cons {s : Spelling} (h : s.Regular) (signed : Bool) :
    ∃ c cs, s.chars signed = c :: cs ∧ c.isDigit = true := by
  obtain ⟨front, back, exponent⟩ := s
  cases front with
  | nil => exact absurd rfl h.front_ne_nil
  | cons c cs => exact ⟨c, _, rfl, h.isDigit_front c (by simp)⟩

theorem toLower_of_isDigit {c : Char} (h : c.isDigit = true) : c.toLower = c := by
  simp only [Char.isDigit, ge_iff_le, Bool.and_eq_true, decide_eq_true_eq,
    UInt32.le_iff_toNat_le, Char.reduceVal, UInt32.reduceToNat] at h
  rw [Char.toLower, dif_neg]
  simp only [ge_iff_le, UInt32.le_iff_toNat_le, Char.reduceVal, UInt32.reduceToNat]
  omega

/-- A text that begins with a digit is none of the words for what is not finite. -/
theorem readNumber?_eq_readDecimal? {cs : List Char}
    (h : (takeSign cs).2.head?.any Char.isDigit = true) :
    readNumber? cs = readDecimal? (takeSign cs).1 (takeSign cs).2 := by
  rcases hsign : takeSign cs with ⟨negative, rest⟩
  rw [hsign] at h
  cases rest with
  | nil => simp at h
  | cons c rest =>
    have hc : c.isDigit = true := by simpa using h
    have hword (w : String) (hw : w.toList.head?.any Char.isDigit = false) :
        (String.ofList ((c :: rest).map Char.toLower) == w) = false := by
      rw [beq_eq_false_iff_ne]
      rintro rfl
      simp [toLower_of_isDigit hc, hc] at hw
    simp only [readNumber?, hsign, hword "inf" rfl, hword "infinity" rfl, hword "nan" rfl,
      Bool.or_self, Bool.false_eq_true, if_false]

/-- **A finite number reads back** from what any style makes of it. -/
theorem NumberStyle.readNumber?_write (style : NumberStyle) (hstyle : style.positionalBelow ≤ 16)
    {negative : Bool} {m e : Nat} (hcanonical : (Binary64.finite negative m e).Canonical) :
    readNumber? (style.write (.finite negative m e)).toList = some (.finite negative m e) := by
  obtain ⟨s, hs, -, hnumber, htext⟩ := style.exists_spelling_write hstyle hcanonical
  obtain ⟨c, cs, hchars, hc⟩ := hs.exists_chars_eq_cons style.signedExponent
  have hsign : takeSign ((if negative then ['-'] else []) ++ s.chars style.signedExponent) =
      (negative, s.chars style.signedExponent) := by
    cases negative
    · rw [if_neg Bool.false_ne_true, List.nil_append, hchars, takeSign_of_isDigit hc]
    · rfl
  rw [htext, readNumber?_eq_readDecimal? (by rw [hsign, hchars]; simp [hc]), hsign,
    hs.readDecimal?_chars, hnumber]

end DocBlocks
