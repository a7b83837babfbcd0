import DocBlocks.Proofs.Number.Binary64

/-!
# Whole numbers without rounding

`isWhole_ofDecimal`: a whole number of at most 53 bits, times a power of two, is a number of double
precision itself. So are the powers of ten up to `10 ^ 22`, since `5 ^ 22` has no more bits than
that.

One operation on such numbers rounds once: a decimal with few digits and a small exponent comes out
of a single multiplication or division as the number that it is nearest to
(`rescaled_eq_ofDecimal`).
-/

namespace DocBlocks.Binary64

/-- A value that a number has exactly is rounded to it. -/
theorem round_eq_of_eq {negative : Bool} {num den m e : Nat} (hden : 0 < den)
    (hcanonical : (finite negative m e).Canonical)
    (h : num * 2 ^ unitExponent = m * 2 ^ e * den) :
    round negative num den = finite negative m e := by
  refine round_eq_of_near hden hcanonical ?_
  have hden' : (den : ℚ) ≠ 0 := by exact_mod_cast hden.ne'
  have hvalue : (num * 2 ^ unitExponent / den : ℚ) = m * 2 ^ e := by
    rw [div_eq_iff hden']
    exact_mod_cast h
  have hpos : (0 : ℚ) < 2 ^ e := by positivity
  rw [hvalue]
  exact near_of_le le_rfl (by linarith)

/-! ### Whole numbers -/

/-- Whether a number is a whole number, without rounding. -/
def IsWhole (x : Binary64) (n : Nat) : Prop :=
  ∃ m e, x = finite false m e ∧ m * 2 ^ e = n * 2 ^ unitExponent

/-- The significand of a whole number is its bits, shifted to the front. -/
theorem exists_canonical {a b : Nat} (ha : a ≠ 0) (hbits : a < 2 ^ 53) (hb : b ≤ 900) :
    ∃ m e, m ≠ 0 ∧ (finite false m e).Canonical ∧ m * 2 ^ e = a * 2 ^ b * 2 ^ unitExponent := by
  have hlog : a.log2 < 53 := (Nat.log2_lt ha).2 hbits
  have hshift : 2 ^ a.log2 * 2 ^ (52 - a.log2) = 2 ^ 52 := by
    rw [← pow_add]
    congr 1
    omega
  have hlow : 2 ^ 52 ≤ a * 2 ^ (52 - a.log2) := by
    rw [← hshift]
    exact Nat.mul_le_mul_right _ (Nat.log2_self_le ha)
  have hhigh : a * 2 ^ (52 - a.log2) < 2 ^ 53 := by
    have hnext : 2 ^ (a.log2 + 1) * 2 ^ (52 - a.log2) = 2 ^ 53 := by
      rw [← pow_add]
      congr 1
      omega
    rw [← hnext]
    exact Nat.mul_lt_mul_of_pos_right Nat.lt_log2_self (by positivity)
  have hunit : unitExponent = 1074 := rfl
  have hmax : maxScale = 2045 := rfl
  refine ⟨a * 2 ^ (52 - a.log2), unitExponent + b - (52 - a.log2), by omega,
    .finite hhigh (.inr hlow) (by omega), ?_⟩
  rw [Nat.mul_assoc, ← pow_add, Nat.mul_assoc, ← pow_add]
  congr 2
  omega

/-- **A whole number of few bits, times a power of two, is not rounded.** -/
theorem isWhole_ofDecimal {a b : Nat} (hbits : a < 2 ^ 53) (hb : b ≤ 900) :
    (ofDecimal false (a * 2 ^ b) 0).IsWhole (a * 2 ^ b) := by
  by_cases ha : a = 0
  · refine ⟨0, 0, ?_, by simp [ha]⟩
    rw [ha, Nat.zero_mul, ofDecimal_zero]
    rfl
  obtain ⟨m, e, hm, hcanonical, hvalue⟩ := exists_canonical ha hbits hb
  refine ⟨m, e, ofDecimal_eq_of_near (by positivity) hm hcanonical ?_, hvalue⟩
  have hvalue' : ((a * 2 ^ b : Nat) * 10 ^ (0 : Int) * 2 ^ unitExponent : ℚ) = m * 2 ^ e := by
    rw [zpow_zero, mul_one]
    exact_mod_cast hvalue.symm
  have hpos : (0 : ℚ) < 2 ^ e := by positivity
  rw [hvalue']
  exact near_of_le le_rfl (by linarith)

/-- The powers of ten up to the twenty-second are not rounded. -/
theorem isWhole_ofDecimal_pow {k : Nat} (hk : k ≤ 22) : (ofDecimal false 1 k).IsWhole (10 ^ k) := by
  have hfive : 5 ^ k < 2 ^ 53 :=
    (Nat.pow_le_pow_right (by decide) hk).trans_lt (by norm_num)
  have hten : (5 * 2) ^ k = 5 ^ k * 2 ^ k := mul_pow 5 2 k
  have hzeros := ofDecimal_mul_pow false 1 k 0
  rw [one_mul, zero_add] at hzeros
  have hwhole := isWhole_ofDecimal hfive (show k ≤ 900 by omega)
  rw [← hten] at hwhole
  rwa [← hzeros]

/-! ### One operation -/

theorem timesPowerOfTen_eq_round {x : Binary64} {n k : Nat} (hx : x.IsWhole n) (hk : k ≤ 22) :
    x.timesPowerOfTen k = round false (n * 10 ^ k) 1 := by
  obtain ⟨m, e, rfl, hvalue⟩ := hx
  obtain ⟨m', e', hpower, hvalue'⟩ := isWhole_ofDecimal_pow hk
  -- the equation of the definition would compute the power of two in it
  delta timesPowerOfTen
  rw [hpower]
  dsimp only
  rw [Nat.pow_eq, Nat.pow_eq, Nat.pow_eq]
  have hunit : 0 < 2 ^ unitExponent := by positivity
  generalize 2 ^ unitExponent = unit at *
  have hproduct : m * 2 ^ e * (m' * 2 ^ e') = n * 10 ^ k * (unit * unit) := by
    rw [hvalue, hvalue']
    ring
  have hscaled := round_mul_right false (Nat.mul_pos hunit hunit) (n * 10 ^ k) 1
  rwa [one_mul, ← hproduct] at hscaled

theorem dividedByPowerOfTen_eq_round {x : Binary64} {n k : Nat} (hx : x.IsWhole n) (hk : k ≤ 22) :
    x.dividedByPowerOfTen k = round false n (10 ^ k) := by
  obtain ⟨m, e, rfl, hvalue⟩ := hx
  obtain ⟨m', e', hpower, hvalue'⟩ := isWhole_ofDecimal_pow hk
  delta dividedByPowerOfTen
  rw [hpower]
  dsimp only
  rw [Nat.pow_eq, Nat.pow_eq]
  have hunit : 0 < 2 ^ unitExponent := by positivity
  generalize 2 ^ unitExponent = unit at *
  rw [hvalue, hvalue']
  exact round_mul_right false hunit n (10 ^ k)

/-- A number times a power of ten that is rounded first, also a negative power. -/
def rescaled (x : Binary64) (k : Int) : Binary64 :=
  if 0 ≤ k then x.timesPowerOfTen k.toNat else x.dividedByPowerOfTen (-k).toNat

/-- **Few digits and a small exponent are rounded once**, and so to the number that the decimal is
nearest to. -/
theorem rescaled_eq_ofDecimal {digits : Nat} {k : Int} (hdigits : digits < 2 ^ 53)
    (hk : k.natAbs ≤ 22) : (ofDecimal false digits 0).rescaled k = ofDecimal false digits k := by
  have hwhole : (ofDecimal false digits 0).IsWhole digits := by
    have h := isWhole_ofDecimal hdigits (Nat.zero_le 900)
    rwa [pow_zero, mul_one] at h
  have hrescaled : (ofDecimal false digits 0).rescaled k =
      round false (digits * 10 ^ k.toNat) (10 ^ (-k).toNat) := by
    unfold rescaled
    split
    · rw [timesPowerOfTen_eq_round hwhole (by omega), show (-k).toNat = 0 by omega, pow_zero]
    · rw [dividedByPowerOfTen_eq_round hwhole (by omega), show k.toNat = 0 by omega, pow_zero,
        mul_one]
  rw [hrescaled]
  by_cases hzero : digits = 0
  · have hcanonical : (finite false 0 0).Canonical :=
      .finite (by norm_num) (.inl rfl) (Nat.zero_le _)
    rw [hzero, ofDecimal_zero, zero]
    exact round_eq_of_eq (by positivity) hcanonical (by simp)
  · -- no more than sixteen digits
    have hlength : decimalLength digits ≤ 16 :=
      (Nat.length_toDigits_le_iff (by decide) (by decide)).2 (hdigits.trans (by norm_num))
    exact (ofDecimal_eq_round hzero (by omega) (by omega)).symm

/-- A quarter comes out of one division. -/
example : (ofDecimal false 25 0).rescaled (-2) = ofDecimal false 25 (-2) := by decide +kernel

end DocBlocks.Binary64
