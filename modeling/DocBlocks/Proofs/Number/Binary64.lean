import DocBlocks.Number.Binary64
import Mathlib

/-!
# Rounding to double precision

Every number that comes out of rounding is `Canonical`: its significand has 53 bits unless its scale
is zero, and its scale is not too large. A fraction that lies nearer to a canonical number than the
middle between the number and its neighbours is rounded to it (`round_eq_of_near`, and
`ofDecimal_eq_of_near` for decimals). Only the value of a fraction counts (`round_mul_right`), and
so a decimal may have zeros moved from its digits to its exponent (`ofDecimal_mul_pow`).

Fractions are counted in units of the smallest number. The neighbour below the smallest significand
of 53 bits is only half as far away as the others, which is the one case of `Near` that is not
symmetric.
-/

namespace DocBlocks.Binary64

/-- The numbers whose parts are those that rounding gives. -/
inductive Canonical : Binary64 → Prop
  | finite {negative : Bool} {m e : Nat} (bits : m < 2 ^ 53) (full : e = 0 ∨ 2 ^ 52 ≤ m)
    (small : e ≤ maxScale) : Canonical (finite negative m e)
  | infinite (negative : Bool) : Canonical (infinite negative)
  | undefined : Canonical undefined

theorem canonical_finite_iff {negative : Bool} {m e : Nat} :
    (finite negative m e).Canonical ↔ m < 2 ^ 53 ∧ (e = 0 ∨ 2 ^ 52 ≤ m) ∧ e ≤ maxScale :=
  ⟨fun | .finite bits full small => ⟨bits, full, small⟩, fun ⟨bits, full, small⟩ =>
    .finite bits full small⟩

instance : DecidablePred Canonical
  | finite _ _ _ => decidable_of_iff _ canonical_finite_iff.symm
  | infinite negative => isTrue (.infinite negative)
  | undefined => isTrue .undefined

/-! ### Rounded quotients -/

theorem roundDiv_bounds (n d : Nat) : n / d ≤ roundDiv n d ∧ roundDiv n d ≤ n / d + 1 := by
  simp only [roundDiv]
  split <;> omega

/-- What lies less than half a step from a whole number of steps is rounded to it. -/
theorem roundDiv_eq_of_near {n d q : Nat} (below : 2 * (q * d) < 2 * n + d)
    (above : 2 * n < 2 * (q * d) + d) : roundDiv n d = q := by
  have hd : 0 < d := by omega
  rcases Nat.lt_or_ge n (q * d) with h | h
  · obtain ⟨q, rfl⟩ : ∃ p, q = p + 1 := Nat.exists_eq_succ_of_ne_zero (by rintro rfl; omega)
    rw [Nat.succ_mul q d] at below above h
    have hdiv : n / d = q := Nat.div_eq_of_lt_le (by omega) (by rwa [Nat.succ_mul])
    have hmod : n % d + q * d = n := by rw [← hdiv, Nat.mul_comm]; exact Nat.mod_add_div n d
    simp only [roundDiv, hdiv]
    rw [if_pos]
    simp only [Bool.or_eq_true, decide_eq_true_eq]
    omega
  · have hdiv : n / d = q := Nat.div_eq_of_lt_le h (by rw [Nat.succ_mul]; omega)
    have hmod : n % d + q * d = n := by rw [← hdiv, Nat.mul_comm]; exact Nat.mod_add_div n d
    simp only [roundDiv, hdiv]
    rw [if_neg]
    simp only [Bool.or_eq_true, decide_eq_true_eq, Bool.and_eq_true, beq_iff_eq]
    omega

theorem roundDiv_mul_right {c : Nat} (hc : 0 < c) (n d : Nat) :
    roundDiv (n * c) (d * c) = roundDiv n d := by
  simp only [roundDiv, Nat.mul_div_mul_right _ _ hc, Nat.mul_mod_mul_right]
  congr 1
  rw [← Nat.mul_assoc]
  simp [Nat.mul_lt_mul_right hc, hc.ne']

/-! ### Scales -/

theorem scaleOf_eq_ite (whole : Nat) :
    scaleOf whole = if whole < 2 ^ 53 then 0 else whole.log2 + 1 - 53 := rfl

theorem scaleOf_eq {whole e : Nat} (above : whole < 2 ^ (53 + e))
    (below : e = 0 ∨ 2 ^ (52 + e) ≤ whole) : scaleOf whole = e := by
  rw [scaleOf_eq_ite]
  rcases e with - | e
  · exact if_pos above
  · have below : 2 ^ (52 + (e + 1)) ≤ whole := by simpa using below
    have hlow : 2 ^ 53 ≤ whole := (Nat.pow_le_pow_right (by decide) (by omega)).trans below
    have hlog : whole.log2 = 53 + e := (Nat.log2_eq_iff (by omega)).2 ⟨by
      rw [show 53 + e = 52 + (e + 1) by omega]; exact below, by
      rw [show 53 + e + 1 = 53 + (e + 1) by omega]; exact above⟩
    rw [if_neg (by omega), hlog]
    omega

/-- A whole number of units lies where its scale says. -/
theorem scaleOf_bounds (whole : Nat) :
    whole < 2 ^ (53 + scaleOf whole) ∧ (scaleOf whole = 0 ∨ 2 ^ (52 + scaleOf whole) ≤ whole) := by
  rw [scaleOf_eq_ite]
  split
  · simpa
  · have h53 : 53 ≤ whole.log2 := (Nat.le_log2 (by omega)).2 (by omega)
    refine ⟨?_, .inr ?_⟩
    · rw [show 53 + (whole.log2 + 1 - 53) = whole.log2 + 1 by omega]
      exact Nat.lt_log2_self
    · rw [show 52 + (whole.log2 + 1 - 53) = whole.log2 by omega]
      exact Nat.log2_self_le (by omega)

/-! ### Rounding -/

theorem bounded_eq {negative : Bool} {m scale : Nat} (h : scale ≤ maxScale) :
    bounded negative m scale = finite negative m scale := if_neg (by omega)

theorem carried_of_lt {negative : Bool} {m scale : Nat} (h : m < 2 ^ 53) :
    carried negative m scale = bounded negative m scale := if_pos h

theorem carried_full (negative : Bool) (scale : Nat) :
    carried negative (2 ^ 53) scale = bounded negative (2 ^ 52) (scale + 1) :=
  if_neg (lt_irrefl _)

/-- Rounding takes the scale of the whole units and rounds to a significand. -/
theorem round_eq (negative : Bool) (num den : Nat) :
    round negative num den =
      carried negative
        (roundDiv (num * 2 ^ unitExponent)
          (den * 2 ^ scaleOf (num * 2 ^ unitExponent / den)))
        (scaleOf (num * 2 ^ unitExponent / den)) := by
  simp only [round, Nat.pow_eq]

/-- Only the value of a fraction counts. -/
theorem round_mul_right (negative : Bool) {c : Nat} (hc : 0 < c) (num den : Nat) :
    round negative (num * c) (den * c) = round negative num den := by
  rw [round_eq, round_eq, Nat.mul_right_comm num c, Nat.mul_div_mul_right _ _ hc,
    Nat.mul_right_comm den c, roundDiv_mul_right hc]

theorem canonical_bounded {negative : Bool} {m scale : Nat} (hm : m < 2 ^ 53)
    (hscale : scale = 0 ∨ 2 ^ 52 ≤ m) : (bounded negative m scale).Canonical := by
  unfold bounded
  split
  · exact .infinite negative
  · exact .finite hm hscale (by omega)

/-- **Rounding gives canonical numbers.** -/
theorem canonical_round (negative : Bool) (num den : Nat) :
    (round negative num den).Canonical := by
  rw [round_eq]
  generalize num * 2 ^ unitExponent = units
  obtain ⟨hlt, hle⟩ := scaleOf_bounds (units / den)
  generalize scaleOf (units / den) = e at *
  have hquot : units / (den * 2 ^ e) = units / den / 2 ^ e := (Nat.div_div_eq_div_mul ..).symm
  have hm : roundDiv units (den * 2 ^ e) ≤ 2 ^ 53 := by
    have h : units / den / 2 ^ e < 2 ^ 53 :=
      Nat.div_lt_of_lt_mul (by rwa [← pow_add, Nat.add_comm e])
    have := (roundDiv_bounds units (den * 2 ^ e)).2
    omega
  have hm' : e = 0 ∨ 2 ^ 52 ≤ roundDiv units (den * 2 ^ e) := by
    refine hle.imp_right fun h => ?_
    have h : 2 ^ 52 ≤ units / den / 2 ^ e :=
      (Nat.le_div_iff_mul_le (by positivity)).2 (by rwa [← pow_add])
    exact h.trans (hquot ▸ (roundDiv_bounds units (den * 2 ^ e)).1)
  rcases hm.lt_or_eq with h | h
  · rw [carried_of_lt h]
    exact canonical_bounded h hm'
  · rw [h, carried_full]
    exact canonical_bounded (by norm_num) (.inr le_rfl)

/-! ### Nearness -/

/-- Whether a number of units lies nearer to a number than the middle between the number and its
neighbours. -/
structure Near (units : ℚ) (m e : Nat) : Prop where
  above : units < (m + 1 / 2) * 2 ^ e
  below : (m - 1 / 2) * 2 ^ e < units
  /-- The neighbour below the smallest significand is half as far away. -/
  edge : e = 0 ∨ 2 ^ 52 < m ∨ (m - 1 / 4) * 2 ^ e < units

/-- What is not below a number is near it if it lies below the middle to the next one. -/
theorem near_of_le {units : ℚ} {m e : Nat} (below : m * 2 ^ e ≤ units)
    (above : units < (m + 1 / 2) * 2 ^ e) : Near units m e := by
  have he : (0 : ℚ) < 2 ^ e := by positivity
  exact ⟨above, by nlinarith, .inr (.inr (by nlinarith))⟩

/-- **Rounding goes to the nearest number.** -/
theorem round_eq_of_near {negative : Bool} {num den m e : Nat} (hden : 0 < den)
    (hcanonical : (finite negative m e).Canonical)
    (hnear : Near (num * 2 ^ unitExponent / den) m e) : round negative num den = finite negative m e := by
  obtain ⟨hm, hscale, he⟩ := canonical_finite_iff.1 hcanonical
  have hden' : (0 : ℚ) < den := by exact_mod_cast hden
  rw [round_eq]
  have above : 2 * (num * 2 ^ unitExponent) < 2 * (m * (den * 2 ^ e)) + den * 2 ^ e := by
    have h := hnear.above
    rw [div_lt_iff₀ hden'] at h
    have h : (2 * (num * 2 ^ unitExponent) : ℚ) < 2 * (m * (den * 2 ^ e)) + den * 2 ^ e := by linarith
    exact_mod_cast h
  have below : 2 * (m * (den * 2 ^ e)) < 2 * (num * 2 ^ unitExponent) + den * 2 ^ e := by
    have h := hnear.below
    rw [lt_div_iff₀ hden'] at h
    have h : (2 * (m * (den * 2 ^ e)) : ℚ) < 2 * (num * 2 ^ unitExponent) + den * 2 ^ e := by linarith
    exact_mod_cast h
  have edge : e = 0 ∨ 2 ^ 52 < m ∨
      4 * (m * (den * 2 ^ e)) < 4 * (num * 2 ^ unitExponent) + den * 2 ^ e := by
    refine hnear.edge.imp_right (Or.imp_right fun h => ?_)
    rw [lt_div_iff₀ hden'] at h
    have h : (4 * (m * (den * 2 ^ e)) : ℚ) < 4 * (num * 2 ^ unitExponent) + den * 2 ^ e := by linarith
    exact_mod_cast h
  generalize num * 2 ^ unitExponent = units at *
  by_cases hregular : e = 0 ∨ 2 ^ 52 < m ∨ m * (den * 2 ^ e) ≤ units
  · -- the whole units have the scale of the number
    have hwhole : scaleOf (units / den) = e := by
      refine scaleOf_eq ?_ ?_
      · rw [Nat.div_lt_iff_lt_mul hden, pow_add]
        have : (m + 1) * (den * 2 ^ e) ≤ 2 ^ 53 * (den * 2 ^ e) := Nat.mul_le_mul_right _ hm
        have : 2 ^ 53 * 2 ^ e * den = 2 ^ 53 * (den * 2 ^ e) := by ring
        rw [Nat.succ_mul] at *
        omega
      · rcases hscale with h | h
        · exact .inl h
        · refine or_iff_not_imp_left.2 fun h0 => ?_
          rw [Nat.le_div_iff_mul_le hden, pow_add, Nat.mul_right_comm, Nat.mul_assoc]
          rcases hregular with h' | h' | h'
          · exact absurd h' h0
          · have := Nat.mul_le_mul_right (den * 2 ^ e) (show 2 ^ 52 + 1 ≤ m from h')
            rw [Nat.succ_mul] at this
            omega
          · exact (Nat.mul_le_mul_right _ h).trans h'
    rw [hwhole, roundDiv_eq_of_near below above, carried_of_lt hm, bounded_eq he]
  · -- the units lie below the smallest significand, and their whole part has the scale below
    simp only [not_or, not_lt, not_le] at hregular edge
    obtain ⟨h0, hmle, hlt⟩ := hregular
    obtain ⟨e, rfl⟩ := Nat.exists_eq_succ_of_ne_zero h0
    obtain rfl : m = 2 ^ 52 := le_antisymm hmle (hscale.resolve_left h0)
    have edge := (edge.resolve_left h0).resolve_left (lt_irrefl _)
    have hpow : den * 2 ^ (e + 1) = 2 * (den * 2 ^ e) := by ring
    rw [hpow] at above below edge hlt
    have hwhole : scaleOf (units / den) = e := by
      refine scaleOf_eq ?_ (.inr ?_)
      · rw [Nat.div_lt_iff_lt_mul hden, pow_add, Nat.mul_right_comm, Nat.mul_assoc]
        omega
      · rw [Nat.le_div_iff_mul_le hden, pow_add, Nat.mul_right_comm, Nat.mul_assoc]
        omega
    rw [hwhole, roundDiv_eq_of_near (q := 2 ^ 53) (by omega) (by omega), carried_full,
      bounded_eq he]

/-! ### Decimals -/

theorem lt_pow_decimalLength (n : Nat) : n < 10 ^ decimalLength n :=
  (Nat.length_toDigits_le_iff (by decide) Nat.length_toDigits_pos).1 le_rfl

theorem pow_le_of_lt_decimalLength {n k : Nat} (hn : n ≠ 0) (h : k < decimalLength n) :
    10 ^ k ≤ n := by
  rcases Nat.eq_zero_or_pos k with rfl | hk
  · simpa [Nat.one_le_iff_ne_zero]
  · by_contra hlt
    have : decimalLength n ≤ k :=
      (Nat.length_toDigits_le_iff (by decide) hk).2 (not_le.1 hlt)
    omega

theorem decimalLength_pos (n : Nat) : 0 < decimalLength n := Nat.length_toDigits_pos

theorem decimalLength_eq {n k : Nat} (low : 10 ^ k ≤ n) (high : n < 10 ^ (k + 1)) :
    decimalLength n = k + 1 := by
  refine le_antisymm ((Nat.length_toDigits_le_iff (by decide) (by omega)).2 high) ?_
  by_contra h
  have := (lt_pow_decimalLength n).trans_le (Nat.pow_le_pow_right (by decide) (not_lt.1 h))
  omega

theorem decimalLength_mul_pow {n : Nat} (hn : n ≠ 0) (k : Nat) :
    decimalLength (n * 10 ^ k) = decimalLength n + k := by
  obtain ⟨l, hl⟩ := Nat.exists_eq_succ_of_ne_zero (decimalLength_pos n).ne'
  have low : 10 ^ l ≤ n := pow_le_of_lt_decimalLength hn (by omega)
  have high : n < 10 ^ (l + 1) := (lt_pow_decimalLength n).trans_eq (by rw [hl])
  rw [hl, show l.succ + k = l + k + 1 by omega]
  refine decimalLength_eq ?_ ?_
  · rw [pow_add]
    exact Nat.mul_le_mul_right _ low
  · rw [show l + k + 1 = l + 1 + k by omega, pow_add]
    exact Nat.mul_lt_mul_of_pos_right high (by positivity)

/-- A decimal lies between the powers of ten that its size tells. -/
theorem decimal_bounds {digits : Nat} (hdigits : digits ≠ 0) (exponent : Int) :
    (10 : ℚ) ^ ((decimalLength digits : Int) + exponent - 1) ≤ digits * 10 ^ exponent ∧
      (digits * 10 ^ exponent : ℚ) < 10 ^ ((decimalLength digits : Int) + exponent) := by
  have hpow : (0 : ℚ) < 10 ^ exponent := by positivity
  have hlength := decimalLength_pos digits
  constructor
  · have low : ((10 ^ (decimalLength digits - 1) : Nat) : ℚ) ≤ digits := by
      exact_mod_cast pow_le_of_lt_decimalLength hdigits (by omega)
    have hsplit : (decimalLength digits : Int) + exponent - 1 =
        ((decimalLength digits - 1 : Nat) : Int) + exponent := by omega
    rw [hsplit, zpow_add₀ (by norm_num), zpow_natCast]
    push_cast at low
    exact mul_le_mul_of_nonneg_right low hpow.le
  · have high : (digits : ℚ) < ((10 ^ decimalLength digits : Nat) : ℚ) := by
      exact_mod_cast lt_pow_decimalLength digits
    rw [zpow_add₀ (by norm_num), zpow_natCast]
    push_cast at high
    exact mul_lt_mul_of_pos_right high hpow

theorem ofDecimal_zero (negative : Bool) (exponent : Int) :
    ofDecimal negative 0 exponent = zero negative := if_pos rfl

/-- A decimal that is neither far too large nor far too small is rounded. -/
theorem ofDecimal_eq_round {negative : Bool} {digits : Nat} {exponent : Int} (hdigits : digits ≠ 0)
    (low : -330 ≤ (decimalLength digits : Int) + exponent)
    (high : (decimalLength digits : Int) + exponent ≤ 310) :
    ofDecimal negative digits exponent =
      round negative (digits * 10 ^ exponent.toNat) (10 ^ (-exponent).toNat) := by
  simp only [ofDecimal, hdigits, if_false, not_lt.2 low, not_lt.2 high, Nat.pow_eq]
  split
  · rw [show (-exponent).toNat = 0 by omega, pow_zero]
  · rw [show exponent.toNat = 0 by omega, pow_zero, mul_one]

theorem canonical_ofDecimal (negative : Bool) (digits : Nat) (exponent : Int) :
    (ofDecimal negative digits exponent).Canonical := by
  have hzero : (zero negative).Canonical := .finite (by norm_num) (.inl rfl) (Nat.zero_le _)
  unfold ofDecimal
  dsimp only
  split
  · exact hzero
  split
  · exact .infinite negative
  split
  · exact hzero
  split <;> exact canonical_round ..

/-- Zeros can be moved from the digits of a decimal to its exponent. -/
theorem ofDecimal_mul_pow (negative : Bool) (digits k : Nat) (exponent : Int) :
    ofDecimal negative (digits * 10 ^ k) exponent = ofDecimal negative digits (exponent + k) := by
  rcases Nat.eq_zero_or_pos digits with rfl | hpos
  · rw [Nat.zero_mul, ofDecimal_zero, ofDecimal_zero]
  have hdigits : digits ≠ 0 := hpos.ne'
  have hdigits' : digits * 10 ^ k ≠ 0 := by positivity
  have hsize : (decimalLength (digits * 10 ^ k) : Int) + exponent =
      decimalLength digits + (exponent + k) := by
    rw [decimalLength_mul_pow hdigits]
    push_cast
    ring
  by_cases hhigh : (decimalLength digits : Int) + (exponent + k) ≤ 310
  · by_cases hlow : -330 ≤ (decimalLength digits : Int) + (exponent + k)
    · rw [ofDecimal_eq_round hdigits' (hsize ▸ hlow) (hsize ▸ hhigh),
        ofDecimal_eq_round hdigits hlow hhigh]
      -- the fractions differ by the zeros that the denominator takes
      obtain ⟨j, hnum, hden⟩ : ∃ j, k + exponent.toNat = (exponent + k).toNat + j ∧
          (-exponent).toNat = (-(exponent + k)).toNat + j :=
        ⟨min k (-exponent).toNat, by omega, by omega⟩
      rw [mul_assoc, ← pow_add, hnum, hden, pow_add, pow_add, ← mul_assoc,
        round_mul_right _ (by positivity)]
    · simp only [ofDecimal, hdigits, hdigits', if_false, hsize, not_lt.2 hhigh, not_le.1 hlow,
        if_true]
  · simp only [ofDecimal, hdigits, hdigits', if_false, hsize, not_le.1 hhigh, if_true]

theorem neg_bounded (negative : Bool) (m scale : Nat) :
    (bounded negative m scale).neg = bounded (!negative) m scale := by
  unfold bounded
  split <;> rfl

theorem neg_round (negative : Bool) (num den : Nat) :
    (round negative num den).neg = round (!negative) num den := by
  simp only [round, carried]
  split <;> exact neg_bounded ..

/-- The sign of a decimal is that of the number. -/
theorem neg_ofDecimal (negative : Bool) (digits : Nat) (exponent : Int) :
    (ofDecimal negative digits exponent).neg = ofDecimal (!negative) digits exponent := by
  unfold ofDecimal
  dsimp only
  split
  · rfl
  split
  · rfl
  split
  · rfl
  split <;> exact neg_round ..

theorem pow_two_lt_pow_ten : 2 ^ 1024 < 10 ^ 309 := by decide +kernel

theorem pow_two_le_pow_ten : 2 ^ 1075 ≤ 10 ^ 324 := by decide +kernel

/-- **A decimal stands for the number that it is nearest to.** -/
theorem ofDecimal_eq_of_near {negative : Bool} {digits m e : Nat} {exponent : Int}
    (hdigits : digits ≠ 0) (hm : m ≠ 0) (hcanonical : (finite negative m e).Canonical)
    (hnear : Near (digits * 10 ^ exponent * 2 ^ unitExponent) m e) :
    ofDecimal negative digits exponent = finite negative m e := by
  obtain ⟨low, high⟩ := decimal_bounds hdigits exponent
  have hunit : (0 : ℚ) < 2 ^ unitExponent := by positivity
  have hlt : (digits * 10 ^ exponent : ℚ) < 10 ^ (309 : Int) := by
    have hbits : (m + 1 / 2 : ℚ) * 2 ^ e ≤ 2 ^ 53 * 2 ^ maxScale := by
      have hm53 : (m : ℚ) + 1 ≤ 2 ^ 53 := by
        exact_mod_cast (canonical_finite_iff.1 hcanonical).1
      have he : (2 : ℚ) ^ e ≤ 2 ^ maxScale := 
        pow_le_pow_right₀ (by norm_num) (canonical_finite_iff.1 hcanonical).2.2
      exact mul_le_mul (by linarith) he (by positivity) (by positivity)
    have hsum : (2 : ℚ) ^ 53 * 2 ^ maxScale = 2 ^ 1024 * 2 ^ unitExponent := by
      rw [← pow_add, ← pow_add]
      rfl
    have hpow : (2 : ℚ) ^ 1024 < 10 ^ (309 : Int) := by exact_mod_cast pow_two_lt_pow_ten
    exact (lt_of_mul_lt_mul_right ((hnear.above.trans_le hbits).trans_eq hsum) hunit.le).trans hpow
  have hgt : (10 : ℚ) ^ (-324 : Int) < digits * 10 ^ exponent := by
    have hhalf : (1 / 2 : ℚ) ≤ (m - 1 / 2) * 2 ^ e := by
      have hm1 : (1 : ℚ) ≤ m := by exact_mod_cast Nat.one_le_iff_ne_zero.2 hm
      have he : (1 : ℚ) ≤ 2 ^ e := one_le_pow₀ (by norm_num)
      nlinarith
    have hpow : (10 : ℚ) ^ (-324 : Int) * 2 ^ unitExponent ≤ 1 / 2 := by
      have hsucc : (2 : ℚ) ^ unitExponent * 2 = 2 ^ 1075 := (pow_succ 2 unitExponent).symm
      have hten : (2 : ℚ) ^ unitExponent * 2 ≤ 10 ^ (324 : Int) := by
        rw [hsucc]
        exact_mod_cast pow_two_le_pow_ten
      rw [zpow_neg, inv_mul_le_iff₀ (by positivity)]
      generalize (10 : ℚ) ^ (324 : Int) = ten at *
      linarith
    exact lt_of_mul_lt_mul_right ((hpow.trans hhalf).trans_lt hnear.below) hunit.le
  have hsize1 : (decimalLength digits : Int) + exponent - 1 < 309 :=
    (zpow_lt_zpow_iff_right₀ (by norm_num : (1 : ℚ) < 10)).1 (low.trans_lt hlt)
  have hsize2 : -324 < (decimalLength digits : Int) + exponent :=
    (zpow_lt_zpow_iff_right₀ (by norm_num : (1 : ℚ) < 10)).1 (hgt.trans high)
  rw [ofDecimal_eq_round hdigits (by omega) (by omega)]
  refine round_eq_of_near (by positivity) hcanonical ?_
  convert hnear using 1
  have hsplit : exponent = (exponent.toNat : Int) - ((-exponent).toNat : Int) := by omega
  conv_rhs => rw [hsplit, zpow_sub₀ (by norm_num), zpow_natCast, zpow_natCast]
  push_cast
  ring

end DocBlocks.Binary64
