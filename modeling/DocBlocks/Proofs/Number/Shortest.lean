import DocBlocks.Number.Shortest
import DocBlocks.Proofs.Number.Binary64

/-!
# The shortest decimal of a number reads back

`readsBack_shortest`: the shortest decimal of a positive number stands for that number, and it has
at most seventeen digits.

Seventeen digits are enough since the decimals with as many digits as that lie closer together than
the numbers do: `10 ^ 16` is larger than `2 ^ 53`. The two decimals around a number enclose it, and
if the upper one is too far away for rounding, the lower one is near (`near_or_near`).
-/

namespace DocBlocks.Binary64

/-! ### Where the decimal point stands -/

/-- A number that counts as positive, as a rational number. -/
def magnitude (m e : Nat) : ℚ := m * 2 ^ e / 2 ^ unitExponent

theorem lifted_eq (m e : Nat) :
    lifted m e = m * 2 ^ e * 10 ^ liftExponent / 2 ^ unitExponent := by
  simp only [lifted, Nat.pow_eq]

theorem unit_le_lift : 2 ^ unitExponent ≤ 10 ^ liftExponent := by decide +kernel

theorem lifted_ne_zero {m : Nat} (hm : m ≠ 0) (e : Nat) : lifted m e ≠ 0 := by
  rw [lifted_eq]
  refine (Nat.div_pos ?_ (by positivity)).ne'
  calc 2 ^ unitExponent ≤ 10 ^ liftExponent := unit_le_lift
    _ ≤ m * 2 ^ e * 10 ^ liftExponent := Nat.le_mul_of_pos_left _ (by positivity)

/-- A whole quotient and the quotient as a rational number. -/
theorem div_bounds (n : Nat) {d : Nat} (hd : 0 < d) :
    ((n / d : Nat) : ℚ) ≤ (n : ℚ) / d ∧ (n : ℚ) / d < (n / d : Nat) + 1 := by
  refine ⟨Nat.cast_div_le, ?_⟩
  rw [div_lt_iff₀ (by exact_mod_cast hd), mul_comm]
  exact_mod_cast Nat.lt_mul_div_succ n hd

/-- The whole part of a positive number that is lifted, as a rational number. -/
theorem lifted_bounds (m e : Nat) :
    (lifted m e : ℚ) ≤ magnitude m e * 10 ^ liftExponent ∧
      magnitude m e * 10 ^ liftExponent < lifted m e + 1 := by
  have heq : magnitude m e * 10 ^ liftExponent =
      ((m * 2 ^ e * 10 ^ liftExponent : Nat) : ℚ) / (2 ^ unitExponent : Nat) := by
    unfold magnitude
    push_cast
    ring
  rw [heq, lifted_eq]
  exact div_bounds _ (by positivity)

/-- A positive number lies between the powers of ten that the place of its point tells. -/
theorem magnitude_bounds {m : Nat} (hm : m ≠ 0) (e : Nat) :
    (10 : ℚ) ^ (pointPosition m e - 1) ≤ magnitude m e ∧
      magnitude m e < 10 ^ pointPosition m e := by
  obtain ⟨low, high⟩ := lifted_bounds m e
  have hlift : (0 : ℚ) < 10 ^ liftExponent := by positivity
  obtain ⟨l, hl⟩ := Nat.exists_eq_succ_of_ne_zero (decimalLength_pos (lifted m e)).ne'
  have hlow : (10 : ℚ) ^ l ≤ lifted m e := by
    exact_mod_cast pow_le_of_lt_decimalLength (lifted_ne_zero hm e) (show l < _ by omega)
  have hhigh : (lifted m e : ℚ) + 1 ≤ 10 ^ (l + 1) := by
    exact_mod_cast hl ▸ lt_pow_decimalLength (lifted m e)
  have hpoint : pointPosition m e = (l + 1 : Nat) - (liftExponent : Int) := by
    rw [pointPosition, hl]
  constructor
  · rw [show pointPosition m e - 1 = (l : Int) - liftExponent by omega, zpow_sub₀ (by norm_num),
      zpow_natCast, zpow_natCast, div_le_iff₀ hlift]
    exact hlow.trans low
  · rw [hpoint, zpow_sub₀ (by norm_num), zpow_natCast, zpow_natCast, lt_div_iff₀ hlift]
    exact high.trans_le hhigh

/-! ### The decimals around a number -/

theorem stepsOf_bounds (m e : Nat) (step : Int) :
    ((stepsOf m e step).count : ℚ) * 10 ^ step ≤ magnitude m e ∧
      magnitude m e < ((stepsOf m e step).count + 1) * 10 ^ step := by
  have hstep : (0 : ℚ) < 10 ^ step := by positivity
  have hcount : (stepsOf m e step).count = m * 2 ^ e * 10 ^ (-step).toNat /
      (2 ^ unitExponent * 10 ^ step.toNat) := by
    simp only [stepsOf, Nat.pow_eq]
  have heq : magnitude m e / 10 ^ step = ((m * 2 ^ e * 10 ^ (-step).toNat : Nat) : ℚ) /
      (2 ^ unitExponent * 10 ^ step.toNat : Nat) := by
    have hsplit : step = (step.toNat : Int) - ((-step).toNat : Int) := by omega
    conv_lhs => rw [hsplit, zpow_sub₀ (by norm_num), zpow_natCast, zpow_natCast]
    unfold magnitude
    push_cast
    field_simp
  rw [← le_div_iff₀ hstep, ← div_lt_iff₀ hstep, heq, hcount]
  exact div_bounds _ (by positivity)

/-- Counted in steps of its own `n`th digit a number has `n` digits. -/
theorem count_stepsOf_lt {m : Nat} (hm : m ≠ 0) (e n : Nat) :
    (stepsOf m e (pointPosition m e - n)).count < 10 ^ n := by
  have hstep : (0 : ℚ) < 10 ^ (pointPosition m e - n) := by positivity
  have h := (stepsOf_bounds m e (pointPosition m e - n)).1.trans_lt (magnitude_bounds hm e).2
  have hsplit : (10 : ℚ) ^ pointPosition m e = 10 ^ n * 10 ^ (pointPosition m e - n) := by
    rw [← zpow_natCast, ← zpow_add₀ (by norm_num)]
    congr 1
    omega
  rw [hsplit] at h
  exact_mod_cast lt_of_mul_lt_mul_right h hstep.le

theorem le_count_stepsOf {m : Nat} (hm : m ≠ 0) (e n : Nat) :
    10 ^ n ≤ (stepsOf m e (pointPosition m e - (n + 1 : Nat))).count := by
  have hstep : (0 : ℚ) < 10 ^ (pointPosition m e - (n + 1 : Nat)) := by positivity
  have h := (magnitude_bounds hm e).1.trans_lt
    (stepsOf_bounds m e (pointPosition m e - (n + 1 : Nat))).2
  have hsplit : (10 : ℚ) ^ (pointPosition m e - 1) =
      10 ^ n * 10 ^ (pointPosition m e - (n + 1 : Nat)) := by
    rw [← zpow_natCast, ← zpow_add₀ (by norm_num)]
    congr 1
    push_cast
    ring
  rw [hsplit] at h
  exact Nat.lt_succ_iff.1 (by exact_mod_cast lt_of_mul_lt_mul_right h hstep.le)

/-- **Of two decimals around a number that lie close together, one is near.** -/
theorem near_or_near {m e : Nat} {low high : ℚ} (hm : m < 2 ^ 53) (below : low ≤ m * 2 ^ e)
    (above : m * 2 ^ e < high) (hclose : (high - low) * 10 ^ 16 ≤ m * 2 ^ e) :
    Near low m e ∨ Near high m e := by
  have he : (0 : ℚ) < 2 ^ e := by positivity
  by_cases hhigh : high < (m + 1 / 2) * 2 ^ e
  · exact .inr (near_of_le above.le hhigh)
  refine .inl ⟨by linarith, ?_, ?_⟩
  · -- the two lie less than one step of the significand apart
    have hm : (m : ℚ) * 2 ^ e < 2 ^ 53 * 2 ^ e := by
      have : (m : ℚ) < 2 ^ 53 := by exact_mod_cast hm
      exact mul_lt_mul_of_pos_right this he
    linarith
  · refine .inr (or_iff_not_imp_left.2 fun h52 => ?_)
    -- and less than half of one if the significand is the smallest
    have hm : (m : ℚ) * 2 ^ e ≤ 2 ^ 52 * 2 ^ e := by
      have : (m : ℚ) ≤ 2 ^ 52 := by exact_mod_cast not_lt.1 h52
      exact mul_le_mul_of_nonneg_right this he.le
    linarith

/-! ### Shortest decimals -/

theorem readsBack_iff {m e : Nat} {d : Decimal} :
    readsBack m e d = true ↔ ofDecimal false d.digits d.exponent = finite false m e :=
  beq_iff_eq

theorem readsBack_trimmed {m e : Nat} {d : Decimal} (h : readsBack m e d = true) :
    readsBack m e d.trimmed = true := by
  unfold Decimal.trimmed
  split
  · rename_i hlast
    have hdigits : d.digits = d.digits / 10 * 10 ^ 1 := by omega
    rw [readsBack_iff, hdigits, ofDecimal_mul_pow] at h
    exact readsBack_iff.2 h
  · exact h

theorem digits_ne_zero_of_readsBack {m e : Nat} {d : Decimal} (hm : m ≠ 0)
    (h : readsBack m e d = true) : d.digits ≠ 0 := by
  intro h0
  rw [readsBack_iff, h0, ofDecimal_zero] at h
  injection h with _ h _
  exact hm h.symm

/-- The point of a decimal that reads back is not far away. -/
theorem point_bounds_of_readsBack {m e : Nat} {d : Decimal} (hm : m ≠ 0)
    (h : readsBack m e d = true) :
    -330 ≤ (decimalLength d.digits : Int) + d.exponent ∧
      (decimalLength d.digits : Int) + d.exponent ≤ 310 := by
  have hdigits := digits_ne_zero_of_readsBack hm h
  rw [readsBack_iff, ofDecimal, if_neg hdigits] at h
  dsimp only at h
  split at h
  · cases h
  · split at h
    · injection h with _ h _
      exact absurd h.symm hm
    · omega

/-- A decimal that is chosen is one of the two, and reads back. -/
theorem Steps.of_choose? {s : Steps} {tieUp lower upper : Bool} {step : Int} {d : Decimal}
    (h : s.choose? tieUp step lower upper = some d) :
    (d = ⟨s.count, step⟩ ∧ lower = true) ∨ (d = ⟨s.count + 1, step⟩ ∧ upper = true) := by
  cases lower <;> cases upper <;> simp only [choose?, Option.some.injEq, reduceCtorEq] at h
  · exact .inr ⟨h.symm, rfl⟩
  · exact .inl ⟨h.symm, rfl⟩
  · subst h
    split
    · exact .inr ⟨rfl, rfl⟩
    · exact .inl ⟨rfl, rfl⟩

theorem Steps.isSome_choose? {s : Steps} {tieUp lower upper : Bool} {step : Int}
    (h : lower = true ∨ upper = true) : (s.choose? tieUp step lower upper).isSome = true := by
  cases lower <;> cases upper <;> first | rfl | simp at h

/-- A decimal of some length is one of the two around the number, and reads back. -/
theorem readsBack_of_decimalOfLength? {tieUp : Bool} {m e n : Nat} {d : Decimal}
    (h : decimalOfLength? tieUp m e n = some d) :
    readsBack m e d = true ∧ d.digits ≤ (stepsOf m e (pointPosition m e - n)).count + 1 := by
  rcases Steps.of_choose? h with ⟨rfl, hback⟩ | ⟨rfl, hback⟩
  · exact ⟨hback, Nat.le_succ _⟩
  · exact ⟨hback, le_rfl⟩

/-- **Seventeen digits are enough.** -/
theorem isSome_decimalOfLength? (tieUp : Bool) {m e : Nat} (hm : m ≠ 0)
    (hcanonical : (finite false m e).Canonical) :
    (decimalOfLength? tieUp m e 17).isSome = true := by
  obtain ⟨below, above⟩ := stepsOf_bounds m e (pointPosition m e - (17 : Nat))
  have hcount : (stepsOf m e (pointPosition m e - (17 : Nat))).count ≠ 0 :=
    ((by positivity : 0 < 10 ^ 16).trans_le (le_count_stepsOf hm e 16)).ne'
  have hunit : (0 : ℚ) < 2 ^ unitExponent := by positivity
  have hmagnitude : magnitude m e * 2 ^ unitExponent = m * 2 ^ e :=
    div_mul_cancel₀ _ hunit.ne'
  have hclose : (10 : ℚ) ^ (pointPosition m e - (17 : Nat)) * 10 ^ 16 ≤ magnitude m e := by
    have hpoint : pointPosition m e - 1 = pointPosition m e - (17 : Nat) + (16 : Nat) := by omega
    rw [← zpow_natCast, ← zpow_add₀ (by norm_num), ← hpoint]
    exact (magnitude_bounds hm e).1
  refine Steps.isSome_choose? ?_
  generalize pointPosition m e - (17 : Nat) = step at *
  generalize stepsOf m e step = s at *
  rw [readsBack_iff, readsBack_iff]
  generalize hu : (2 : ℚ) ^ unitExponent = unit at *
  have hnear : Near (s.count * 10 ^ step * unit) m e ∨
      Near ((s.count + 1 : Nat) * 10 ^ step * unit) m e :=
    near_or_near (canonical_finite_iff.1 hcanonical).1 (by nlinarith) (by push_cast; nlinarith)
      (by push_cast; nlinarith)
  rw [← hu] at hnear
  exact hnear.imp (ofDecimal_eq_of_near hcount hm hcanonical)
    (ofDecimal_eq_of_near (Nat.succ_ne_zero _) hm hcanonical)

/-- **The shortest decimal of a number reads back**, and it has at most seventeen digits. -/
theorem readsBack_shortest (tieUp : Bool) {m e : Nat} (hm : m ≠ 0)
    (hcanonical : (finite false m e).Canonical) :
    readsBack m e (shortest tieUp m e) = true ∧ (shortest tieUp m e).digits ≤ 10 ^ 17 := by
  have hsome : ((List.range maxDigits).findSome? fun n =>
      decimalOfLength? tieUp m e (n + 1)).isSome = true :=
    List.findSome?_isSome_iff.2 ⟨16, by decide, isSome_decimalOfLength? tieUp hm hcanonical⟩
  obtain ⟨d, hd⟩ := Option.isSome_iff_exists.1 hsome
  obtain ⟨n, hn, hd'⟩ := List.exists_of_findSome?_eq_some hd
  obtain ⟨hback, hle⟩ := readsBack_of_decimalOfLength? hd'
  have hlt := count_stepsOf_lt hm e (n + 1)
  have hpow : 10 ^ (n + 1) ≤ 10 ^ 17 :=
    Nat.pow_le_pow_right (by decide) (List.mem_range.1 hn)
  simp only [shortest, hd, Option.map_some, Option.getD_some]
  refine ⟨readsBack_trimmed hback, ?_⟩
  have htrimmed : d.trimmed.digits ≤ d.digits := by
    unfold Decimal.trimmed
    split <;> simp only [le_refl]
    omega
  omega

end DocBlocks.Binary64
