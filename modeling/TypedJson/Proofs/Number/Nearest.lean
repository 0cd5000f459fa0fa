import TypedJson.Proofs.Number.Widening

set_option autoImplicit false
set_option relaxedAutoImplicit false

namespace TypedJson.Number

theorem roundQuotient_bounds (n : Nat) {d : Nat} (hd : 0 < d) :
    2 * (d * roundQuotient n d) ≤ 2 * n + d ∧ 2 * n ≤ 2 * (d * roundQuotient n d) + d := by
  have division := Nat.div_add_mod n d
  have rest := Nat.mod_lt n hd
  unfold roundQuotient
  dsimp only
  split
  · omega
  · split
    · rw [Nat.mul_succ]
      omega
    · rcases Nat.mod_two_eq_zero_or_one (n / d) with even | odd
      · rw [even, Nat.add_zero]
        omega
      · rw [odd, Nat.mul_succ]
        omega

theorem abs_roundQuotient_sub_le (n : Nat) {d : Nat} (hd : 0 < d) :
    |(roundQuotient n d : ℚ) - n / d| ≤ 1 / 2 := by
  obtain ⟨upper, lower⟩ := roundQuotient_bounds n hd
  have pos : (0 : ℚ) < d := by exact_mod_cast hd
  have upper' : 2 * ((d : ℚ) * roundQuotient n d) ≤ 2 * n + d := by exact_mod_cast upper
  have lower' : 2 * (n : ℚ) ≤ 2 * (d * roundQuotient n d) + d := by exact_mod_cast lower
  have product : (d : ℚ) * (n / d) = n := mul_div_cancel₀ _ pos.ne'
  rw [abs_le]
  constructor
  · by_contra far
    have := mul_lt_mul_of_pos_left (not_le.mp far) pos
    linarith
  · by_contra far
    have := mul_lt_mul_of_pos_left (not_le.mp far) pos
    linarith

namespace Binary

variable {f : Format} {num den : Nat}

def rounded (f : Format) (num den : Nat) : Nat :=
  roundQuotient (scaleDown num den (f.exponentFor num den)).1
    (scaleDown num den (f.exponentFor num den)).2

theorem abs_rounded_sub_le (num : Nat) (hd : 0 < den) :
    |(rounded f num den : ℚ) - (num : ℚ) / den / 2 ^ f.exponentFor num den| ≤ 1 / 2 := by
  obtain ⟨pos, value⟩ := scaleDown_value num hd (f.exponentFor num den)
  rw [← value]
  exact abs_roundQuotient_sub_le _ pos

/-- The significand has all bits, unless the exponent is the least; by rounding up it may reach the
next power of two. -/
theorem rounded_bounds (hp : 0 < f.precision) (hn : 0 < num) (hd : 0 < den) :
    rounded f num den ≤ 2 ^ f.precision ∧
      (f.binade ≤ rounded f num den ∨ f.exponentFor num den = f.leastExponent) := by
  have near := abs_le.mp (abs_rounded_sub_le (f := f) num hd)
  have hq : (0 : ℚ) < (num : ℚ) / den := by positivity
  have exponent := f.exponentFor_eq hn hd
  generalize f.exponentFor num den = e at near exponent ⊢
  generalize (num : ℚ) / den = q at near exponent hq
  have split (k : Int) : (2 : ℚ) ^ k * 2 ^ e = 2 ^ (k + e) := (zpow_add₀ (by norm_num) _ _).symm
  have whole (k : Nat) : ((2 ^ k : Nat) : ℚ) = 2 ^ (k : Int) := by
    rw [Nat.cast_pow, zpow_natCast]
    rfl
  constructor
  · have below : q / 2 ^ e < 2 ^ (f.precision : Int) := by
      rw [div_lt_iff₀ (by positivity), split]
      have log : Int.log 2 q < f.precision + e := by omega
      exact_mod_cast (Int.lt_zpow_iff_log_lt (by decide) hq).mpr log
    have less : (rounded f num den : ℚ) < ((2 ^ f.precision + 1 : Nat) : ℚ) := by
      rw [Nat.cast_add, whole]
      push_cast
      linarith [near.2]
    exact Nat.le_of_lt_succ (by exact_mod_cast less)
  · by_cases least : e = f.leastExponent
    · exact .inr least
    · left
      have above : (2 : ℚ) ^ ((f.precision - 1 : Nat) : Int) ≤ q / 2 ^ e := by
        rw [le_div_iff₀ (by positivity), split]
        have log : ((f.precision - 1 : Nat) : Int) + e ≤ Int.log 2 q := by omega
        exact_mod_cast (Int.zpow_le_iff_le_log (by decide) hq).mpr log
      have more : ((f.binade : Nat) : ℚ) < ((rounded f num den + 1 : Nat) : ℚ) := by
        have binade : ((f.binade : Nat) : ℚ) = 2 ^ ((f.precision - 1 : Nat) : Int) :=
          whole (f.precision - 1)
        rw [binade]
        push_cast at above ⊢
        linarith [near.1]
      exact Nat.le_of_lt_succ (by exact_mod_cast more)

/-- A finite nearest number is the rounded significand with the exponent of the quotient. -/
theorem value_nearest (hp : 0 < f.precision) (hn : 0 < num) (hd : 0 < den)
    (finite : (f.nearest num den).val < f.infinity) :
    value f (f.nearest num den).val = rounded f num den * 2 ^ f.exponentFor num den := by
  obtain ⟨upper, normal⟩ := rounded_bounds hp hn hd
  have inRange : f.leastExponent ≤ f.exponentFor num den := by
    rw [f.exponentFor_eq hn hd]
    exact le_max_left _ _
  have code : (f.nearest num den).val = min f.infinity
      ((f.exponentFor num den - f.leastExponent).toNat * f.binade + rounded f num den) :=
    Format.nearest_val hn.ne'
  rw [code] at finite ⊢
  rw [Nat.min_eq_right (by omega)]
  generalize rounded f num den = m at upper normal ⊢
  generalize f.exponentFor num den = e at normal inRange ⊢
  have twice := two_binade hp
  have pos := binade_pos (f := f)
  rcases Nat.lt_or_ge m (2 ^ f.precision) with fits | full
  · rcases Nat.eq_zero_or_pos m with rfl | positive
    · obtain rfl : e = f.leastExponent := normal.resolve_left (by omega)
      rw [Int.sub_self, value, significand, if_pos (by simpa using pos)]
      simp
    · exact value_canonical hp ⟨positive, fits, inRange, normal⟩
  · obtain rfl : m = 2 ^ f.precision := Nat.le_antisymm upper full
    have canonical : f.Canonical f.binade (e + 1) :=
      ⟨pos, by omega, by omega, .inl (le_refl _)⟩
    have next : (e - f.leastExponent).toNat * f.binade + 2 ^ f.precision =
        (e + 1 - f.leastExponent).toNat * f.binade + f.binade := by
      have step : (e + 1 - f.leastExponent).toNat = (e - f.leastExponent).toNat + 1 := by omega
      rw [step, Nat.succ_mul]
      omega
    rw [next, value_canonical hp canonical, ← twice, zpow_add_one₀ (by norm_num)]
    push_cast
    ring

/-- Half a unit in the last place bounds the error of rounding. -/
theorem abs_value_nearest_sub_le (hp : 0 < f.precision) (hn : 0 < num) (hd : 0 < den)
    (finite : (f.nearest num den).val < f.infinity) :
    |value f (f.nearest num den).val - (num : ℚ) / den| ≤ 2 ^ (f.exponentFor num den - 1) := by
  have near := abs_rounded_sub_le (f := f) num hd
  rw [value_nearest hp hn hd finite]
  generalize f.exponentFor num den = e at near ⊢
  have unit : (0 : ℚ) < 2 ^ e := by positivity
  have scaled : (rounded f num den : ℚ) * 2 ^ e - (num : ℚ) / den =
      (rounded f num den - (num : ℚ) / den / 2 ^ e) * 2 ^ e := by
    rw [sub_mul, div_mul_cancel₀ _ unit.ne']
  rw [scaled, abs_mul, abs_of_pos unit, zpow_sub_one₀ (by norm_num)]
  calc _ ≤ 1 / 2 * (2 : ℚ) ^ e := mul_le_mul_of_nonneg_right near unit.le
    _ = 2 ^ e * 2⁻¹ := by ring

theorem value_nearest_of_multiple (hp : 0 < f.precision) (hn : 0 < num) (hd : 0 < den)
    (finite : (f.nearest num den).val < f.infinity) {m : Nat}
    (multiple : (num : ℚ) / den = m * 2 ^ f.exponentFor num den) :
    value f (f.nearest num den).val = (num : ℚ) / den := by
  obtain ⟨pos, scaled⟩ := scaleDown_value num hd (f.exponentFor num den)
  have unit : (0 : ℚ) < 2 ^ f.exponentFor num den := by positivity
  have exact : rounded f num den = m := by
    rw [multiple, mul_div_cancel_right₀ _ unit.ne', div_eq_iff (by exact_mod_cast pos.ne')]
      at scaled
    have product : (scaleDown num den (f.exponentFor num den)).1 =
        m * (scaleDown num den (f.exponentFor num den)).2 := by exact_mod_cast scaled
    rw [rounded, product, roundQuotient_whole pos]
  rw [value_nearest hp hn hd finite, exact, multiple]

end Binary

/-! Decimals of few digits, and not too small, among the doubles. -/

section

variable {num den m t : Nat}

theorem exponentFor_nonpos (hn : 0 < num) (hd : 0 < den) (small : (num : ℚ) / den < 2 ^ 53) :
    Format.double.exponentFor num den ≤ 0 := by
  have hq : (0 : ℚ) < (num : ℚ) / den := by positivity
  have log : Int.log 2 ((num : ℚ) / den) < 53 :=
    (Int.lt_zpow_iff_log_lt (by decide) hq).mp (by exact_mod_cast small)
  have precision : Format.double.precision = 53 := rfl
  have least : Format.double.leastExponent = -1074 := rfl
  rw [Format.exponentFor_eq _ hn hd]
  omega

theorem finite_of_small (hn : 0 < num) (hd : 0 < den) (small : (num : ℚ) / den < 2 ^ 53) :
    (Format.double.nearest num den).val < Format.double.infinity := by
  obtain ⟨upper, -⟩ := Binary.rounded_bounds (f := .double) (by decide) hn hd
  have exponent := exponentFor_nonpos hn hd small
  have least : Format.double.leastExponent = -1074 := rfl
  have steps : (Format.double.exponentFor num den - Format.double.leastExponent).toNat ≤ 1074 := by
    omega
  have room : 1074 * Format.double.binade + 2 ^ Format.double.precision <
      Format.double.infinity := by
    decide
  have below := Nat.add_le_add (Nat.mul_le_mul_right Format.double.binade steps) upper
  rw [Format.nearest_val hn.ne']
  exact (Nat.min_le_right _ _).trans_lt (below.trans_lt room)

private theorem ten_pow_lt_two_pow : (10 : ℚ) ^ 323 < 2 ^ 1075 :=
  calc (10 : ℚ) ^ 323 = (10 ^ 31) ^ 10 * 10 ^ 13 := by rw [← pow_mul, ← pow_add]
    _ ≤ (2 ^ 103) ^ 10 * 2 ^ 44 := by
        gcongr
        · norm_num
        · norm_num
    _ = 2 ^ 1074 := by rw [← pow_mul, ← pow_add]
    _ < 2 ^ 1075 := pow_lt_pow_right₀ (by norm_num) (by decide)

theorem half_unit_lt (hn : 0 < num) (hd : 0 < den) (few : m < 2 ^ 53) (coarse : t ≤ 323)
    (hq : (num : ℚ) / den = m / 10 ^ t) :
    (2 : ℚ) ^ (Format.double.exponentFor num den - 1) < 1 / 10 ^ t := by
  have pos : (0 : ℚ) < (num : ℚ) / den := by positivity
  have precision : Format.double.precision = 53 := rfl
  have least : Format.double.leastExponent = -1074 := rfl
  rw [Format.exponentFor_eq _ hn hd, precision, least]
  rcases le_or_gt (Int.log 2 ((num : ℚ) / den) - (53 : Nat) + 1) (-1074) with low | normal
  · rw [max_eq_left low]
    calc (2 : ℚ) ^ (-1074 - 1 : Int) = 1 / 2 ^ 1075 := by
          rw [one_div, ← zpow_natCast, ← zpow_neg]
          rfl
      _ < 1 / 10 ^ 323 := one_div_lt_one_div_of_lt (by positivity) ten_pow_lt_two_pow
      _ ≤ 1 / 10 ^ t := one_div_le_one_div_of_le (by positivity)
          (pow_le_pow_right₀ (by norm_num) coarse)
  · rw [max_eq_right normal.le]
    have log := Int.zpow_log_le_self (b := 2) (by decide) pos
    have few' : (m : ℚ) < 2 ^ 53 := by exact_mod_cast few
    have split : Int.log 2 ((num : ℚ) / den) - (53 : Nat) + 1 - 1 =
        Int.log 2 ((num : ℚ) / den) - 53 := by omega
    rw [split, zpow_sub₀ (by norm_num)]
    calc (2 : ℚ) ^ Int.log 2 ((num : ℚ) / den) / 2 ^ (53 : Int) ≤ num / den / 2 ^ (53 : Int) := by
          gcongr
          exact_mod_cast log
      _ = m / 2 ^ 53 / 10 ^ t := by
          rw [hq, div_right_comm]
          rfl
      _ < 1 / 10 ^ t := by
          gcongr
          rw [div_lt_one (by positivity)]
          exact few'

/-- Rounding makes no such decimal an integer that it is not. -/
theorem value_nearest_eq_natCast_iff (hd : 0 < den) (few : m < 2 ^ 53) (coarse : t ≤ 323)
    (hq : (num : ℚ) / den = m / 10 ^ t) (small : (num : ℚ) / den < 2 ^ 53) :
    (Format.double.nearest num den).val < Format.double.infinity ∧
      ∀ k : Nat, Binary.value .double (Format.double.nearest num den).val = k ↔
        (num : ℚ) / den = k := by
  rcases Nat.eq_zero_or_pos num with rfl | hn
  · rw [Format.nearest_zero]
    refine ⟨by decide, ?_⟩
    intro k
    have zero : Binary.value .double (0 : Fin (Format.double.infinity + 1)).val = 0 := by
      change ((Binary.significand .double 0 : Nat) : ℚ) * _ = 0
      simp [Binary.significand, Format.binade]
    rw [zero, Nat.cast_zero, zero_div]
  · have finite := finite_of_small hn hd small
    refine ⟨finite, ?_⟩
    intro k
    constructor
    · intro whole
      have error := Binary.abs_value_nearest_sub_le (f := .double) (by decide) hn hd finite
      have half := half_unit_lt hn hd few coarse hq
      have unit : (0 : ℚ) < 10 ^ t := by positivity
      rw [whole] at error
      by_contra other
      -- integers that differ, divided by the power of ten, differ by as much as that at least
      have apart : (1 : ℚ) / 10 ^ t ≤ |k - (num : ℚ) / den| := by
        have scaled : (k : ℚ) - (num : ℚ) / den = ((k * 10 ^ t - m : Int) : ℚ) / 10 ^ t := by
          rw [hq]
          push_cast
          field_simp
        have nonzero : (k * 10 ^ t - m : Int) ≠ 0 := by
          intro vanishes
          rw [vanishes, Int.cast_zero, zero_div] at scaled
          exact other (by linarith)
        rw [scaled, abs_div, abs_of_pos unit]
        gcongr
        exact_mod_cast Int.one_le_abs nonzero
      linarith
    · intro whole
      obtain ⟨s, hs⟩ := Int.eq_ofNat_of_zero_le
        (show 0 ≤ -Format.double.exponentFor num den by
          have := exponentFor_nonpos hn hd small
          omega)
      have exponent : Format.double.exponentFor num den = -(s : Int) := by omega
      rw [← whole]
      apply Binary.value_nearest_of_multiple (by decide) hn hd finite (m := k * 2 ^ s)
      rw [whole, exponent, zpow_neg, zpow_natCast]
      push_cast
      rw [mul_assoc, mul_inv_cancel₀ (by positivity), mul_one]

end

end TypedJson.Number
