import Mathlib.Algebra.Order.Field.Power
import Mathlib.Data.Int.Log
import Mathlib.Data.Rat.Floor
import Mathlib.Tactic.FieldSimp
import Mathlib.Tactic.Linarith
import Mathlib.Tactic.NormNum
import Mathlib.Tactic.Positivity
import TypedJson.Number.Binary

set_option autoImplicit false
set_option relaxedAutoImplicit false

namespace TypedJson.Number

/-! Rounding a quotient to a natural number. -/

theorem roundQuotient_mul {n d k : Nat} (hk : 0 < k) :
    roundQuotient (k * n) (k * d) = roundQuotient n d := by
  have cancel (a b : Nat) : 2 * (k * a) < k * b ↔ 2 * a < b := by
    rw [Nat.mul_left_comm]
    exact Nat.mul_lt_mul_left hk
  have cancel' (a b : Nat) : k * b < 2 * (k * a) ↔ b < 2 * a := by
    rw [Nat.mul_left_comm]
    exact Nat.mul_lt_mul_left hk
  simp only [roundQuotient, Nat.mul_div_mul_left _ _ hk, Nat.mul_mod_mul_left, cancel, cancel']

theorem roundQuotient_congr {n d n' d' : Nat} (hd : 0 < d) (hd' : 0 < d')
    (h : n * d' = n' * d) : roundQuotient n d = roundQuotient n' d' := by
  rw [← roundQuotient_mul hd', ← roundQuotient_mul (n := n') hd, Nat.mul_comm d' n, h,
    Nat.mul_comm n' d, Nat.mul_comm d' d]

theorem roundQuotient_whole {m d : Nat} (hd : 0 < d) : roundQuotient (m * d) d = m := by
  simp [roundQuotient, Nat.mul_div_cancel m hd, hd]

/-! The value of a quotient, and its scaling. -/

theorem scaleDown_value (num : Nat) {den : Nat} (hd : 0 < den) (e : Int) :
    0 < (scaleDown num den e).2 ∧
      ((scaleDown num den e).1 : ℚ) / (scaleDown num den e).2 = (num : ℚ) / den / 2 ^ e := by
  unfold scaleDown
  split
  · obtain ⟨k, rfl⟩ := Int.eq_ofNat_of_zero_le ‹0 ≤ e›
    refine ⟨Nat.mul_pos hd (Nat.pow_pos (by decide)), ?_⟩
    simp only [Int.toNat_natCast, Nat.pow_eq, Nat.cast_mul, Nat.cast_pow, Nat.cast_ofNat,
      zpow_natCast]
    rw [div_div]
  · obtain ⟨k, hk⟩ := Int.eq_ofNat_of_zero_le (show 0 ≤ -e by omega)
    refine ⟨hd, ?_⟩
    obtain rfl : e = -(k : Int) := by omega
    simp only [neg_neg, Int.toNat_natCast, Nat.pow_eq, Nat.cast_mul, Nat.cast_pow, Nat.cast_ofNat,
      zpow_neg, zpow_natCast]
    rw [div_inv_eq_mul, mul_div_right_comm]

namespace Format

variable (f : Format)

/-- A positive quotient lies within the power of two that the lengths of its parts name, or below
it by less than a factor of two. -/
theorem log2_sub_bounds {num den : Nat} (hn : 0 < num) (hd : 0 < den) :
    (2 : ℚ) ^ ((num.log2 : Int) - den.log2 - 1) ≤ (num : ℚ) / den ∧
      (num : ℚ) / den < 2 ^ ((num.log2 : Int) - den.log2 + 1) := by
  have two : (2 : ℚ) ≠ 0 := by norm_num
  have hd' : (0 : ℚ) < den := by exact_mod_cast hd
  have n_ge : (2 : ℚ) ^ (num.log2 : Int) ≤ num := by
    exact_mod_cast Nat.log2_self_le hn.ne'
  have n_lt : (num : ℚ) < 2 ^ ((num.log2 : Int) + 1) := by
    exact_mod_cast Nat.lt_log2_self
  have d_ge : (2 : ℚ) ^ (den.log2 : Int) ≤ den := by
    exact_mod_cast Nat.log2_self_le hd.ne'
  have d_lt : (den : ℚ) < 2 ^ ((den.log2 : Int) + 1) := by
    exact_mod_cast Nat.lt_log2_self
  constructor
  · rw [le_div_iff₀ hd']
    calc (2 : ℚ) ^ ((num.log2 : Int) - den.log2 - 1) * den
        ≤ 2 ^ ((num.log2 : Int) - den.log2 - 1) * 2 ^ ((den.log2 : Int) + 1) := by gcongr
      _ = 2 ^ (num.log2 : Int) := by
          rw [← zpow_add₀ two]
          congr 1
          omega
      _ ≤ num := n_ge
  · rw [div_lt_iff₀ hd']
    calc (num : ℚ) < 2 ^ ((num.log2 : Int) + 1) := n_lt
      _ = 2 ^ ((num.log2 : Int) - den.log2 + 1) * 2 ^ (den.log2 : Int) := by
          rw [← zpow_add₀ two]
          congr 1
          omega
      _ ≤ 2 ^ ((num.log2 : Int) - den.log2 + 1) * den := by gcongr

theorem exponentFor_eq {num den : Nat} (hn : 0 < num) (hd : 0 < den) :
    f.exponentFor num den =
      max f.leastExponent (Int.log 2 ((num : ℚ) / den) - f.precision + 1) := by
  have hq : (0 : ℚ) < (num : ℚ) / den := by positivity
  obtain ⟨lower, upper⟩ := log2_sub_bounds hn hd
  have log_ge : (num.log2 : Int) - den.log2 - 1 ≤ Int.log 2 ((num : ℚ) / den) :=
    (Int.zpow_le_iff_le_log (by decide) hq).mp (by exact_mod_cast lower)
  have log_lt : Int.log 2 ((num : ℚ) / den) < (num.log2 : Int) - den.log2 + 1 :=
    (Int.lt_zpow_iff_log_lt (by decide) hq).mp (by exact_mod_cast upper)
  unfold exponentFor
  generalize hg : (num.log2 : Int) - den.log2 - f.precision = guess
  obtain ⟨pos, value⟩ := scaleDown_value num hd guess
  -- the quotient scaled by the guess has too many bits exactly if the guess is one too low
  have fits : (scaleDown num den guess).1 / (scaleDown num den guess).2 < Nat.pow 2 f.precision ↔
      Int.log 2 ((num : ℚ) / den) < (num.log2 : Int) - den.log2 := by
    have pos' : (0 : ℚ) < ((scaleDown num den guess).2 : ℚ) := by exact_mod_cast pos
    rw [Nat.div_lt_iff_lt_mul pos, ← Int.lt_zpow_iff_log_lt (by decide) hq]
    have cast : (scaleDown num den guess).1 < Nat.pow 2 f.precision * (scaleDown num den guess).2 ↔
        ((scaleDown num den guess).1 : ℚ) / (scaleDown num den guess).2 < 2 ^ f.precision := by
      rw [div_lt_iff₀ pos', Nat.pow_eq]
      exact_mod_cast Iff.rfl
    rw [cast, value, div_lt_iff₀ (by positivity), ← zpow_natCast, ← zpow_add₀ (by norm_num)]
    have sum : (f.precision : Int) + guess = (num.log2 : Int) - den.log2 := by omega
    rw [sum]
    exact Iff.rfl
  dsimp only
  by_cases below : Int.log 2 ((num : ℚ) / den) < (num.log2 : Int) - den.log2
  · rw [if_pos (fits.mpr below)]
    omega
  · rw [if_neg (fun h => below (fits.mp h))]
    omega

variable {f}

theorem nearest_zero {den : Nat} : f.nearest 0 den = 0 :=
  if_pos rfl

theorem nearest_val {num den : Nat} (hn : num ≠ 0) :
    (f.nearest num den).val =
      min f.infinity ((f.exponentFor num den - f.leastExponent).toNat * f.binade +
        roundQuotient (scaleDown num den (f.exponentFor num den)).1
          (scaleDown num den (f.exponentFor num den)).2) := by
  rw [nearest, if_neg hn]

/-- The nearest number depends on the value of the quotient alone. -/
theorem nearest_congr {num den num' den' : Nat} (hd : 0 < den) (hd' : 0 < den')
    (h : (num : ℚ) / den = (num' : ℚ) / den') : f.nearest num den = f.nearest num' den' := by
  have pos : (0 : ℚ) < den := by exact_mod_cast hd
  have pos' : (0 : ℚ) < den' := by exact_mod_cast hd'
  by_cases hn : num = 0
  · have hn' : num' = 0 := by
      rw [hn, Nat.cast_zero, zero_div, eq_comm, div_eq_zero_iff] at h
      rcases h with h | h
      · exact_mod_cast h
      · exact absurd h pos'.ne'
    rw [nearest, nearest, if_pos hn, if_pos hn']
  · have hn' : ¬ num' = 0 := by
      rintro rfl
      rw [Nat.cast_zero, zero_div, div_eq_zero_iff] at h
      rcases h with h | h
      · exact hn (by exact_mod_cast h)
      · exact absurd h pos.ne'
    have same : f.exponentFor num den = f.exponentFor num' den' := by
      rw [f.exponentFor_eq (by omega) hd, f.exponentFor_eq (by omega) hd', h]
    obtain ⟨pos, value⟩ := scaleDown_value num hd (f.exponentFor num' den')
    obtain ⟨pos', value'⟩ := scaleDown_value num' hd' (f.exponentFor num' den')
    have rounded := roundQuotient_congr pos pos' (by
      have equal := value.trans ((congrArg (· / _) h).trans value'.symm)
      rw [div_eq_div_iff (by exact_mod_cast pos.ne') (by exact_mod_cast pos'.ne')] at equal
      exact_mod_cast equal)
    apply Fin.ext
    rw [nearest_val hn, nearest_val hn', same, rounded]

/-- Significand and exponent as a format has them: with all bits, or with the least exponent. -/
structure Canonical (f : Format) (m : Nat) (e : Int) : Prop where
  positive : 0 < m
  fits : m < 2 ^ f.precision
  inRange : f.leastExponent ≤ e
  normal : f.binade ≤ m ∨ e = f.leastExponent

namespace Canonical

variable {m : Nat} {e : Int}

theorem exponent_eq (h : f.Canonical m e) (hp : 0 < f.precision) :
    max f.leastExponent (Int.log 2 ((m : ℚ) * 2 ^ e) - f.precision + 1) = e := by
  have pos : (0 : ℚ) < m := by exact_mod_cast h.positive
  have upper : Int.log 2 ((m : ℚ) * 2 ^ e) < f.precision + e := by
    rw [← Int.lt_zpow_iff_log_lt (by decide) (by positivity)]
    have fits : (m : ℚ) < 2 ^ (f.precision : Int) := by exact_mod_cast h.fits
    calc (m : ℚ) * 2 ^ e < 2 ^ (f.precision : Int) * 2 ^ e := by gcongr
      _ = ((2 : Nat) : ℚ) ^ ((f.precision : Int) + e) := by
          rw [← zpow_add₀ (by norm_num), Nat.cast_ofNat]
  rcases h.normal with normal | rfl
  · have lower : (f.precision : Int) - 1 + e ≤ Int.log 2 ((m : ℚ) * 2 ^ e) := by
      rw [← Int.zpow_le_iff_le_log (by decide) (by positivity)]
      have whole : (2 : ℚ) ^ ((f.precision : Int) - 1) ≤ m := by
        have exponent : (f.precision : Int) - 1 = (f.precision - 1 : Nat) := by omega
        rw [exponent, zpow_natCast]
        exact_mod_cast normal
      calc ((2 : Nat) : ℚ) ^ ((f.precision : Int) - 1 + e)
          = 2 ^ ((f.precision : Int) - 1) * 2 ^ e := by
            rw [← zpow_add₀ (by norm_num), Nat.cast_ofNat]
        _ ≤ m * 2 ^ e := by gcongr
    have inRange := h.inRange
    omega
  · omega

theorem nearest (h : f.Canonical m e) (hp : 0 < f.precision) {num den : Nat} (hd : 0 < den)
    (hq : (num : ℚ) / den = m * 2 ^ e) :
    (f.nearest num den).val =
      min f.infinity ((e - f.leastExponent).toNat * f.binade + m) := by
  have pos : (0 : ℚ) < m := by exact_mod_cast h.positive
  have hn : num ≠ 0 := by
    rintro rfl
    rw [Nat.cast_zero, zero_div] at hq
    have : (0 : ℚ) < m * 2 ^ e := by positivity
    linarith
  have exponent : f.exponentFor num den = e := by
    rw [f.exponentFor_eq (by omega) hd, hq, h.exponent_eq hp]
  obtain ⟨hd', value⟩ := scaleDown_value num hd e
  have whole : roundQuotient (scaleDown num den e).1 (scaleDown num den e).2 = m := by
    rw [hq, mul_div_assoc, div_self (by positivity), mul_one,
      div_eq_iff (by exact_mod_cast hd'.ne')] at value
    have product : (scaleDown num den e).1 = m * (scaleDown num den e).2 := by
      exact_mod_cast value
    rw [product, roundQuotient_whole hd']
  rw [nearest_val hn, exponent, whole]

end Canonical

end Format

namespace Binary

variable {f : Format}

def value (f : Format) (code : Nat) : ℚ :=
  significand f code * 2 ^ exponent f code

theorem quotient_value (code : Nat) :
    0 < (quotient f code).2 ∧
      ((quotient f code).1 : ℚ) / (quotient f code).2 = value f code := by
  obtain ⟨pos, equal⟩ := scaleDown_value (significand f code) Nat.one_pos (-exponent f code)
  refine ⟨pos, equal.trans ?_⟩
  rw [Nat.cast_one, div_one, zpow_neg, div_inv_eq_mul]
  rfl

theorem binade_pos : 0 < f.binade :=
  Nat.pow_pos (by decide)

theorem two_binade (hp : 0 < f.precision) : 2 * f.binade = 2 ^ f.precision := by
  have split : f.precision = f.precision - 1 + 1 := by omega
  rw [split, Nat.pow_succ, Nat.mul_comm]
  rfl

theorem canonical {code : Nat} (hp : 0 < f.precision) (h : 0 < code) :
    f.Canonical (significand f code) (exponent f code) := by
  have pos := binade_pos (f := f)
  have double := two_binade hp
  unfold significand exponent
  split
  · exact ⟨h, by omega, le_refl _, .inr rfl⟩
  · have rest := Nat.mod_lt code pos
    have whole : 1 ≤ code / f.binade := (Nat.one_le_div_iff pos).mpr (by omega)
    exact ⟨by omega, by omega, by omega, .inl (by omega)⟩

/-- A code counts the steps from zero: those of its binades, and its significand. -/
theorem code_eq (code : Nat) :
    (exponent f code - f.leastExponent).toNat * f.binade + significand f code = code := by
  have pos := binade_pos (f := f)
  unfold significand exponent
  split
  · simp
  · have whole : 1 ≤ code / f.binade := (Nat.one_le_div_iff pos).mpr (by omega)
    obtain ⟨k, hk⟩ := Nat.exists_eq_add_of_le' whole
    have steps : (f.leastExponent + ((k + 1 : Nat) : Int) - 1 - f.leastExponent).toNat = k := by
      omega
    have division := Nat.div_add_mod code f.binade
    rw [hk, Nat.mul_succ, Nat.mul_comm] at division
    rw [hk, steps]
    omega

/-- A finite number is the nearest one to its own value. -/
theorem nearest_quotient (hp : 0 < f.precision) {code : Fin (f.infinity + 1)}
    {num den : Nat} (hd : 0 < den) (hq : (num : ℚ) / den = value f code) :
    f.nearest num den = code := by
  apply Fin.ext
  by_cases h : code.val = 0
  · have zero : value f code = 0 := by
      rw [value, significand, if_pos (h ▸ binade_pos), h, Nat.cast_zero, zero_mul]
    have same : f.nearest num den = f.nearest 0 1 :=
      Format.nearest_congr hd Nat.one_pos (by rw [hq, zero, Nat.cast_zero, zero_div])
    rw [same, Format.nearest_zero, h]
    rfl
  · rw [(canonical hp (by omega)).nearest hp hd hq, code_eq]
    omega

end Binary

end TypedJson.Number
