import TypedJson.Number.Shortest
import TypedJson.Proofs.Number.Rounding

set_option autoImplicit false
set_option relaxedAutoImplicit false

namespace TypedJson.Number

variable {f : Format}

namespace Format

/-! The nearest number of a decimal. -/

theorem nearestDecimal_eq {digits : Nat} {exponent : Int} {num den : Nat} (hd : 0 < den)
    (h : (num : ℚ) / den = digits * 10 ^ exponent) :
    f.nearestDecimal digits exponent = f.nearest num den := by
  unfold nearestDecimal
  split
  · obtain ⟨k, rfl⟩ := Int.eq_ofNat_of_zero_le ‹0 ≤ exponent›
    apply nearest_congr Nat.one_pos hd
    rw [h]
    simp
  · obtain ⟨k, hk⟩ := Int.eq_ofNat_of_zero_le (show 0 ≤ -exponent by omega)
    obtain rfl : exponent = -(k : Int) := by omega
    apply nearest_congr (Nat.pow_pos (by decide)) hd
    rw [h, zpow_neg, ← div_eq_mul_inv, zpow_natCast, neg_neg, Int.toNat_natCast]
    push_cast
    rfl

theorem exists_quotient (digits : Nat) (exponent : Int) :
    ∃ num den : Nat, 0 < den ∧ (num : ℚ) / den = digits * 10 ^ exponent := by
  by_cases h : 0 ≤ exponent
  · obtain ⟨k, rfl⟩ := Int.eq_ofNat_of_zero_le h
    refine ⟨digits * 10 ^ k, 1, Nat.one_pos, ?_⟩
    simp
  · obtain ⟨k, hk⟩ := Int.eq_ofNat_of_zero_le (show 0 ≤ -exponent by omega)
    obtain rfl : exponent = -(k : Int) := by omega
    refine ⟨digits, 10 ^ k, Nat.pow_pos (by decide), ?_⟩
    rw [zpow_neg, ← div_eq_mul_inv, zpow_natCast, Nat.cast_pow, Nat.cast_ofNat]

theorem nearestDecimal_congr {digits digits' : Nat} {exponent exponent' : Int}
    (h : (digits : ℚ) * 10 ^ exponent = digits' * 10 ^ exponent') :
    f.nearestDecimal digits exponent = f.nearestDecimal digits' exponent' := by
  obtain ⟨num, den, hd, value⟩ := exists_quotient digits exponent
  rw [nearestDecimal_eq hd value, nearestDecimal_eq hd (value.trans h)]

theorem nearestDecimal_zero (exponent : Int) : f.nearestDecimal 0 exponent = 0 := by
  have value : ((0 : Nat) : ℚ) / (1 : Nat) = (0 : Nat) * 10 ^ exponent := by simp
  rw [nearestDecimal_eq Nat.one_pos value, nearest_zero]

/-! The range of a format. -/

/-- What lies below half of the least positive number is rounded to zero. -/
theorem nearest_small {num den : Nat} (hd : 0 < den)
    (h : (num : ℚ) / den < 2 ^ (f.leastExponent - 1)) : f.nearest num den = 0 := by
  by_cases hn : num = 0
  · rw [hn, nearest_zero]
  · have hq : (0 : ℚ) < (num : ℚ) / den := by
      have : 0 < num := by omega
      positivity
    have log : Int.log 2 ((num : ℚ) / den) < f.leastExponent - 1 :=
      (Int.lt_zpow_iff_log_lt (by decide) hq).mp (by exact_mod_cast h)
    have exponent : f.exponentFor num den = f.leastExponent := by
      rw [f.exponentFor_eq (by omega) hd]
      omega
    obtain ⟨pos, value⟩ := scaleDown_value num hd f.leastExponent
    have below : 2 * (scaleDown num den f.leastExponent).1 <
        (scaleDown num den f.leastExponent).2 := by
      have pos' : (0 : ℚ) < ((scaleDown num den f.leastExponent).2 : ℚ) := by exact_mod_cast pos
      have half : ((scaleDown num den f.leastExponent).1 : ℚ) /
          (scaleDown num den f.leastExponent).2 < 1 / 2 := by
        rw [value, div_lt_iff₀ (by positivity)]
        calc (num : ℚ) / den < 2 ^ (f.leastExponent - 1) := h
          _ = 1 / 2 * 2 ^ f.leastExponent := by
              rw [zpow_sub_one₀ (by norm_num)]
              ring
      rw [div_lt_div_iff₀ pos' (by norm_num), one_mul] at half
      exact_mod_cast (mul_comm _ _).trans_lt half
    apply Fin.ext
    have least : (scaleDown num den f.leastExponent).1 <
        (scaleDown num den f.leastExponent).2 := by omega
    rw [nearest_val hn, exponent, roundQuotient, Nat.div_eq_of_lt least, Nat.mod_eq_of_lt least,
      if_pos below, Int.sub_self]
    simp

/-- What needs a greater exponent than the format has is rounded to infinity. -/
theorem nearest_large {num den : Nat} {k : Int} (hd : 0 < den) (h : 2 ^ k ≤ (num : ℚ) / den)
    (hk : f.infinity ≤ (k - f.precision + 1 - f.leastExponent).toNat * f.binade) :
    (f.nearest num den).val = f.infinity := by
  have hq : (0 : ℚ) < (num : ℚ) / den := (by positivity : (0 : ℚ) < 2 ^ k).trans_le h
  have hn : num ≠ 0 := by
    rintro rfl
    simp at hq
  have log : k ≤ Int.log 2 ((num : ℚ) / den) :=
    (Int.zpow_le_iff_le_log (by decide) hq).mp (by exact_mod_cast h)
  have steps : (k - f.precision + 1 - f.leastExponent).toNat * f.binade ≤
      (f.exponentFor num den - f.leastExponent).toNat * f.binade := by
    apply Nat.mul_le_mul_right
    rw [f.exponentFor_eq (by omega) hd]
    omega
  rw [nearest_val hn]
  omega

end Format

namespace Shortest

def Scaled.value (s : Scaled) : ℚ :=
  s.digits * 10 ^ s.exponent

theorem dropZeros_value (fuel : Nat) (s : Scaled) : (dropZeros fuel s).value = s.value := by
  induction fuel generalizing s with
  | zero => rfl
  | succ fuel ih =>
      unfold dropZeros
      split
      · obtain ⟨k, hk⟩ := Nat.dvd_of_mod_eq_zero ‹s.digits ≠ 0 ∧ s.digits % 10 = 0›.2
        rw [ih, Scaled.value, Scaled.value, hk, Nat.mul_div_cancel_left k (by decide),
          zpow_add_one₀ (by norm_num)]
        push_cast
        ring
      · rfl

theorem exact_value (code : Nat) : (exact f code).value = Binary.value f code := by
  unfold exact Scaled.value Binary.value
  dsimp only
  generalize Binary.exponent f code = e
  split
  · obtain ⟨k, rfl⟩ := Int.eq_ofNat_of_zero_le ‹0 ≤ e›
    simp
  · obtain ⟨k, hk⟩ := Int.eq_ofNat_of_zero_le (show 0 ≤ -e by omega)
    obtain rfl : e = -(k : Int) := by omega
    have ten : (10 : ℚ) ^ k = 5 ^ k * 2 ^ k := by
      rw [← mul_pow]
      norm_num
    simp only [neg_neg, Int.toNat_natCast, Nat.pow_eq, Nat.cast_mul, Nat.cast_pow,
      Nat.cast_ofNat, zpow_neg, zpow_natCast, ten]
    field_simp

theorem onGrid_reads {code : Fin (f.infinity + 1)} {num den : Nat} {e : Int} {s : Scaled}
    (h : onGrid f code num den e = some s) : f.nearestDecimal s.digits s.exponent = code := by
  unfold onGrid at h
  generalize scaleDecimal num den e = q at h
  obtain ⟨n, d⟩ := q
  dsimp only at h
  split at h
  · rename_i below above
    cases h
    dsimp only
    split
    · exact of_decide_eq_true below
    · exact of_decide_eq_true above
  · rename_i below above
    cases h
    exact of_decide_eq_true below
  · rename_i below above
    cases h
    exact of_decide_eq_true above
  · cases h

/-- The nearest number to the shortest decimal of a magnitude is that magnitude. -/
theorem shortest_reads (hp : 0 < f.precision) (code : Fin (f.infinity + 1)) :
    f.nearestDecimal (shortest f code).digits (shortest f code).exponent = code := by
  by_cases zero : code.val = 0
  · rw [shortest, if_pos zero, Format.nearestDecimal_zero]
    exact Fin.ext zero.symm
  · rw [shortest, if_neg zero]
    dsimp only
    generalize hfound : List.findSome? _ (List.range 17) = found
    rw [normalize, Format.nearestDecimal_congr (dropZeros_value _ _)]
    cases found with
    | some s =>
        obtain ⟨n, -, hn⟩ := List.exists_of_findSome?_eq_some hfound
        exact onGrid_reads hn
    | none =>
        obtain ⟨pos, equal⟩ := Binary.quotient_value (f := f) code
        rw [Option.getD_none,
          Format.nearestDecimal_eq pos (equal.trans (exact_value code.val).symm)]
        exact Binary.nearest_quotient hp pos equal

theorem shortest_zero (hp : 0 < f.precision) (code : Fin (f.infinity + 1))
    (h : (shortest f code).digits = 0) : (shortest f code).exponent = 0 := by
  have reads := shortest_reads hp code
  rw [h, Format.nearestDecimal_zero] at reads
  have zero : code.val = 0 := congrArg Fin.val reads.symm
  rw [shortest, if_pos zero]

/-! How large the exponent becomes. -/

theorem toDigits_bounds {n : Nat} (h : n ≠ 0) :
    10 ^ ((Nat.toDigits 10 n).length - 1) ≤ n ∧ n < 10 ^ (Nat.toDigits 10 n).length := by
  have some := Nat.length_toDigits_pos (b := 10) (n := n)
  constructor
  · by_cases one : (Nat.toDigits 10 n).length = 1
    · rw [one]
      simp
      omega
    · have longer : ¬ (Nat.toDigits 10 n).length ≤ (Nat.toDigits 10 n).length - 1 := by omega
      rw [Nat.length_toDigits_le_iff (by decide) (by omega)] at longer
      omega
  · exact (Nat.length_toDigits_le_iff (by decide) some).mp (le_refl _)

theorem eight_le_ten (k : Nat) : (2 : ℚ) ^ (3 * k : Int) ≤ 10 ^ (k : Int) := by
  rw [zpow_mul, zpow_natCast, zpow_natCast]
  exact pow_le_pow_left₀ (by norm_num) (by norm_num) k

/-- In scientific notation the exponent lies well within three digits. -/
theorem shortest_point {code : Fin (Format.double.infinity + 1)}
    (finite : code.val < Format.double.infinity) :
    |((Nat.toDigits 10 (shortest .double code).digits).length : Int) +
      (shortest .double code).exponent| ≤ 400 := by
  by_cases zero : (shortest .double code).digits = 0
  · rw [zero, shortest_zero (by decide) code zero, Nat.toDigits_zero]
    decide
  · have reads := shortest_reads (by decide) code
    have nonzero : code.val ≠ 0 := by
      intro vanishes
      rw [shortest, if_pos vanishes] at zero
      exact zero rfl
    generalize shortest .double code = s at zero reads
    obtain ⟨lower, upper⟩ := toDigits_bounds zero
    have some := Nat.length_toDigits_pos (b := 10) (n := s.digits)
    generalize (Nat.toDigits 10 s.digits).length = len at lower upper some
    obtain ⟨num, den, hd, value⟩ := Format.exists_quotient s.digits s.exponent
    rw [Format.nearestDecimal_eq hd value] at reads
    rw [abs_le]
    constructor
    · by_contra low
      have small : (num : ℚ) / den < 2 ^ (Format.double.leastExponent - 1) := by
        rw [value]
        calc (s.digits : ℚ) * 10 ^ s.exponent < 10 ^ (len : Int) * 10 ^ s.exponent := by
              gcongr
              exact_mod_cast upper
          _ = 10 ^ ((len : Int) + s.exponent) := (zpow_add₀ (by norm_num) _ _).symm
          _ ≤ 10 ^ (-400 : Int) := zpow_le_zpow_right₀ (by norm_num) (by omega)
          _ ≤ 2 ^ (-(3 * (400 : Nat)) : Int) := by
              rw [zpow_neg, zpow_neg]
              exact inv_anti₀ (by positivity) (eight_le_ten 400)
          _ < 2 ^ (Format.double.leastExponent - 1) :=
              zpow_lt_zpow_right₀ (by norm_num) (by decide)
      rw [Format.nearest_small hd small] at reads
      exact nonzero (congrArg Fin.val reads.symm)
    · by_contra high
      have large : (2 : ℚ) ^ (1025 : Int) ≤ (num : ℚ) / den := by
        rw [value]
        calc (2 : ℚ) ^ (1025 : Int) ≤ 2 ^ (3 * (400 : Nat) : Int) :=
              zpow_le_zpow_right₀ (by norm_num) (by decide)
          _ ≤ 10 ^ (400 : Int) := eight_le_ten 400
          _ ≤ 10 ^ (((len - 1 : Nat) : Int) + s.exponent) :=
              zpow_le_zpow_right₀ (by norm_num) (by omega)
          _ = 10 ^ ((len - 1 : Nat) : Int) * 10 ^ s.exponent := zpow_add₀ (by norm_num) _ _
          _ ≤ s.digits * 10 ^ s.exponent := by
              gcongr
              exact_mod_cast lower
      have overflow : Format.double.infinity ≤ ((1025 : Int) - Format.double.precision + 1 -
          Format.double.leastExponent).toNat * Format.double.binade := by decide
      have infinite := Format.nearest_large hd large overflow
      rw [reads] at infinite
      omega

end Shortest

end TypedJson.Number
