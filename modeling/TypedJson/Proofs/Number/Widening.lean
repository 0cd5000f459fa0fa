import TypedJson.Proofs.Number.Rounding

set_option autoImplicit false
set_option relaxedAutoImplicit false

namespace TypedJson.Number

/-- Format `g` holds every finite number of format `f` with all bits of a significand. -/
structure Format.Widens (g f : Format) : Prop where
  precise : 0 < f.precision
  bits : f.precision ≤ g.precision
  low : g.leastExponent + g.precision ≤ f.leastExponent + 1
  high : (f.leastExponent + f.infinity / f.binade - g.leastExponent).toNat * g.binade +
    2 ^ g.precision ≤ g.infinity

theorem double_widens_single : Format.double.Widens Format.single where
  precise := by decide
  bits := by decide
  low := by decide
  high := by decide

namespace Binary

variable {f g : Format}

theorem value_canonical {m : Nat} {e : Int} (hp : 0 < f.precision) (h : f.Canonical m e) :
    value f ((e - f.leastExponent).toNat * f.binade + m) = m * 2 ^ e := by
  have pos := binade_pos (f := f)
  have twice := two_binade hp
  have fits := h.fits
  have inRange := h.inRange
  obtain ⟨k, hk⟩ := Int.eq_ofNat_of_zero_le (show 0 ≤ e - f.leastExponent by omega)
  obtain rfl : e = f.leastExponent + k := by omega
  have steps : (f.leastExponent + k - f.leastExponent).toNat = k := by omega
  rw [steps]
  by_cases small : m < f.binade
  · have hk : k = 0 := by
      have normal := h.normal
      omega
    rw [hk, Nat.zero_mul, Nat.zero_add, value, significand, exponent, if_pos small, if_pos small,
      Int.ofNat_zero, add_zero]
  · obtain ⟨r, rfl⟩ := Nat.exists_eq_add_of_le (show f.binade ≤ m by omega)
    have code : k * f.binade + (f.binade + r) = r + f.binade * (k + 1) := by
      rw [Nat.mul_succ, Nat.mul_comm k]
      omega
    have large : ¬ r + f.binade * (k + 1) < f.binade := by
      rw [Nat.mul_succ]
      omega
    have below : r < f.binade := by omega
    rw [code, value, significand, exponent, if_neg large, if_neg large, Nat.add_mul_mod_self_left,
      Nat.mod_eq_of_lt below, Nat.add_mul_div_left _ _ pos, Nat.div_eq_of_lt below]
    congr 2
    omega

theorem exponent_le {code : Nat} (h : code < f.infinity) :
    exponent f code ≤ f.leastExponent + f.infinity / f.binade := by
  have whole : code / f.binade ≤ f.infinity / f.binade := Nat.div_le_div_right h.le
  unfold exponent
  split
  · have : (0 : Int) ≤ f.infinity / f.binade := by positivity
    omega
  · have cast : ((code / f.binade : Nat) : Int) ≤ (f.infinity / f.binade : Nat) := by
      exact_mod_cast whole
    push_cast at cast ⊢
    omega

theorem widened_canonical (h : g.Widens f) {m : Nat} {e : Int} (hm : f.Canonical m e) :
    g.Canonical (m * 2 ^ (g.precision - 1 - m.log2)) (e - (g.precision - 1 - m.log2 : Nat)) ∧
      ((m * 2 ^ (g.precision - 1 - m.log2) : Nat) : ℚ) *
        2 ^ (e - (g.precision - 1 - m.log2 : Nat)) = m * 2 ^ e := by
  have bits := h.bits
  have precise := h.precise
  have low := h.low
  have inRange := hm.inRange
  have log : m.log2 < f.precision := (Nat.log2_lt hm.positive.ne').mpr hm.fits
  obtain ⟨s, hs⟩ := Nat.exists_eq_add_of_le (show m.log2 ≤ g.precision - 1 by omega)
  have rest : g.precision - 1 - m.log2 = s := by omega
  rw [rest]
  refine ⟨⟨Nat.mul_pos hm.positive (Nat.pow_pos (by decide)), ?_, by omega, .inl ?_⟩, ?_⟩
  · calc m * 2 ^ s < 2 ^ (m.log2 + 1) * 2 ^ s :=
          Nat.mul_lt_mul_of_pos_right Nat.lt_log2_self (Nat.pow_pos (by decide))
      _ = 2 ^ g.precision := by
          rw [← Nat.pow_add]
          congr 1
          omega
  · calc g.binade = 2 ^ m.log2 * 2 ^ s := by
          rw [← Nat.pow_add, ← hs]
          rfl
      _ ≤ m * 2 ^ s := Nat.mul_le_mul_right _ (Nat.log2_self_le hm.positive.ne')
  · push_cast
    rw [mul_assoc, ← zpow_natCast, ← zpow_add₀ (by norm_num)]
    congr 2
    omega

theorem widened_value (h : g.Widens f) {code : Nat} (hc : code < f.infinity) :
    (g.nearest (quotient f code).1 (quotient f code).2).val < g.infinity ∧
      value g (g.nearest (quotient f code).1 (quotient f code).2).val = value f code := by
  have precise : 0 < g.precision := h.precise.trans_le h.bits
  obtain ⟨pos, equal⟩ := quotient_value (f := f) code
  by_cases zero : code = 0
  · have numerator : (quotient f code).1 = 0 := by
      have vanishes : value f code = 0 := by
        rw [value, significand, if_pos (zero ▸ binade_pos), zero, Nat.cast_zero, zero_mul]
      rw [vanishes, div_eq_zero_iff] at equal
      rcases equal with equal | equal
      · exact_mod_cast equal
      · exact absurd equal (by exact_mod_cast pos.ne')
    have high := h.high
    have room : 0 < 2 ^ g.precision := Nat.pow_pos (by decide)
    have vanishes (k : Format) : value k 0 = 0 := by
      rw [value, significand, if_pos binade_pos, Nat.cast_zero, zero_mul]
    rw [numerator, Format.nearest_zero, zero]
    exact ⟨by change 0 < _; omega, (vanishes g).trans (vanishes f).symm⟩
  · have hm := canonical h.precise (Nat.pos_of_ne_zero zero)
    obtain ⟨canonical, same⟩ := widened_canonical h hm
    have nearest := canonical.nearest precise pos (equal.trans same.symm)
    have upper := exponent_le hc
    have high := h.high
    have fits := canonical.fits
    -- the exponent has only become less
    have steps : (exponent f code - (g.precision - 1 - (significand f code).log2 : Nat) -
        g.leastExponent).toNat * g.binade ≤
        (f.leastExponent + f.infinity / f.binade - g.leastExponent).toNat * g.binade :=
      Nat.mul_le_mul_right _ (by omega)
    rw [nearest, Nat.min_eq_right (by omega), value_canonical precise canonical, same]
    exact ⟨by omega, rfl⟩

theorem isFinite_convert (h : g.Widens f) {x : Binary f} (hx : x.isFinite = true) :
    (x.convert g).isFinite = true := by
  cases x with
  | nan => cases hx
  | signed negative code =>
      have hc : code.val < f.infinity := of_decide_eq_true hx
      rw [convert, if_neg (by omega)]
      exact decide_eq_true (widened_value h hc).1

theorem isFinite_of_convert {x : Binary f} (h : (x.convert g).isFinite = true) :
    x.isFinite = true := by
  cases x with
  | nan => cases h
  | signed negative code =>
      by_cases hc : code.val = f.infinity
      · rw [convert, if_pos hc] at h
        exact absurd (of_decide_eq_true h) (Nat.lt_irrefl g.infinity)
      · exact decide_eq_true (by omega)

theorem convert_eq_infinity {x : Binary f} (hx : x.isFinite = true)
    (h : (x.convert g).isFinite = false) : ∃ negative, x.convert g = infinity g negative := by
  cases x with
  | nan => cases hx
  | signed negative code =>
      have hc : code.val < f.infinity := of_decide_eq_true hx
      rw [convert, if_neg (by omega)] at h ⊢
      refine ⟨negative, congrArg (signed negative) (Fin.ext ?_)⟩
      exact Nat.le_antisymm (Nat.le_of_lt_succ (Fin.isLt _)) (Nat.not_lt.mp (of_decide_eq_false h))

/-- A number comes back unchanged from a wider format. -/
theorem convert_convert (h : g.Widens f) (x : Binary f) : (x.convert g).convert f = x := by
  cases x with
  | nan => rfl
  | signed negative code =>
      by_cases hc : code.val = f.infinity
      · have infinite : (g.infinityCode).val = g.infinity := rfl
        rw [convert, if_pos hc, infinity, convert, if_pos infinite, infinity]
        congr 1
        exact Fin.ext hc.symm
      · obtain ⟨finite, same⟩ := widened_value h (show code.val < f.infinity by omega)
        obtain ⟨pos, equal⟩ :=
          quotient_value (f := g) (g.nearest (quotient f code.val).1 (quotient f code.val).2).val
        rw [convert, if_neg hc, convert, if_neg finite.ne]
        exact congrArg (signed negative) (nearest_quotient h.precise pos (equal.trans same))

end Binary

end TypedJson.Number
