import TypedJson.Proofs.Number.Nearest
import TypedJson.Proofs.Number.Numeral

/-!
# Exact values of literals

A literal denotes a rational number. Asked for an integer, a whole literal is taken for what it
denotes, and one with a fraction or an exponent for the double nearest to that.
-/

set_option autoImplicit false
set_option relaxedAutoImplicit false

namespace TypedJson.Number

open Grammar (Digits Whole Fraction Exponent Unsigned)

/-! What a literal denotes. -/

/-- The digits of the fraction, from what follows the whole part of a literal. -/
def fractionDigits : List Char → List Char
  | '.' :: cs => cs.takeWhile Char.isDigit
  | _ => []

def exponentText : List Char → List Char
  | '.' :: cs => (cs.dropWhile Char.isDigit).drop 1
  | cs => cs.drop 1

def exponentValue : List Char → Int
  | '-' :: cs => -(ofDigits cs : Int)
  | '+' :: cs => ofDigits cs
  | cs => ofDigits cs

/-- A literal without its sign. -/
def unsignedPart : List Char → List Char
  | '-' :: cs => cs
  | cs => cs

/-- All digits of an unsigned literal in front of its exponent. -/
def mantissa (cs : List Char) : Nat :=
  ofDigits (cs.takeWhile Char.isDigit ++ fractionDigits (cs.dropWhile Char.isDigit))

/-- The power of ten that the mantissa of an unsigned literal counts. -/
def scale (cs : List Char) : Int :=
  exponentValue (exponentText (cs.dropWhile Char.isDigit)) -
    (fractionDigits (cs.dropWhile Char.isDigit)).length

/-- The rational number that a literal denotes. -/
def literalValue (cs : List Char) : ℚ :=
  let magnitude : ℚ := mantissa (unsignedPart cs) * 10 ^ scale (unsignedPart cs)
  if cs.head? = some '-' then -magnitude else magnitude

namespace Decimal

/-- The rational number that a decimal stands for. -/
def value (d : Decimal) : ℚ :=
  if d.negative then -(d.digits * 10 ^ d.exponent) else d.digits * 10 ^ d.exponent

theorem fractionAndExponent_eq (cs : List Char) :
    fractionAndExponent cs = (fractionDigits cs, exponentOf (exponentText cs)) := by
  cases cs with
  | nil => rfl
  | cons c cs =>
      by_cases point : c = '.'
      · rw [point]
        rfl
      · simp [fractionAndExponent, fractionDigits, exponentText, point]

theorem ofLiteral_eq (cs : List Char) :
    ofLiteral cs = ⟨cs.head? = some '-', mantissa (unsignedPart cs),
      exponentOf (exponentText ((unsignedPart cs).dropWhile Char.isDigit)) -
        (fractionDigits ((unsignedPart cs).dropWhile Char.isDigit)).length⟩ := by
  unfold ofLiteral unsignedPart
  split
  · rw [ofUnsigned, fractionAndExponent_eq]
    rfl
  · rename_i other
    have unsigned : ¬ cs.head? = some '-' := by
      intro minus
      obtain ⟨rest, rfl⟩ := List.head?_eq_some_iff.mp minus
      exact other rest rfl
    rw [ofUnsigned, fractionAndExponent_eq]
    simp only [unsigned, decide_false]
    rfl

theorem exponentOf_eq {cs : List Char} (h : (exponentValue cs).natAbs < exponentLimit) :
    exponentOf cs = exponentValue cs := by
  cases cs with
  | nil => rfl
  | cons c cs =>
      by_cases minus : c = '-'
      · subst minus
        rw [exponentValue, Int.natAbs_neg, Int.natAbs_natCast] at h
        rw [exponentOf, exponentValue, exponentMagnitude_eq h]
      · by_cases plus : c = '+'
        · subst plus
          rw [exponentValue, Int.natAbs_natCast] at h
          rw [exponentOf, exponentValue, exponentMagnitude_eq h]
        · have value : exponentValue (c :: cs) = ofDigits (c :: cs) := by
            simp [exponentValue, minus, plus]
          have read : exponentOf (c :: cs) = exponentMagnitude (c :: cs) := by
            simp [exponentOf, minus, plus]
          rw [value, Int.natAbs_natCast] at h
          rw [read, value, exponentMagnitude_eq h]

theorem value_ofLiteral {cs : List Char}
    (h : (exponentValue (exponentText ((unsignedPart cs).dropWhile Char.isDigit))).natAbs <
      exponentLimit) : (ofLiteral cs).value = literalValue cs := by
  rw [ofLiteral_eq, value, literalValue, exponentOf_eq h, scale]
  simp only [decide_eq_true_eq]

end Decimal

/-! Literals that are whole. -/

theorem dropWhile_of_whole {cs : List Char} (number : Unsigned cs) (whole : isWhole cs = true) :
    cs.dropWhile Char.isDigit = [] := by
  have mark {c : Char} (member : c ∈ cs) : c ≠ '.' ∧ c ≠ 'e' ∧ c ≠ 'E' := by
    rw [isWhole, List.all_eq_true] at whole
    exact of_decide_eq_true (whole c member)
  obtain ⟨digits, fraction, exponent⟩ := number
  rename_i w f e
  have nothing : f ++ e = [] := by
    cases fraction with
    | point _ => exact absurd rfl (mark (by simp)).1
    | none =>
        cases exponent with
        | none => rfl
        | plain he _ | signed he _ _ =>
            obtain ⟨-, small, capital⟩ := mark (List.mem_append_right w List.mem_cons_self)
            exact absurd he (by simp [small, capital])
  have all : ∀ c ∈ w, c.isDigit = true := by
    cases digits with
    | zero => simp
    | digits _ digits => exact digits.2
  rw [nothing]
  exact List.dropWhile_append_of_pos all

theorem unsignedPart_digit {c : Char} {cs : List Char} (h : c.isDigit = true) :
    unsignedPart (c :: cs) = c :: cs := by
  unfold unsignedPart
  split
  · rename_i minus
    cases minus
    exact absurd h (by decide)
  · rfl

theorem unsigned_unsignedPart {cs : List Char} (number : Grammar.Number cs) :
    Unsigned (unsignedPart cs) := by
  cases number with
  | minus unsigned => exact unsigned
  | plain unsigned =>
      have same : unsignedPart cs = cs := by
        obtain ⟨whole, _, _⟩ := unsigned
        cases whole with
        | zero => exact unsignedPart_digit rfl
        | digits _ digits => exact unsignedPart_digit (digits.2 _ List.mem_cons_self)
      rw [same]
      exact unsigned

theorem isWhole_unsignedPart {cs : List Char} (whole : isWhole cs = true) :
    isWhole (unsignedPart cs) = true := by
  unfold unsignedPart
  split
  · rw [isWhole, List.all_cons, Bool.and_eq_true] at whole
    exact whole.2
  · exact whole

theorem literalValue_of_whole {cs : List Char} (literal : isLiteral cs = true)
    (whole : isWhole cs = true) : literalValue cs = (Decimal.ofLiteral cs).toInt := by
  have nothing : (unsignedPart cs).dropWhile Char.isDigit = [] :=
    dropWhile_of_whole (unsigned_unsignedPart (isLiteral_iff.mp literal))
      (isWhole_unsignedPart whole)
  rw [literalValue, scale, nothing, Decimal.toInt, Decimal.ofLiteral_eq]
  simp only [decide_eq_true_eq]
  have none : exponentValue (exponentText []) - ((fractionDigits []).length : Int) = 0 := rfl
  rw [none, zpow_zero, mul_one]
  split <;> simp

/-! Doubles as rational numbers. -/

namespace Binary

variable {f : Format}

/-- The rational number that a finite number is. -/
def toRat? : Binary f → Option ℚ
  | .nan => none
  | .signed negative code =>
      if code.val = f.infinity then none
      else some (if negative then -value f code else value f code)

private theorem div_eq_intCast_iff {num den : Nat} (pos : 0 < den) {n : Int} :
    (num : ℚ) / den = n ↔ num % den = 0 ∧ ((num / den : Nat) : Int) = n := by
  have nonzero : (den : ℚ) ≠ 0 := by exact_mod_cast pos.ne'
  rw [div_eq_iff nonzero]
  constructor
  · intro product
    have whole : (num : Int) = n * den := by exact_mod_cast product
    obtain ⟨k, rfl⟩ := Int.eq_ofNat_of_zero_le (show 0 ≤ n by
      by_contra negative
      have : n * den < 0 := Int.mul_neg_of_neg_of_pos (by omega) (by omega)
      omega)
    have natural : num = k * den := by exact_mod_cast whole
    rw [natural, Nat.mul_mod_left, Nat.mul_div_cancel k pos]
    exact ⟨rfl, rfl⟩
  · rintro ⟨divides, rfl⟩
    have product : num / den * den = num :=
      Nat.div_mul_cancel (Nat.dvd_of_mod_eq_zero divides)
    exact_mod_cast product.symm

theorem toInt?_eq_some_iff {x : Binary f} (finite : x.isInfinite = false) {n : Int} :
    x.toInt? = some n ↔ x.toRat? = some (n : ℚ) := by
  cases x with
  | nan => simp [toInt?, toRat?]
  | signed negative code =>
      obtain ⟨pos, equal⟩ := quotient_value (f := f) code
      have below : ¬ code.val = f.infinity := of_decide_eq_false finite
      rw [toInt?, toRat?, if_neg below, ← equal]
      dsimp only
      generalize quotient f code = q at pos
      obtain ⟨num, den⟩ := q
      dsimp only at pos ⊢
      cases negative with
      | false =>
          simp only [Bool.false_eq_true, if_false, Option.some_inj]
          rw [div_eq_intCast_iff pos]
          by_cases divides : num % den = 0
          · simp [divides]
          · simp [divides]
      | true =>
          simp only [if_true, Option.some_inj]
          rw [neg_eq_iff_eq_neg, ← Int.cast_neg, div_eq_intCast_iff pos, ← neg_eq_iff_eq_neg]
          by_cases divides : num % den = 0
          · simp [divides]
          · simp [divides]

end Binary

/-! Integers. -/

namespace IntegerType

variable {type : IntegerType} {n : Int}

theorem admits_iff : type.admits n = true ↔ type.least ≤ n ∧ n ≤ type.greatest :=
  decide_eq_true_iff

theorem admits_int64 (h : type.admits n = true) : int64.admits n = true := by
  have range : int64.least ≤ type.least ∧ type.greatest ≤ int64.greatest := by
    cases type <;> decide
  rw [admits_iff] at h ⊢
  omega

end IntegerType

/-- The number that a literal is taken for where an integer is asked for: what it denotes if it is
whole, and otherwise the double nearest to that. -/
def takenValue? (cs : List Char) : Option ℚ :=
  if isWhole cs then some (literalValue cs)
  else (Binary.ofDecimal .double (Decimal.ofLiteral cs)).toRat?

private theorem checked_eq_ok {type : IntegerType} {m n : Int} :
    (if type.admits m then Except.ok m else .error ConversionFault.range) = .ok n ↔
      m = n ∧ type.admits n = true := by
  constructor
  · intro h
    split at h
    · cases h
      exact ⟨rfl, ‹_›⟩
    · cases h
  · rintro ⟨rfl, admitted⟩
    rw [if_pos admitted]

theorem toInt64_eq_ok_iff {cs : List Char} {n : Int} :
    toInt64 cs = .ok n ↔ isLiteral cs = true ∧ IntegerType.int64.admits n = true ∧
      takenValue? cs = some (n : ℚ) := by
  by_cases literal : isLiteral cs = true
  · rw [toInt64, if_neg (not_not_intro literal), takenValue?]
    dsimp only
    by_cases whole : isWhole cs = true
    · rw [if_pos whole, if_pos whole, literalValue_of_whole literal whole, checked_eq_ok,
        Option.some_inj, Int.cast_inj, and_comm]
      simp [literal]
    · rw [if_neg whole, if_neg whole]
      generalize Binary.ofDecimal .double (Decimal.ofLiteral cs) = x
      by_cases infinite : x.isInfinite = true
      · have none : x.toRat? = none := by
          cases x with
          | nan => rfl
          | signed negative code => exact if_pos (of_decide_eq_true infinite)
        simp [infinite, none]
      · rw [if_neg infinite, ← Binary.toInt?_eq_some_iff (Bool.eq_false_of_not_eq_true infinite)]
        cases x.toInt? with
        | none => simp
        | some m =>
            dsimp only
            rw [checked_eq_ok, Option.some_inj, and_comm]
            simp [literal]
  · rw [toInt64, if_pos literal]
    simp [literal]

/-- Literals with a fraction or an exponent are taken for another number than they denote, one of
the two being a 64-bit integer. -/
def Misread (cs : List Char) : Prop :=
  isLiteral cs = true ∧ ∃ n : Int, IntegerType.int64.admits n = true ∧
    ¬ (takenValue? cs = some (n : ℚ) ↔ literalValue cs = n)

/-- Reading integers is exact for the literals that are not misread, and for no others. -/
theorem toInt64_exact_iff {cs : List Char} :
    (∀ n : Int, toInt64 cs = .ok n ↔ isLiteral cs = true ∧
      IntegerType.int64.admits n = true ∧ literalValue cs = n) ↔ ¬ Misread cs := by
  constructor
  · rintro exact ⟨literal, n, admitted, differs⟩
    have same := exact n
    rw [toInt64_eq_ok_iff] at same
    simp only [literal, admitted, true_and] at same
    exact differs same
  · intro h n
    have agree (literal : isLiteral cs = true) (admitted : IntegerType.int64.admits n = true) :
        takenValue? cs = some (n : ℚ) ↔ literalValue cs = n := by
      by_contra differs
      exact h ⟨literal, n, admitted, differs⟩
    rw [toInt64_eq_ok_iff]
    constructor
    · rintro ⟨literal, admitted, taken⟩
      exact ⟨literal, admitted, (agree literal admitted).mp taken⟩
    · rintro ⟨literal, admitted, denotes⟩
      exact ⟨literal, admitted, (agree literal admitted).mpr denotes⟩

/-! Literals that are not misread. -/

/-- A literal of few digits, not too large, not counting a very small power of ten, and with an
exponent that is read whole. -/
structure IsShort (cs : List Char) : Prop where
  digits : mantissa (unsignedPart cs) < 2 ^ 53
  small : |literalValue cs| < 2 ^ 53
  coarse : -323 ≤ scale (unsignedPart cs)
  exponent : (exponentValue (exponentText ((unsignedPart cs).dropWhile Char.isDigit))).natAbs <
    Decimal.exponentLimit

namespace IsShort

variable {cs : List Char}

theorem exists_digits (h : IsShort cs) : ∃ m t : Nat, m < 2 ^ 53 ∧ t ≤ 323 ∧
    (mantissa (unsignedPart cs) : ℚ) * 10 ^ scale (unsignedPart cs) = m / 10 ^ t ∧
    (mantissa (unsignedPart cs) : ℚ) * 10 ^ scale (unsignedPart cs) < 2 ^ 53 := by
  have few := h.digits
  have small := h.small
  have coarse := h.coarse
  have magnitude : |literalValue cs| =
      mantissa (unsignedPart cs) * 10 ^ scale (unsignedPart cs) := by
    have nonneg : (0 : ℚ) ≤ mantissa (unsignedPart cs) * 10 ^ scale (unsignedPart cs) := by
      positivity
    rw [literalValue]
    split
    · rw [abs_neg, abs_of_nonneg nonneg]
    · rw [abs_of_nonneg nonneg]
  rw [magnitude] at small
  generalize mantissa (unsignedPart cs) = m at few small
  generalize scale (unsignedPart cs) = s at small coarse
  rcases Int.le_total 0 s with whole | fraction
  · obtain ⟨k, rfl⟩ := Int.eq_ofNat_of_zero_le whole
    have same : (m : ℚ) * 10 ^ (k : Int) = ((m * 10 ^ k : Nat) : ℚ) := by
      push_cast
      rw [zpow_natCast]
    refine ⟨m * 10 ^ k, 0, ?_, Nat.zero_le _, ?_, small⟩
    · rw [same] at small
      exact_mod_cast small
    · rw [same, pow_zero, div_one]
  · obtain ⟨t, ht⟩ := Int.eq_ofNat_of_zero_le (show 0 ≤ -s by omega)
    obtain rfl : s = -(t : Int) := by omega
    refine ⟨m, t, few, by omega, ?_, small⟩
    rw [zpow_neg, zpow_natCast, div_eq_mul_inv]

private theorem signed_congr {x y : ℚ} (hx : 0 ≤ x) (hy : 0 ≤ y)
    (h : ∀ k : Nat, x = k ↔ y = k) (negative : Bool) (n : Int) :
    (if negative then -x else x) = n ↔ (if negative then -y else y) = n := by
  have integer (n : Int) : x = n ↔ y = n := by
    rcases Int.le_total 0 n with nonneg | nonpos
    · obtain ⟨k, rfl⟩ := Int.eq_ofNat_of_zero_le nonneg
      exact_mod_cast h k
    · have below : (n : ℚ) ≤ 0 := by exact_mod_cast nonpos
      have zero := h 0
      rw [Nat.cast_zero] at zero
      constructor
      · intro same
        have vanishes : x = 0 := by linarith
        rw [zero.mp vanishes, ← vanishes, same]
      · intro same
        have vanishes : y = 0 := by linarith
        rw [zero.mpr vanishes, ← vanishes, same]
  cases negative with
  | false => exact integer n
  | true =>
      simp only [if_true]
      rw [neg_eq_iff_eq_neg, neg_eq_iff_eq_neg, ← Int.cast_neg]
      exact integer (-n)

theorem not_misread (h : IsShort cs) : ¬ Misread cs := by
  rintro ⟨literal, n, -, differs⟩
  apply differs
  by_cases whole : isWhole cs = true
  · rw [takenValue?, if_pos whole, Option.some_inj]
  obtain ⟨m, t, few, coarse, digits, small⟩ := h.exists_digits
  obtain ⟨num, den, hd, hq⟩ :=
    Format.exists_quotient (mantissa (unsignedPart cs)) (scale (unsignedPart cs))
  have decimal : Decimal.ofLiteral cs =
      ⟨cs.head? = some '-', mantissa (unsignedPart cs), scale (unsignedPart cs)⟩ := by
    rw [Decimal.ofLiteral_eq, Decimal.exponentOf_eq h.exponent, scale]
  rw [← hq] at digits small
  obtain ⟨finite, same⟩ := value_nearest_eq_natCast_iff hd few coarse digits small
  have nonneg : 0 ≤ Binary.value .double (Format.double.nearest num den).val := by
    rw [Binary.value]
    positivity
  have signs := signed_congr nonneg (by positivity) same (cs.head? = some '-') n
  rw [takenValue?, if_neg whole, decimal, Binary.ofDecimal, Format.nearestDecimal_eq hd hq,
    Binary.toRat?, if_neg finite.ne, Option.some_inj, literalValue, ← hq, signs]
  simp only [decide_eq_true_eq]

end IsShort

end TypedJson.Number
