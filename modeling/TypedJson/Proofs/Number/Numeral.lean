import TypedJson.Number.Layout
import TypedJson.Proofs.Number.IntegerText
import TypedJson.Proofs.Number.Shortest

set_option autoImplicit false
set_option relaxedAutoImplicit false

namespace TypedJson.Number

open Grammar (Digits Whole Fraction Exponent Unsigned)
open Shortest (Scaled)

namespace Layout

/-! The text of a magnitude is a number of the grammar. -/

theorem digits_append {cs ds : List Char} (h : Digits cs) (hs : ∀ d ∈ ds, d.isDigit = true) :
    Digits (cs ++ ds) := by
  refine ⟨fun empty => h.1 (List.append_eq_nil_iff.mp empty).1, fun c hc => ?_⟩
  rcases List.mem_append.mp hc with hc | hc
  · exact h.2 c hc
  · exact hs c hc

theorem digit_zeros (k : Nat) : ∀ c ∈ List.replicate k '0', c.isDigit = true := by
  intro c hc
  rw [List.eq_of_mem_replicate hc]
  rfl

theorem fraction_zero : Fraction ['.', '0'] :=
  .point ⟨by simp, by simp⟩

theorem exponent_integerText (n : Int) : Exponent ('e' :: integerText n) := by
  unfold integerText
  split
  · exact .signed (.inl rfl) (.inr rfl) (digits_toDigits _)
  · exact .plain (.inl rfl) (digits_toDigits _)

theorem unsigned_setPoint {n : Nat} {point : Int} (h : n = 0 → point = 1) :
    Unsigned (numeral.setPoint (Nat.toDigits 10 n) point) := by
  have digits := digits_toDigits n
  unfold setPoint
  split
  · have fraction : Digits (List.replicate (-point).toNat '0' ++ Nat.toDigits 10 n) := by
      refine ⟨fun empty => digits.1 (List.append_eq_nil_iff.mp empty).2, fun c hc => ?_⟩
      rcases List.mem_append.mp hc with hc | hc
      · exact digit_zeros _ c hc
      · exact digits.2 c hc
    have parts := Unsigned.parts .zero (.point fraction) .none
    rwa [List.append_nil] at parts
  · by_cases zero : n = 0
    · rw [h zero, zero, Nat.toDigits_zero]
      exact .parts .zero fraction_zero .none
    · obtain ⟨c, cs, hc, nonzero⟩ := toDigits_head (Nat.pos_of_ne_zero zero)
      rw [hc] at digits ⊢
      split
      · obtain ⟨k, hk⟩ := Int.eq_ofNat_of_zero_le (show 0 ≤ point - 1 by omega)
        have front : point.toNat = k + 1 := by omega
        have short : k < cs.length := by
          simp only [List.length_cons] at *
          omega
        rw [front, List.take_succ_cons, List.drop_succ_cons]
        have whole : Digits (c :: cs.take k) := by
          refine ⟨by simp, fun d hd => digits.2 d ?_⟩
          rw [← List.take_succ_cons] at hd
          exact List.mem_of_mem_take hd
        have fraction : Digits (cs.drop k) := by
          refine ⟨?_, fun d hd => digits.2 d (List.mem_cons_of_mem _ (List.mem_of_mem_drop hd))⟩
          intro empty
          rw [List.drop_eq_nil_iff] at empty
          omega
        have parts := Unsigned.parts (.digits nonzero whole) (.point fraction) .none
        rwa [List.append_nil] at parts
      · have whole := digits_append digits (digit_zeros (point.toNat - (c :: cs).length))
        exact .parts (.digits nonzero whole) fraction_zero .none

theorem unsigned_setExponent {n : Nat} (h : n ≠ 0) (exponent : Int) :
    Unsigned (setExponent (Nat.toDigits 10 n) exponent) := by
  have digits := digits_toDigits n
  obtain ⟨c, cs, hc, nonzero⟩ := toDigits_head (Nat.pos_of_ne_zero h)
  have mark := exponent_integerText exponent
  rw [hc] at digits ⊢
  cases cs with
  | nil => exact .parts (.digits nonzero digits) .none mark
  | cons d rest =>
      have whole : Digits [c] := ⟨by simp, fun e he => digits.2 e (by simp_all)⟩
      have fraction : Digits (d :: rest) :=
        ⟨by simp, fun e he => digits.2 e (List.mem_cons_of_mem _ he)⟩
      exact .parts (.digits nonzero whole) (.point fraction) mark

theorem unsigned_magnitudeText {s : Scaled} (h : s.digits = 0 → s.exponent = 0) :
    Unsigned (numeral.magnitudeText s) := by
  unfold magnitudeText
  dsimp only
  split
  · apply unsigned_setPoint
    intro zero
    rw [zero, h zero, Nat.toDigits_zero]
    rfl
  · rename_i marked
    exact unsigned_setExponent (fun zero => marked (.inl zero)) _

end Layout

/-! What the parts of a literal come to. -/

namespace Decimal

theorem ofDigits_eq (cs : List Char) : ofDigits cs = Nat.ofDigitChars 10 cs 0 :=
  Nat.ofDigitChars_eq_foldl.symm

theorem ofDigits_zeros_append (k : Nat) (cs : List Char) :
    ofDigits (List.replicate k '0' ++ cs) = ofDigits cs := by
  rw [ofDigits_eq, Nat.ofDigitChars_append, Nat.ofDigitChars_replicate_zero, Nat.mul_zero,
    ofDigits_eq]

theorem ofDigits_append_zeros (cs : List Char) (k : Nat) :
    ofDigits (cs ++ List.replicate k '0') = 10 ^ k * ofDigits cs := by
  rw [ofDigits_eq, Nat.ofDigitChars_append, Nat.ofDigitChars_replicate_zero, ofDigits_eq]

theorem exponentMagnitude_eq {cs : List Char} (h : ofDigits cs < exponentLimit) :
    exponentMagnitude cs = ofDigits cs := by
  unfold exponentMagnitude ofDigits at *
  generalize 0 = n at h ⊢
  induction cs generalizing n with
  | nil => rfl
  | cons c cs ih =>
      rw [List.foldl_cons] at h ⊢
      have grows (ds : List Char) (m : Nat) :
          m ≤ ds.foldl (fun n c => 10 * n + digitValue c) m := by
        induction ds generalizing m with
        | nil => exact le_refl _
        | cons d ds ihd =>
            rw [List.foldl_cons]
            have := ihd (10 * m + digitValue d)
            omega
      have below := grows cs (10 * n + digitValue c)
      rw [List.foldl_cons, if_pos (show n < exponentLimit by omega)]
      exact ih _ h

theorem exponentOf_integerText {n : Int} (h : n.natAbs < exponentLimit) :
    exponentOf (integerText n) = n := by
  have magnitude : exponentMagnitude (Nat.toDigits 10 n.natAbs) = n.natAbs := by
    rw [exponentMagnitude_eq (by rwa [ofDigits_toDigits]), ofDigits_toDigits]
  unfold integerText
  split
  · rw [exponentOf, magnitude]
    omega
  · have digits := digits_toDigits n.natAbs
    obtain ⟨c, cs, hc⟩ := List.exists_cons_of_ne_nil digits.1
    have digit := digits.2 c (hc ▸ List.mem_cons_self)
    rw [hc] at magnitude ⊢
    unfold exponentOf
    split
    · rename_i heq
      cases heq
      exact absurd digit (by decide)
    · rename_i heq
      cases heq
      exact absurd digit (by decide)
    · rename_i heq
      rw [magnitude]
      omega

section

variable (negative : Bool) (whole fraction : List Char) {rest : List Char}

/-- Neither a digit nor anything that follows a digit other than the mark of an exponent. -/
def Ends (rest : List Char) : Prop :=
  rest = [] ∨ ∃ cs, rest = 'e' :: cs

theorem Ends.takeWhile {whole : List Char} (h : Ends rest) (hw : ∀ c ∈ whole, c.isDigit = true) :
    (whole ++ rest).takeWhile Char.isDigit = whole ∧
      (whole ++ rest).dropWhile Char.isDigit = rest := by
  rw [List.takeWhile_append_of_pos hw, List.dropWhile_append_of_pos hw]
  rcases h with rfl | ⟨cs, rfl⟩
  · simp
  · simp

theorem ofUnsigned_whole (hw : ∀ c ∈ whole, c.isDigit = true) (h : Ends rest) :
    ofUnsigned negative (whole ++ rest) =
      ⟨negative, ofDigits whole, exponentOf (rest.drop 1)⟩ := by
  obtain ⟨front, back⟩ := h.takeWhile hw
  rw [ofUnsigned, front, back]
  rcases h with rfl | ⟨cs, rfl⟩
  · simp [fractionAndExponent]
  · simp [fractionAndExponent]

theorem ofUnsigned_fraction (hw : ∀ c ∈ whole, c.isDigit = true)
    (hf : ∀ c ∈ fraction, c.isDigit = true) (h : Ends rest) :
    ofUnsigned negative (whole ++ '.' :: (fraction ++ rest)) =
      ⟨negative, ofDigits (whole ++ fraction), exponentOf (rest.drop 1) - fraction.length⟩ := by
  obtain ⟨front, back⟩ := h.takeWhile hf
  have point : ¬ ('.' : Char).isDigit = true := by decide
  have whole_front : (whole ++ '.' :: (fraction ++ rest)).takeWhile Char.isDigit = whole := by
    rw [List.takeWhile_append_of_pos hw, List.takeWhile_cons_of_neg point, List.append_nil]
  have whole_back : (whole ++ '.' :: (fraction ++ rest)).dropWhile Char.isDigit =
      '.' :: (fraction ++ rest) := by
    rw [List.dropWhile_append_of_pos hw, List.dropWhile_cons_of_neg point]
  rw [ofUnsigned, whole_front, whole_back]
  simp only [fractionAndExponent, front, back]

end

end Decimal

namespace Layout

open Decimal

def Denotes (d : Decimal) (negative : Bool) (s : Scaled) : Prop :=
  d.negative = negative ∧ (d.digits : ℚ) * 10 ^ d.exponent = s.value

variable (negative : Bool) {s : Scaled}

theorem denotes_setPoint {point : Int}
    (h : point = (Nat.toDigits 10 s.digits).length + s.exponent) :
    Denotes (ofUnsigned negative (numeral.setPoint (Nat.toDigits 10 s.digits) point)) negative
      s := by
  have digits := (digits_toDigits s.digits).2
  have number := ofDigits_toDigits s.digits
  have ends : Ends [] := .inl rfl
  generalize Nat.toDigits 10 s.digits = ds at h digits number
  unfold setPoint
  split
  · have fraction : ∀ c ∈ List.replicate (-point).toNat '0' ++ ds, c.isDigit = true := by
      intro c hc
      rcases List.mem_append.mp hc with hc | hc
      · exact digit_zeros _ c hc
      · exact digits c hc
    have value := ofUnsigned_fraction negative ['0'] _ (by simp) fraction ends
    rw [List.append_nil] at value
    have zero : ofDigits ('0' :: (List.replicate (-point).toNat '0' ++ ds)) = s.digits := by
      rw [← number]
      exact ofDigits_zeros_append ((-point).toNat + 1) ds
    refine (congrArg (Denotes · negative s) value).mpr ⟨rfl, ?_⟩
    rw [Scaled.value]
    simp only [List.singleton_append, zero, List.drop_nil, exponentOf, exponentMagnitude,
      List.foldl_nil, List.length_append, List.length_replicate]
    congr 2
    omega
  · split
    · have value := ofUnsigned_fraction negative (ds.take point.toNat) (ds.drop point.toNat)
        (fun c hc => digits c (List.mem_of_mem_take hc))
        (fun c hc => digits c (List.mem_of_mem_drop hc)) ends
      rw [List.append_nil, List.take_append_drop, number] at value
      refine (congrArg (Denotes · negative s) value).mpr ⟨rfl, ?_⟩
      rw [Scaled.value]
      simp only [List.drop_nil, exponentOf, exponentMagnitude, List.foldl_nil, List.length_drop]
      congr 2
      omega
    · have whole : ∀ c ∈ ds ++ List.replicate (point.toNat - ds.length) '0', c.isDigit = true := by
        intro c hc
        rcases List.mem_append.mp hc with hc | hc
        · exact digits c hc
        · exact digit_zeros _ c hc
      have value := ofUnsigned_fraction negative _ ['0'] whole (by simp) ends
      obtain ⟨k, hk⟩ := Int.eq_ofNat_of_zero_le (show 0 ≤ s.exponent by omega)
      have zeros : point.toNat - ds.length = k := by omega
      have tens : ofDigits (ds ++ List.replicate k '0' ++ ['0']) = 10 ^ (k + 1) * s.digits := by
        rw [List.append_assoc, ← List.replicate_succ', ofDigits_append_zeros, number]
      rw [zeros, tens] at value
      rw [zeros]
      refine (congrArg (Denotes · negative s) value).mpr ⟨rfl, ?_⟩
      rw [Scaled.value, hk]
      simp only [List.drop_nil, exponentOf, exponentMagnitude, List.foldl_nil,
        List.length_singleton, Nat.cast_mul, Nat.cast_pow, Nat.cast_ofNat, pow_succ]
      norm_num
      ring

theorem denotes_setExponent {exponent : Int}
    (h : exponent = (Nat.toDigits 10 s.digits).length + s.exponent - 1)
    (small : exponent.natAbs < exponentLimit) :
    Denotes (ofUnsigned negative (setExponent (Nat.toDigits 10 s.digits) exponent)) negative s := by
  have digits := (digits_toDigits s.digits).2
  have number := ofDigits_toDigits s.digits
  have ends : Ends ('e' :: integerText exponent) := .inr ⟨_, rfl⟩
  have mark : exponentOf (List.drop 1 ('e' :: integerText exponent)) = exponent :=
    exponentOf_integerText small
  obtain ⟨c, cs, hc⟩ := List.exists_cons_of_ne_nil (digits_toDigits s.digits).1
  rw [hc] at h digits number ⊢
  cases cs with
  | nil =>
      have value := ofUnsigned_whole negative _ digits ends
      refine (congrArg (Denotes · negative s) value).mpr ⟨rfl, ?_⟩
      rw [Scaled.value]
      dsimp only
      rw [mark, number, h]
      congr 2
      simp
  | cons d rest =>
      have value := ofUnsigned_fraction negative [c] (d :: rest)
        (fun e he => digits e (by simp_all)) (fun e he => digits e (List.mem_cons_of_mem _ he)) ends
      refine (congrArg (Denotes · negative s) value).mpr ⟨rfl, ?_⟩
      rw [Scaled.value]
      dsimp only
      rw [mark, List.singleton_append, number, h]
      congr 2
      simp only [List.length_cons]
      omega

theorem denotes_magnitudeText
    (small : ((Nat.toDigits 10 s.digits).length + s.exponent - 1).natAbs < exponentLimit) :
    Denotes (ofUnsigned negative (numeral.magnitudeText s)) negative s := by
  unfold magnitudeText
  dsimp only
  split
  · exact denotes_setPoint negative rfl
  · exact denotes_setExponent negative rfl small

end Layout

variable {f : Format}

/-- The numeral of a finite number is a number of the grammar. -/
theorem number_numeral (hp : 0 < f.precision) {x : Binary f} (hx : x.isFinite = true) :
    Grammar.Number x.numeral := by
  cases x with
  | nan => cases hx
  | signed negative code =>
      have finite : code.val < f.infinity := of_decide_eq_true hx
      have unsigned := Layout.unsigned_magnitudeText (Shortest.shortest_zero hp code)
      rw [Binary.numeral, if_neg finite.ne]
      unfold Layout.finiteText
      cases negative with
      | false => exact .plain unsigned
      | true => exact .minus unsigned

theorem not_word {s : String} (h : isLiteral s.toList = true) : s ∉ nonFiniteWords := by
  intro word
  simp only [nonFiniteWords, List.mem_cons, List.not_mem_nil, or_false] at word
  rcases word with rfl | rfl | rfl
  · exact absurd h (by decide)
  · exact absurd h (by decide)
  · exact absurd h (by decide)

theorem ofLiteral_minus (cs : List Char) : Decimal.ofLiteral ('-' :: cs) = .ofUnsigned true cs :=
  rfl

theorem ofLiteral_digit {c : Char} {cs : List Char} (h : c.isDigit = true) :
    Decimal.ofLiteral (c :: cs) = .ofUnsigned false (c :: cs) := by
  unfold Decimal.ofLiteral
  split
  · rename_i heq
    cases heq
    exact absurd h (by decide)
  · rfl

theorem ofLiteral_unsigned {cs : List Char} (h : Unsigned cs) :
    Decimal.ofLiteral cs = .ofUnsigned false cs := by
  obtain ⟨whole, _, _⟩ := h
  cases whole with
  | zero => exact ofLiteral_digit rfl
  | digits _ digits => exact ofLiteral_digit (digits.2 _ List.mem_cons_self)

/-- The double nearest to the numeral of a finite double is that double. -/
theorem ofDecimal_numeral {x : Double} (hx : x.isFinite = true) :
    Binary.ofDecimal .double (Decimal.ofLiteral x.numeral) = x := by
  cases x with
  | nan => cases hx
  | signed negative code =>
      have finite : code.val < Format.double.infinity := of_decide_eq_true hx
      have precise : 0 < Format.double.precision := by decide
      have unsigned := Layout.unsigned_magnitudeText (Shortest.shortest_zero precise code)
      have point := Shortest.shortest_point finite
      have limit : Decimal.exponentLimit = 65536 := rfl
      rw [abs_le] at point
      obtain ⟨sign, value⟩ := Layout.denotes_magnitudeText negative (s := Shortest.shortest _ code)
        (by omega)
      have literal : Decimal.ofLiteral (Binary.numeral (.signed negative code : Double)) =
          .ofUnsigned negative (Layout.numeral.magnitudeText (Shortest.shortest _ code)) := by
        rw [Binary.numeral, if_neg finite.ne]
        cases negative with
        | false => exact ofLiteral_unsigned unsigned
        | true => exact ofLiteral_minus _
      rw [literal, Binary.ofDecimal, sign, Format.nearestDecimal_congr value,
        Shortest.shortest_reads precise code]

/-- The numeral of a double reads back to the double; a non-finite one only in a lenient reading. -/
theorem toDouble_numeral {x : Double} {lenient : Bool} (h : x.isFinite = true ∨ lenient = true) :
    toDouble lenient (String.ofList x.numeral) = .ok x := by
  unfold toDouble
  by_cases hx : x.isFinite = true
  · have literal : isLiteral (String.ofList x.numeral).toList = true := by
      rw [String.toList_ofList]
      exact isLiteral_iff.mpr (number_numeral (by decide) hx)
    have finite : ¬ (x.isInfinite = true ∧ ¬ lenient = true) := by
      rintro ⟨infinite, -⟩
      cases x with
      | nan => cases hx
      | signed negative code => exact (of_decide_eq_true hx).ne (of_decide_eq_true infinite)
    rw [if_neg (fun word => not_word literal word.2), if_neg (not_not_intro literal)]
    rw [String.toList_ofList, ofDecimal_numeral hx]
    exact if_neg finite
  · have lenient := h.resolve_left hx
    cases x with
    | nan =>
        rw [if_pos ⟨lenient, by decide⟩]
        rfl
    | signed negative code =>
        have infinite : code.val = Format.double.infinity := by
          have := code.isLt
          simp only [Binary.isFinite, decide_eq_true_eq] at hx
          omega
        have same : code = Format.double.infinityCode := Fin.ext infinite
        cases negative with
        | false =>
            rw [Binary.numeral, if_pos infinite, if_pos ⟨lenient, by decide⟩, same]
            rfl
        | true =>
            rw [Binary.numeral, if_pos infinite, if_pos ⟨lenient, by decide⟩, same]
            rfl

/-! Integers. -/

theorem isWhole_integerText (n : Int) : isWhole (integerText n) = true := by
  have digits (k : Nat) : isWhole (Nat.toDigits 10 k) = true := by
    rw [isWhole, List.all_eq_true]
    intro c hc
    have digit := (digits_toDigits k).2 c hc
    apply decide_eq_true
    refine ⟨?_, ?_, ?_⟩
    · rintro rfl
      exact absurd digit (by decide)
    · rintro rfl
      exact absurd digit (by decide)
    · rintro rfl
      exact absurd digit (by decide)
  unfold integerText
  split
  · rw [isWhole, List.all_cons]
    exact digits _
  · exact digits _

theorem toInt_integerText (n : Int) : (Decimal.ofLiteral (integerText n)).toInt = n := by
  have unsigned (negative : Bool) : Decimal.ofUnsigned negative (Nat.toDigits 10 n.natAbs) =
      ⟨negative, n.natAbs, 0⟩ := by
    have value := Decimal.ofUnsigned_whole negative _ (digits_toDigits n.natAbs).2 (.inl rfl)
    rwa [List.append_nil, ofDigits_toDigits] at value
  unfold integerText
  split
  · rw [ofLiteral_minus, unsigned, Decimal.toInt, if_pos rfl]
    dsimp only
    omega
  · have whole := Unsigned.parts (whole_toDigits n.natAbs) .none .none
    rw [List.append_nil, List.append_nil] at whole
    rw [ofLiteral_unsigned whole, unsigned, Decimal.toInt, if_neg Bool.false_ne_true]
    dsimp only
    omega

theorem toInt64_integerText {n : Int} (h : IntegerType.int64.admits n = true) :
    toInt64 (integerText n) = .ok n := by
  unfold toInt64
  rw [if_neg (not_not_intro (isLiteral_integerText n))]
  dsimp only
  rw [if_pos (isWhole_integerText n), toInt_integerText, if_pos h]

end TypedJson.Number
