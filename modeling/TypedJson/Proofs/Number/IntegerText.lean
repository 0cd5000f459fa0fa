import TypedJson.Number.Conversion
import TypedJson.Proofs.Number.Literal

set_option autoImplicit false
set_option relaxedAutoImplicit false

namespace TypedJson.Number

open Grammar (Digits Whole Unsigned)

theorem digits_toDigits (n : Nat) : Digits (Nat.toDigits 10 n) :=
  ⟨Nat.toDigits_ne_nil, fun _ hc => Nat.isDigit_of_mem_toDigits (by decide) (by decide) hc⟩

theorem toDigits_head {n : Nat} (h : 0 < n) :
    ∃ c cs, Nat.toDigits 10 n = c :: cs ∧ c ≠ '0' := by
  induction n using Nat.strongRecOn with
  | ind n ih =>
      by_cases hn : n < 10
      · refine ⟨n.digitChar, [], Nat.toDigits_of_lt_base hn, ?_⟩
        intro hc
        have value := Nat.toNat_digitChar_sub_48_of_lt_ten hn
        rw [hc] at value
        exact absurd value (by simp; omega)
      · obtain ⟨c, cs, hc, ne⟩ := ih (n / 10) (by omega) (by omega)
        exact ⟨c, cs ++ [(n % 10).digitChar],
          by rw [Nat.toDigits_of_base_le (by decide) (by omega), hc, List.cons_append], ne⟩

theorem whole_toDigits (n : Nat) : Whole (Nat.toDigits 10 n) := by
  by_cases h : 0 < n
  · obtain ⟨c, cs, hc, ne⟩ := toDigits_head h
    have digits := digits_toDigits n
    rw [hc] at digits ⊢
    exact .digits ne digits
  · obtain rfl : n = 0 := by omega
    exact .zero

theorem number_integerText (n : Int) : Grammar.Number (integerText n) := by
  have unsigned (k : Nat) : Unsigned (Nat.toDigits 10 k) := by
    have parts := Unsigned.parts (whole_toDigits k) .none .none
    rwa [List.append_nil, List.append_nil] at parts
  unfold integerText
  split
  · exact .minus (unsigned _)
  · exact .plain (unsigned _)

theorem isLiteral_integerText (n : Int) : isLiteral (integerText n) = true :=
  isLiteral_iff.mpr (number_integerText n)

theorem ofDigits_toDigits (n : Nat) : ofDigits (Nat.toDigits 10 n) = n :=
  Nat.ofDigitChars_ten_toDigits

end TypedJson.Number
