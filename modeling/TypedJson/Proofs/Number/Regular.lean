import Mathlib.Computability.RegularExpressions
import TypedJson.Proofs.Number.Literal

/-!
# Number literals as a regular language

The rule for numbers of RFC 8259, section 6, as a regular expression: `[ minus ] int [ frac ]
[ exp ]`. The automaton accepts the language of that expression.
-/

set_option autoImplicit false
set_option relaxedAutoImplicit false

namespace TypedJson.Number.Regular

open RegularExpression (char)

def oneOf (cs : List Char) : RegularExpression Char :=
  cs.foldr (fun c r => char c + r) 0

def optional (r : RegularExpression Char) : RegularExpression Char :=
  1 + r

def many (r : RegularExpression Char) : RegularExpression Char :=
  r * r.star

def nonzeroDigits : List Char :=
  ['1', '2', '3', '4', '5', '6', '7', '8', '9']

def digits : List Char :=
  '0' :: nonzeroDigits

/-- The whole part: a zero, or digits of which the first is none. -/
def whole : RegularExpression Char :=
  char '0' + oneOf nonzeroDigits * (oneOf digits).star

def fraction : RegularExpression Char :=
  char '.' * many (oneOf digits)

def exponent : RegularExpression Char :=
  oneOf ['e', 'E'] * (optional (oneOf ['-', '+']) * many (oneOf digits))

def number : RegularExpression Char :=
  optional (char '-') * (whole * (optional fraction * optional exponent))

variable {cs : List Char} {r : RegularExpression Char}

theorem mem_oneOf {among : List Char} :
    cs ∈ (oneOf among).matches' ↔ ∃ c ∈ among, cs = [c] := by
  induction among with
  | nil => simp [oneOf, RegularExpression.matches'_zero, Language.notMem_zero]
  | cons a among ih =>
      simp only [oneOf, List.foldr_cons] at ih ⊢
      rw [RegularExpression.matches'_add, Language.mem_add, ih, List.exists_mem_cons_iff]
      rfl

theorem mem_optional : cs ∈ (optional r).matches' ↔ cs = [] ∨ cs ∈ r.matches' := by
  rw [optional, RegularExpression.matches'_add, Language.mem_add]
  rfl

theorem mem_star_oneOf {among : List Char} :
    cs ∈ (oneOf among).star.matches' ↔ ∀ c ∈ cs, c ∈ among := by
  rw [RegularExpression.matches'_star, Language.mem_kstar]
  constructor
  · rintro ⟨words, rfl, single⟩ c hc
    obtain ⟨word, hword, hc⟩ := List.mem_flatten.mp hc
    obtain ⟨a, ha, rfl⟩ := mem_oneOf.mp (single word hword)
    rwa [List.mem_singleton.mp hc]
  · intro every
    refine ⟨cs.map fun c => [c], ?_, fun word hword => ?_⟩
    · rw [← List.flatMap_def, List.flatMap_singleton']
    · obtain ⟨c, hc, rfl⟩ := List.mem_map.mp hword
      exact mem_oneOf.mpr ⟨c, every c hc, rfl⟩

theorem isDigit_iff {c : Char} : c.isDigit = true ↔ c ∈ digits := by
  constructor
  · intro h
    simp only [Char.isDigit, Bool.and_eq_true, decide_eq_true_eq] at h
    have low : 48 ≤ c.toNat := h.1
    have high : c.toNat ≤ 57 := h.2
    have among : ∀ n : Fin 10, Char.ofNat (48 + n) ∈ digits := by decide
    have eq := among ⟨c.toNat - 48, by omega⟩
    rwa [Nat.add_sub_cancel' low, Char.ofNat_toNat] at eq
  · intro h
    have all : digits.all Char.isDigit = true := by decide
    exact List.all_eq_true.mp all c h

theorem mem_many_digits : cs ∈ (many (oneOf digits)).matches' ↔ Grammar.Digits cs := by
  rw [many, RegularExpression.matches'_mul, Language.mem_mul]
  constructor
  · rintro ⟨_, first, rest, others, rfl⟩
    obtain ⟨c, hc, rfl⟩ := mem_oneOf.mp first
    refine ⟨by simp, List.forall_mem_cons.mpr ⟨isDigit_iff.mpr hc, fun d hd => ?_⟩⟩
    exact isDigit_iff.mpr (mem_star_oneOf.mp others d hd)
  · rintro ⟨nonempty, all⟩
    obtain ⟨c, rest, rfl⟩ := List.exists_cons_of_ne_nil nonempty
    obtain ⟨first, others⟩ := List.forall_mem_cons.mp all
    exact ⟨[c], mem_oneOf.mpr ⟨c, isDigit_iff.mp first, rfl⟩, rest,
      mem_star_oneOf.mpr fun d hd => isDigit_iff.mp (others d hd), rfl⟩

theorem mem_whole : cs ∈ whole.matches' ↔ Grammar.Whole cs := by
  rw [whole, RegularExpression.matches'_add, Language.mem_add, RegularExpression.matches'_mul,
    Language.mem_mul]
  have leading {c : Char} : c ∈ nonzeroDigits ↔ c ≠ '0' ∧ c.isDigit = true := by
    rw [isDigit_iff, digits, List.mem_cons]
    constructor
    · rintro h
      exact ⟨by rintro rfl; exact absurd h (by decide), .inr h⟩
    · rintro ⟨nonzero, zero | h⟩
      · exact absurd zero nonzero
      · exact h
  constructor
  · rintro (rfl | ⟨_, first, rest, others, rfl⟩)
    · exact .zero
    · obtain ⟨c, hc, rfl⟩ := mem_oneOf.mp first
      obtain ⟨nonzero, hc⟩ := leading.mp hc
      refine .digits nonzero ⟨by simp, List.forall_mem_cons.mpr ⟨hc, fun d hd => ?_⟩⟩
      exact isDigit_iff.mpr (mem_star_oneOf.mp others d hd)
  · intro h
    cases h with
    | zero => exact .inl rfl
    | @digits c rest nonzero all =>
        obtain ⟨first, others⟩ := List.forall_mem_cons.mp all.2
        exact .inr ⟨[c], mem_oneOf.mpr ⟨c, leading.mpr ⟨nonzero, first⟩, rfl⟩, rest,
          mem_star_oneOf.mpr fun d hd => isDigit_iff.mp (others d hd), rfl⟩

theorem mem_optional_fraction : cs ∈ (optional fraction).matches' ↔ Grammar.Fraction cs := by
  rw [mem_optional, fraction, RegularExpression.matches'_mul, Language.mem_mul]
  constructor
  · rintro (rfl | ⟨_, rfl, rest, all, rfl⟩)
    · exact .none
    · exact .point (mem_many_digits.mp all)
  · intro h
    cases h with
    | none => exact .inl rfl
    | point all => exact .inr ⟨['.'], rfl, _, mem_many_digits.mpr all, rfl⟩

theorem mem_optional_exponent : cs ∈ (optional exponent).matches' ↔ Grammar.Exponent cs := by
  rw [mem_optional, exponent, RegularExpression.matches'_mul, Language.mem_mul]
  have mark {e : Char} : e ∈ ['e', 'E'] ↔ e = 'e' ∨ e = 'E' := by simp
  have sign {s : Char} : s ∈ ['-', '+'] ↔ s = '+' ∨ s = '-' := by simp [or_comm]
  constructor
  · rintro (rfl | ⟨_, first, _, rest, rfl⟩)
    · exact .none
    · obtain ⟨e, he, rfl⟩ := mem_oneOf.mp first
      obtain ⟨_, signed, _, all, rfl⟩ := Language.mem_mul.mp rest
      rcases mem_optional.mp signed with rfl | signed
      · exact .plain (mark.mp he) (mem_many_digits.mp all)
      · obtain ⟨s, hs, rfl⟩ := mem_oneOf.mp signed
        exact .signed (mark.mp he) (sign.mp hs) (mem_many_digits.mp all)
  · intro h
    cases h with
    | none => exact .inl rfl
    | @plain e ds he all =>
        exact .inr ⟨[e], mem_oneOf.mpr ⟨e, mark.mpr he, rfl⟩, ds,
          Language.mem_mul.mpr ⟨[], mem_optional.mpr (.inl rfl), ds, mem_many_digits.mpr all, rfl⟩,
          rfl⟩
    | @signed e s ds he hs all =>
        have signed : [s] ∈ (optional (oneOf ['-', '+'])).matches' :=
          mem_optional.mpr (.inr (mem_oneOf.mpr ⟨s, sign.mpr hs, rfl⟩))
        exact .inr ⟨[e], mem_oneOf.mpr ⟨e, mark.mpr he, rfl⟩, s :: ds,
          Language.mem_mul.mpr ⟨[s], signed, ds, mem_many_digits.mpr all, rfl⟩, rfl⟩

theorem mem_number : cs ∈ number.matches' ↔ Grammar.Number cs := by
  have unsigned {ds : List Char} :
      ds ∈ (whole * (optional fraction * optional exponent)).matches' ↔ Grammar.Unsigned ds := by
    rw [RegularExpression.matches'_mul, Language.mem_mul]
    constructor
    · rintro ⟨w, hw, _, rest, rfl⟩
      obtain ⟨f, hf, e, he, rfl⟩ := Language.mem_mul.mp rest
      exact .parts (mem_whole.mp hw) (mem_optional_fraction.mp hf) (mem_optional_exponent.mp he)
    · rintro ⟨hw, hf, he⟩
      exact ⟨_, mem_whole.mpr hw, _, Language.mem_mul.mpr
        ⟨_, mem_optional_fraction.mpr hf, _, mem_optional_exponent.mpr he, rfl⟩, rfl⟩
  rw [number, RegularExpression.matches'_mul, Language.mem_mul]
  constructor
  · rintro ⟨_, signed, ds, hds, rfl⟩
    rcases mem_optional.mp signed with rfl | rfl
    · exact .plain (unsigned.mp hds)
    · exact .minus (unsigned.mp hds)
  · intro h
    cases h with
    | plain h => exact ⟨[], mem_optional.mpr (.inl rfl), cs, unsigned.mpr h, rfl⟩
    | @minus ds h => exact ⟨['-'], mem_optional.mpr (.inr rfl), ds, unsigned.mpr h, rfl⟩

end TypedJson.Number.Regular

namespace TypedJson.Number

/-- A text is taken for a number literal exactly if it is a word of the rule for numbers. -/
theorem isLiteral_iff_matches (s : String) :
    isLiteral s.toList = true ↔ s.toList ∈ Regular.number.matches' := by
  rw [Regular.mem_number, isLiteral_iff]

example : isLiteral "-0.5E+10".toList = true ∧ isLiteral "01".toList = false := by decide

end TypedJson.Number
