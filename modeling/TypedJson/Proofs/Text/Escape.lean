import TypedJson.Text.Escape
import TypedJson.Proofs.Grammar.Text
import TypedJson.Proofs.Text.Utf8

set_option autoImplicit false
set_option relaxedAutoImplicit false

namespace TypedJson.Escape

open Grammar (HexDigit CodeUnit Symbol Spells)

theorem hexDigit_grammar {n : Nat} (h : n < 16) : HexDigit (hexDigit n) n := by
  unfold hexDigit
  by_cases hn : n < 10
  · have code : (Char.ofNat (0x30 + n)).toNat = 0x30 + n := Utf8.toNat_char (.inl (by omega))
    have digit := HexDigit.decimal (c := Char.ofNat (0x30 + n)) (by omega) (by omega)
    rw [if_pos hn]
    rwa [code, Nat.add_sub_cancel_left] at digit
  · have code : (Char.ofNat (0x41 + (n - 10))).toNat = 0x41 + (n - 10) :=
      Utf8.toNat_char (.inl (by omega))
    have digit := HexDigit.upper (c := Char.ofNat (0x41 + (n - 10))) (by omega) (by omega)
    rw [if_neg hn]
    rwa [code, Nat.add_sub_cancel_left, Nat.sub_add_cancel (Nat.not_lt.mp hn)] at digit

theorem unit_grammar {n : Nat} (h : n < 0x10000) :
    ∃ digits, unit n = '\\' :: 'u' :: digits ∧ CodeUnit digits n := by
  refine ⟨_, rfl, ?_⟩
  have digits := CodeUnit.digits (hexDigit_grammar (n := n / 0x1000 % 16) (by omega))
    (hexDigit_grammar (n := n / 0x100 % 16) (by omega))
    (hexDigit_grammar (n := n / 0x10 % 16) (by omega)) (hexDigit_grammar (n := n % 16) (by omega))
  have value : 16 * (16 * (16 * (n / 0x1000 % 16) + n / 0x100 % 16) + n / 0x10 % 16) + n % 16 =
      n := by omega
  rwa [value] at digits

theorem units_grammar (c : Char) : Symbol c ((Utf16.units c).flatMap unit) := by
  have lt := Utf8.lt_of_char c
  unfold Utf16.units
  by_cases h : c.toNat < 0x10000
  · obtain ⟨digits, hu, hd⟩ := unit_grammar h
    simp only [if_pos h, List.flatMap_cons, List.flatMap_nil, List.append_nil, hu]
    exact .unit hd
  · have high : 0xD800 + (c.toNat - 0x10000) / 0x400 < 0xDC00 := by omega
    have low : 0xDC00 + (c.toNat - 0x10000) % 0x400 < 0xE000 := by omega
    obtain ⟨first, hf, h₁⟩ := unit_grammar (Nat.lt_trans high (by decide))
    obtain ⟨second, hs, h₂⟩ := unit_grammar (Nat.lt_trans low (by decide))
    simp only [if_neg h, List.flatMap_cons, List.flatMap_nil, List.append_nil, hf, hs]
    exact .pair h₁ h₂ (by omega) (by omega) (by omega) (by omega) (by omega)

theorem sequence_grammar (c : Char) : Symbol c (sequence c) := by
  have short {letter d : Char} (h : c = d) (hd : (letter, d) ∈ Grammar.shortEscapes) :
      Symbol c ['\\', letter] := h ▸ .short hd
  unfold sequence
  repeat' split
  · exact short ‹_› (by decide)
  · exact short ‹_› (by decide)
  · exact short ‹_› (by decide)
  · exact short ‹_› (by decide)
  · exact short ‹_› (by decide)
  · exact short ‹_› (by decide)
  · exact short ‹_› (by decide)
  · exact units_grammar c

theorem char_grammar (rules : EscapeRules) (c : Char) : Symbol c (char rules c) := by
  unfold char
  by_cases h : isNeeded rules c = true
  · rw [if_pos h]
    exact sequence_grammar c
  · rw [if_neg h]
    simp only [isNeeded, Bool.or_eq_true, decide_eq_true_eq, not_or] at h
    obtain ⟨⟨⟨⟨⟨⟨quote, backslash⟩, control⟩, -⟩, -⟩, -⟩, -⟩ := h
    exact .plain (Nat.not_lt.mp control) quote backslash

theorem spells_grammar (rules : EscapeRules) (cs : List Char) :
    Spells cs (cs.flatMap (char rules)) := by
  induction cs with
  | nil => exact .nil
  | cons c cs ih => exact .cons (char_grammar rules c) ih

theorem quoted_grammar (rules : EscapeRules) (s : String) :
    Grammar.Quoted s (quoted rules s.toList) :=
  .quotes (spells_grammar rules s.toList)

end TypedJson.Escape
