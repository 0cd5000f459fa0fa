import TypedJson.Proofs.Text.Utf8
import TypedJson.Text.Escape

set_option autoImplicit false
set_option relaxedAutoImplicit false

namespace TypedJson.Escape

variable {rules : EscapeRules} {c : Char}

/-- The characters that the rules leave as they are, the quote and the backslash apart. -/
structure Admits (rules : EscapeRules) (c : Char) : Prop where
  printable : 0x20 ≤ c.toNat
  noSeparator : c ≠ '\u2028' ∧ c ≠ '\u2029'
  ascii : rules.allNonAscii = true → c.toNat < 0x80
  html : rules.htmlSafe = true → isHtml c = false

def isInert (c : Char) : Bool :=
  0x20 ≤ c.toNat && c.toNat < 0x80 && !isHtml c

theorem Admits.of_inert (h : isInert c = true) : Admits rules c := by
  simp only [isInert, Bool.and_eq_true, decide_eq_true_eq, Bool.not_eq_true'] at h
  obtain ⟨⟨printable, ascii⟩, html⟩ := h
  refine ⟨printable, ⟨?_, ?_⟩, fun _ => ascii, fun _ => html⟩
  · rintro rfl
    exact absurd ascii (by decide)
  · rintro rfl
    exact absurd ascii (by decide)

theorem admits_of_all {cs : List Char} (h : cs.all isInert = true) : ∀ c ∈ cs, Admits rules c :=
  fun c hc => .of_inert (List.all_eq_true.mp h c hc)

theorem Admits.of_unescaped (h : isNeeded rules c = false) : Admits rules c := by
  simp only [isNeeded, Bool.or_eq_false_iff, decide_eq_false_iff_not] at h
  obtain ⟨⟨⟨⟨⟨⟨-, -⟩, control⟩, line⟩, paragraph⟩, nonAscii⟩, html⟩ := h
  refine ⟨Nat.not_lt.mp control, ⟨line, paragraph⟩, fun all => ?_, fun safe => ?_⟩
  · rw [all, Bool.true_and] at nonAscii
    exact Nat.not_le.mp (of_decide_eq_false nonAscii)
  · rw [safe, Bool.true_and] at html
    exact html

theorem inert_hexDigit : ∀ n < 16, isInert (hexDigit n) = true := by
  decide

theorem inert_unit (n : Nat) : (unit n).all isInert = true := by
  have digit (k : Nat) : isInert (hexDigit (k % 16)) = true :=
    inert_hexDigit _ (Nat.mod_lt k (by decide))
  rw [unit, List.all_cons, List.all_cons, List.all_cons, List.all_cons, List.all_cons,
    List.all_cons, digit, digit, digit, digit]
  decide

theorem inert_sequence (c : Char) : (sequence c).all isInert = true := by
  unfold sequence
  repeat' split
  all_goals try decide
  rw [List.all_flatMap]
  exact List.all_eq_true.mpr fun n _ => inert_unit n

theorem admits_char (c : Char) : ∀ d ∈ char rules c, Admits rules d := by
  unfold char
  by_cases needed : isNeeded rules c = true
  · rw [if_pos needed]
    exact admits_of_all (inert_sequence c)
  · rw [if_neg needed]
    exact List.forall_mem_singleton.mpr (.of_unescaped (by simpa using needed))

theorem admits_quoted (cs : List Char) : ∀ d ∈ quoted rules cs, Admits rules d := by
  have quote : ∀ d ∈ ['"'], Admits rules d := admits_of_all (by decide)
  refine List.forall_mem_cons.mpr ⟨quote _ List.mem_cons_self, ?_⟩
  refine List.forall_mem_append.mpr ⟨fun d hd => ?_, quote⟩
  obtain ⟨c, -, spelled⟩ := List.mem_flatMap.mp hd
  exact admits_char c d spelled

end TypedJson.Escape
