import TypedJson.Number.Literal
import TypedJson.Proofs.Grammar.Text

set_option autoImplicit false
set_option relaxedAutoImplicit false

namespace TypedJson.Number

open Grammar (Digits Whole Fraction Exponent Unsigned)

namespace Phase

def accepts (p : Phase) (cs : List Char) : Bool :=
  match p.run cs with
  | some q => q.isFinal
  | none => false

@[simp] theorem accepts_nil (p : Phase) : p.accepts [] = p.isFinal :=
  rfl

@[simp] theorem accepts_cons (p : Phase) (c : Char) (cs : List Char) :
    p.accepts (c :: cs) = match p.next c with
      | some q => q.accepts cs
      | none => false := by
  unfold accepts
  rw [run_cons]
  cases p.next c <;> rfl

theorem accepts_exponent {cs : List Char} :
    exponent.accepts cs = true ↔ ∀ c ∈ cs, c.isDigit = true := by
  induction cs with
  | nil => simp [isFinal]
  | cons c cs ih =>
      rw [accepts_cons, List.forall_mem_cons, ← ih]
      by_cases hc : c.isDigit <;> simp [next, hc]

theorem accepts_exponentSign {cs : List Char} :
    exponentSign.accepts cs = true ↔ Digits cs := by
  cases cs with
  | nil => simp [isFinal, Digits]
  | cons c cs =>
      rw [accepts_cons, Digits, List.forall_mem_cons, ← accepts_exponent]
      by_cases hc : c.isDigit <;> simp [next, hc]

theorem accepts_exponentMark {cs : List Char} :
    exponentMark.accepts cs = true ↔
      Digits cs ∨ ∃ sign ds, cs = sign :: ds ∧ (sign = '+' ∨ sign = '-') ∧ Digits ds := by
  cases cs with
  | nil => simp [isFinal, Digits]
  | cons c cs =>
      rw [accepts_cons]
      by_cases hs : c = '-' ∨ c = '+'
      · have hd : ¬ c.isDigit = true := by
          rcases hs with rfl | rfl <;> decide
        simp only [next, hs, if_true, accepts_exponentSign]
        constructor
        · exact fun h => .inr ⟨c, cs, rfl, hs.symm, h⟩
        · rintro (h | ⟨sign, ds, heq, -, h⟩)
          · exact absurd (h.2 c (by simp)) hd
          · cases heq
            exact h
      · by_cases hc : c.isDigit
        · simp only [next, hs, hc, if_true, if_false, accepts_exponent]
          constructor
          · exact fun h => .inl ⟨by simp, List.forall_mem_cons.mpr ⟨hc, h⟩⟩
          · rintro (h | ⟨sign, ds, heq, hsign, -⟩)
            · exact (List.forall_mem_cons.mp h.2).2
            · cases heq
              exact absurd hsign.symm hs
        · simp only [next, hs, hc, if_false, Bool.false_eq_true, false_iff]
          rintro (h | ⟨sign, ds, heq, hsign, -⟩)
          · exact hc (h.2 c (by simp))
          · cases heq
            exact hs hsign.symm

theorem exponent_iff {cs : List Char} :
    Exponent cs ↔ cs = [] ∨ ∃ e ds, cs = e :: ds ∧ (e = 'e' ∨ e = 'E') ∧
      exponentMark.accepts ds = true := by
  constructor
  · intro h
    cases h with
    | none => exact .inl rfl
    | plain he hd => exact .inr ⟨_, _, rfl, he, accepts_exponentMark.mpr (.inl hd)⟩
    | signed he hs hd =>
        exact .inr ⟨_, _, rfl, he, accepts_exponentMark.mpr (.inr ⟨_, _, rfl, hs, hd⟩)⟩
  · rintro (rfl | ⟨e, ds, rfl, he, h⟩)
    · exact .none
    · rcases accepts_exponentMark.mp h with hd | ⟨sign, ds, rfl, hs, hd⟩
      · exact .plain he hd
      · exact .signed he hs hd

private theorem accepts_run {p : Phase} {L : List Char → Prop}
    (digit : ∀ c cs, c.isDigit = true → (p.accepts (c :: cs) = true ↔ p.accepts cs = true))
    (other : ∀ cs, (∀ c ds, cs = c :: ds → ¬ c.isDigit = true) → (p.accepts cs = true ↔ L cs))
    (lead : ∀ c cs, L (c :: cs) → ¬ c.isDigit = true) {cs : List Char} :
    p.accepts cs = true ↔ ∃ ds rest, cs = ds ++ rest ∧ (∀ c ∈ ds, c.isDigit = true) ∧ L rest := by
  induction cs with
  | nil =>
      rw [other [] (by simp)]
      constructor
      · exact fun h => ⟨[], [], rfl, by simp, h⟩
      · rintro ⟨ds, rest, h, -, hL⟩
        obtain ⟨rfl, rfl⟩ := List.append_eq_nil_iff.mp h.symm
        exact hL
  | cons c cs ih =>
      by_cases hc : c.isDigit = true
      · rw [digit c cs hc, ih]
        constructor
        · rintro ⟨ds, rest, rfl, hd, hL⟩
          exact ⟨c :: ds, rest, rfl, List.forall_mem_cons.mpr ⟨hc, hd⟩, hL⟩
        · rintro ⟨ds, rest, h, hd, hL⟩
          cases ds with
          | nil =>
              obtain rfl : c :: cs = rest := h
              exact absurd hc (lead c cs hL)
          | cons d ds =>
              cases h
              exact ⟨ds, rest, rfl, (List.forall_mem_cons.mp hd).2, hL⟩
      · rw [other (c :: cs) (by rintro _ _ ⟨⟩; exact hc)]
        constructor
        · exact fun h => ⟨[], c :: cs, rfl, by simp, h⟩
        · rintro ⟨ds, rest, h, hd, hL⟩
          cases ds with
          | nil => exact (show c :: cs = rest from h) ▸ hL
          | cons d ds =>
              cases h
              exact absurd (hd c (by simp)) hc

theorem accepts_fraction {cs : List Char} :
    fraction.accepts cs = true ↔
      ∃ ds rest, cs = ds ++ rest ∧ (∀ c ∈ ds, c.isDigit = true) ∧ Exponent rest := by
  refine accepts_run (fun c cs hc => by simp [next, hc]) (fun cs h => ?_) fun c cs h => ?_
  · rw [exponent_iff]
    cases cs with
    | nil => simp [isFinal]
    | cons c cs =>
        have hc := h c cs rfl
        by_cases he : c = 'e' ∨ c = 'E'
        · simp only [accepts_cons, next, hc, he, if_true, if_false, Bool.false_eq_true]
          constructor
          · exact fun h => .inr ⟨c, cs, rfl, he, h⟩
          · rintro (h | ⟨_, _, ⟨⟩, -, h⟩)
            · cases h
            · exact h
        · simp only [accepts_cons, next, hc, he, if_false, Bool.false_eq_true, false_iff]
          rintro (h | ⟨_, _, ⟨⟩, h, -⟩)
          · cases h
          · exact he h
  · cases h with
    | plain he _ => rcases he with rfl | rfl <;> decide
    | signed he _ _ => rcases he with rfl | rfl <;> decide

theorem accepts_point {cs : List Char} :
    point.accepts cs = true ↔ ∃ ds rest, cs = ds ++ rest ∧ Digits ds ∧ Exponent rest := by
  cases cs with
  | nil =>
      simp only [accepts_nil, isFinal, Bool.false_eq_true, false_iff]
      rintro ⟨ds, rest, h, hd, -⟩
      exact hd.1 (List.append_eq_nil_iff.mp h.symm).1
  | cons c cs =>
      by_cases hc : c.isDigit = true
      · simp only [accepts_cons, next, hc, if_true, accepts_fraction]
        constructor
        · rintro ⟨ds, rest, rfl, hd, he⟩
          exact ⟨c :: ds, rest, rfl, ⟨by simp, List.forall_mem_cons.mpr ⟨hc, hd⟩⟩, he⟩
        · rintro ⟨ds, rest, h, hd, he⟩
          cases ds with
          | nil => exact absurd rfl hd.1
          | cons d ds =>
              cases h
              exact ⟨ds, rest, rfl, (List.forall_mem_cons.mp hd.2).2, he⟩
      · simp only [accepts_cons, next, hc, if_false, Bool.false_eq_true, false_iff]
        rintro ⟨ds, rest, h, hd, -⟩
        cases ds with
        | nil => exact hd.1 rfl
        | cons d ds =>
            cases h
            exact hc (hd.2 c (by simp))

theorem accepts_zero {cs : List Char} :
    zero.accepts cs = true ↔ ∃ f e, cs = f ++ e ∧ Fraction f ∧ Exponent e := by
  have without {e : List Char} (h : ∃ f e', e = f ++ e' ∧ Fraction f ∧ Exponent e')
      (hp : ∀ ds, e ≠ '.' :: ds) : Exponent e := by
    obtain ⟨f, e', rfl, hf, he⟩ := h
    cases hf with
    | none => exact he
    | point _ => exact absurd rfl (hp _)
  cases cs with
  | nil =>
      simp only [accepts_nil, isFinal, true_iff]
      exact ⟨[], [], rfl, .none, .none⟩
  | cons c cs =>
      by_cases hp : c = '.'
      · subst hp
        simp only [accepts_cons, next, afterWhole, if_true, accepts_point]
        constructor
        · rintro ⟨ds, rest, rfl, hd, he⟩
          exact ⟨'.' :: ds, rest, rfl, .point hd, he⟩
        · rintro ⟨f, e, h, hf, he⟩
          cases hf with
          | none =>
              obtain rfl : '.' :: cs = e := h
              cases he with
              | plain h _ => rcases h with h | h <;> cases h
              | signed h _ _ => rcases h with h | h <;> cases h
          | point hd =>
              cases h
              exact ⟨_, e, rfl, hd, he⟩
      · by_cases he : c = 'e' ∨ c = 'E'
        · simp only [accepts_cons, next, afterWhole, hp, he, if_true, if_false]
          constructor
          · exact fun h => ⟨[], c :: cs, rfl, .none, exponent_iff.mpr (.inr ⟨c, cs, rfl, he, h⟩)⟩
          · intro h
            have rest := exponent_iff.mp (without h (by rintro _ ⟨⟩; exact hp rfl))
            rcases rest with h | ⟨_, _, ⟨⟩, -, h⟩
            · cases h
            · exact h
        · simp only [accepts_cons, next, afterWhole, hp, he, if_false, Bool.false_eq_true,
            false_iff]
          intro h
          have rest := exponent_iff.mp (without h (by rintro _ ⟨⟩; exact hp rfl))
          rcases rest with h | ⟨_, _, ⟨⟩, h, -⟩
          · cases h
          · exact he h

theorem accepts_whole {cs : List Char} :
    whole.accepts cs = true ↔ ∃ ds rest, cs = ds ++ rest ∧ (∀ c ∈ ds, c.isDigit = true) ∧
      ∃ f e, rest = f ++ e ∧ Fraction f ∧ Exponent e := by
  refine accepts_run (fun c cs hc => by simp [next, hc]) (fun cs h => ?_) fun c cs h => ?_
  · rw [← accepts_zero]
    cases cs with
    | nil => simp [isFinal]
    | cons c cs => simp [next, h c cs rfl]
  · obtain ⟨f, e, h, hf, he⟩ := h
    cases hf with
    | point _ =>
        cases h
        decide
    | none =>
        obtain rfl : c :: cs = e := h
        cases he with
        | plain h _ => rcases h with rfl | rfl <;> decide
        | signed h _ _ => rcases h with rfl | rfl <;> decide

theorem accepts_minus {cs : List Char} : minus.accepts cs = true ↔ Unsigned cs := by
  constructor
  · intro h
    cases cs with
    | nil => cases h
    | cons c cs =>
        rw [accepts_cons, next, firstDigit] at h
        by_cases hz : c = '0'
        · rw [if_pos hz] at h
          obtain ⟨f, e, rfl, hf, he⟩ := accepts_zero.mp h
          subst hz
          exact .parts .zero hf he
        · rw [if_neg hz] at h
          by_cases hc : c.isDigit = true
          · rw [if_pos hc] at h
            obtain ⟨ds, rest, rfl, hd, f, e, rfl, hf, he⟩ := accepts_whole.mp h
            exact .parts (.digits hz ⟨by simp, List.forall_mem_cons.mpr ⟨hc, hd⟩⟩) hf he
          · rw [if_neg hc] at h
            cases h
  · intro h
    cases h with
    | @parts w f e hw hf he =>
        cases hw with
        | zero => exact accepts_zero.mpr ⟨f, e, rfl, hf, he⟩
        | @digits c cs hz hd =>
            obtain ⟨hc, hd⟩ := List.forall_mem_cons.mp hd.2
            rw [List.cons_append, accepts_cons, next, firstDigit, if_neg hz, if_pos hc]
            exact accepts_whole.mpr ⟨cs, f ++ e, rfl, hd, f, e, rfl, hf, he⟩

end Phase

/-- The automaton accepts exactly the number literals. -/
theorem isLiteral_iff {cs : List Char} : isLiteral cs = true ↔ Grammar.Number cs := by
  change Phase.start.accepts cs = true ↔ _
  have start {cs : List Char} (h : ∀ ds, cs ≠ '-' :: ds) :
      Phase.start.accepts cs = Phase.minus.accepts cs := by
    cases cs with
    | nil => rfl
    | cons c cs =>
        have hc : c ≠ '-' := fun hc => h cs (by rw [hc])
        simp only [Phase.accepts_cons, Phase.next, hc, if_false]
  constructor
  · intro h
    by_cases hm : ∃ ds, cs = '-' :: ds
    · obtain ⟨ds, rfl⟩ := hm
      exact .minus (Phase.accepts_minus.mp h)
    · rw [start fun ds hds => hm ⟨ds, hds⟩] at h
      exact .plain (Phase.accepts_minus.mp h)
  · intro h
    cases h with
    | plain h =>
        have accepts := Phase.accepts_minus.mpr h
        rwa [start]
        rintro ds rfl
        cases accepts
    | minus h => exact Phase.accepts_minus.mpr h

end TypedJson.Number
