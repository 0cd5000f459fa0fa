import TypedJson.Proofs.Schema.Consumption

set_option autoImplicit false
set_option relaxedAutoImplicit false

namespace TypedJson

open Operation
open ReadM (peekLexeme)

variable {β : Type} {r r' : Reader} {l : Lexeme}

def Lexeme.ends : Lexeme → Bool
  | .endObject | .endArray | .endDocument => true
  | _ => false

theorem Lexeme.ends_eq_closes {e : Event} (h : l.event? = some e) : l.ends = e.closes := by
  cases l <;> cases h <;> rfl

theorem ReadM.hasNext_of_peek (look : peekLexeme r = .ok l r') : hasNext r = .ok (!l.ends) r' := by
  refine (bind_of_ok look).trans ?_
  cases l <;> rfl

namespace FillM

variable {body body' : FillM β Unit} {b : β} {fuel fuel' n : Nat}

/-! One round. -/

theorem each_of_error {cause : ReadError} (look : peekLexeme r = .error cause r') :
    each body (fuel + 1) (r, b) = .error (.reading cause) (r', b) := by
  have failed : ReadM.hasNext r = .error cause r' := bind_of_error look
  have unread : (read ReadM.hasNext : FillM β Bool) (r, b) = .error (.reading cause) (r', b) := by
    simp only [read, typed, BindM.read, failed]
  exact bind_of_error unread

private theorem hasNext_of_peek (look : peekLexeme r = .ok l r') :
    (read ReadM.hasNext : FillM β Bool) (r, b) = .ok (!l.ends) (r', b) := by
  simp only [read, typed, BindM.read, ReadM.hasNext_of_peek look]

theorem each_of_ends (look : peekLexeme r = .ok l r') (last : l.ends = true) :
    each body (fuel + 1) (r, b) = .ok () (r', b) := by
  have run : each body (fuel + 1) (r, b) = _ := bind_of_ok (hasNext_of_peek look)
  rw [run, last]
  rfl

theorem each_of_element (look : peekLexeme r = .ok l r') (more : l.ends = false) :
    each body (fuel + 1) (r, b) = (do body; each body fuel : FillM β Unit) (r', b) := by
  have run : each body (fuel + 1) (r, b) = _ := bind_of_ok (hasNext_of_peek look)
  rw [run, more]
  rfl

/-! How the loop stops. -/

/-- What becomes of the loop in its last round: the next unit cannot be had, it ends a container, or
the element fails. -/
inductive Stops (body : FillM β Unit) (r : Reader) (b : β) :
    EStateM.Result BindError (Reader × β) Unit → Prop where
  | unread {cause : ReadError} {r' : Reader} :
      peekLexeme r = .error cause r' → Stops body r b (.error (.reading cause) (r', b))
  | ended {l : Lexeme} {r' : Reader} :
      peekLexeme r = .ok l r' → l.ends = true → Stops body r b (.ok () (r', b))
  | failed {l : Lexeme} {r' : Reader} {e : BindError} {s : Reader × β} :
      peekLexeme r = .ok l r' → l.ends = false → body (r', b) = .error e s →
      Stops body r b (.error e s)

theorem each_stops {I : Reader → β → Prop}
    (step : ∀ (r r₁ r' : Reader) (l : Lexeme) (b b' : β), I r b → peekLexeme r = .ok l r₁ →
      body (r₁, b) = .ok () (r', b') → I r' b' ∧ r'.unitsLeft < r.unitsLeft)
    (hI : I r b) (enough : r.unitsLeft < fuel) :
    ∃ r₀ b₀, I r₀ b₀ ∧ Stops body r₀ b₀ (each body fuel (r, b)) := by
  induction fuel generalizing r b with
  | zero => exact absurd enough (Nat.not_lt_zero _)
  | succ fuel ih =>
      cases look : peekLexeme r with
      | error cause r₁ =>
          rw [each_of_error look]
          exact ⟨r, b, hI, .unread look⟩
      | ok l r₁ =>
          cases last : l.ends with
          | true =>
              rw [each_of_ends look last]
              exact ⟨r, b, hI, .ended look last⟩
          | false =>
              rw [each_of_element look last]
              cases element : body (r₁, b) with
              | error e s =>
                  rw [bind_of_error element]
                  exact ⟨r, b, hI, .failed look last element⟩
              | ok a s =>
                  obtain ⟨r₂, b₂⟩ := s
                  obtain ⟨hI₂, less⟩ := step r r₁ r₂ l b b₂ hI look element
                  rw [bind_of_ok element]
                  exact ih hI₂ (by omega)

theorem each_congr (agree : ∀ r b, r.unitsLeft < n → body (r, b) = body' (r, b))
    (shrinks : ∀ r b r' b', r.unitsLeft < n → body (r, b) = .ok () (r', b') →
      r'.unitsLeft < r.unitsLeft)
    (few : r.unitsLeft < n) (enough : r.unitsLeft < fuel) (enough' : r.unitsLeft < fuel') :
    each body fuel (r, b) = each body' fuel' (r, b) := by
  induction fuel generalizing fuel' r b with
  | zero => exact absurd enough (Nat.not_lt_zero _)
  | succ fuel ih =>
      obtain ⟨fuel', rfl⟩ : ∃ k, fuel' = k + 1 := ⟨fuel' - 1, by omega⟩
      cases look : peekLexeme r with
      | error cause r₁ => rw [each_of_error look, each_of_error look]
      | ok l r₁ =>
          have fewer := (ReadM.ensures_peekLexeme r.unitsLeft r l r₁ (Nat.le_refl _) look).1
          cases last : l.ends with
          | true => rw [each_of_ends look last, each_of_ends look last]
          | false =>
              rw [each_of_element look last, each_of_element look last]
              have same := agree r₁ b (by omega)
              cases element : body (r₁, b) with
              | error e s => rw [bind_of_error element, bind_of_error (same.symm.trans element)]
              | ok a s =>
                  obtain ⟨r₂, b₂⟩ := s
                  have less := shrinks r₁ b r₂ b₂ (by omega) element
                  rw [bind_of_ok element, bind_of_ok (same.symm.trans element)]
                  exact ih (by omega) (by omega) (by omega)

end FillM

end TypedJson
