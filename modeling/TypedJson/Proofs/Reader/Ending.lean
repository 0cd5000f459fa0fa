import TypedJson.Proofs.Reader.Skipping

set_option autoImplicit false
set_option relaxedAutoImplicit false

namespace TypedJson

open Operation

/-- All bytes have been consumed, and the end of the data has been reported. -/
def Cursor.AtEnd (c : Cursor) : Prop :=
  c.unread = [] ∧ c.drained = true

namespace Scanner

variable {ε σ α : Type} (m : Scanner ε σ α) {a : α} {fault : DataFault → ε}

/-- No move comes to this answer. -/
def NeverMoves (a : α) : Prop :=
  ∀ s b, m.move s b ≠ .finish (.ok a) ∧ m.move s b ≠ .halt (.ok a)

variable {m}

theorem NeverMoves.pass (h : m.NeverMoves a) {s : σ} {k k' : Mark} {bs rest : List UInt8} :
    m.pass s k bs ≠ .stopped (.ok a) k' rest := by
  induction bs generalizing s k with
  | nil => exact nofun
  | cons b bs ih =>
      have never := h s b
      rw [Scanner.pass]
      cases move : m.move s b with
      | shift s' => exact ih
      | finish r =>
          rintro ⟨⟩
          exact never.1 move
      | halt r =>
          rintro ⟨⟩
          exact never.2 move

theorem NeverMoves.passReplies (h : m.NeverMoves a) {e : Ending} {replies : List Delivery} {s : σ}
    {k : Mark} {c : Cursor} (run : m.passReplies fault e replies s k = (.ok a, c)) : c.AtEnd := by
  induction replies generalizing s k with
  | nil =>
      cases e with
      | endOfData =>
          obtain ⟨-, rfl⟩ := Prod.mk.inj run
          exact ⟨rfl, rfl⟩
      | failed text => cases run
  | cons reply rest ih =>
      cases reply with
      | interrupted => exact ih run
      | endOfData =>
          obtain ⟨-, rfl⟩ := Prod.mk.inj run
          exact ⟨rfl, rfl⟩
      | failed text => cases run
      | data b more =>
          rw [Scanner.passReplies] at run
          cases passed : m.pass s k (b :: more) with
          | stopped r k' unread =>
              rw [passed] at run
              cases run
              exact absurd passed h.pass
          | passed s' k' =>
              rw [passed] at run
              exact ih run

theorem NeverMoves.scan (h : m.NeverMoves a) {s : σ} {c c' : Cursor}
    (run : m.scan fault s c = (.ok a, c')) : c'.AtEnd := by
  rw [Scanner.scan] at run
  cases passed : m.pass s c.mark c.unread with
  | stopped r k unread =>
      rw [passed] at run
      cases run
      exact absurd passed h.pass
  | passed s' k =>
      rw [passed] at run
      cases drained : c.drained with
      | true =>
          simp only [drained, if_true] at run
          obtain ⟨-, rfl⟩ := Prod.mk.inj run
          exact ⟨rfl, rfl⟩
      | false =>
          simp only [drained, Bool.false_eq_true, if_false] at run
          exact h.passReplies run

end Scanner

namespace LexM

variable {lenient : Bool} {c c' : Cursor}

theorem neverMoves_blank : (Blank.scanner lenient).NeverMoves none := by
  intro phase b
  cases phase <;> simp only [Blank.scanner, Blank.move] <;> (repeat' split) <;> simp

theorem atEnd_of_skipBlank (h : skipBlank lenient c = .ok none c') : c'.AtEnd := by
  unfold skipBlank scan at h
  split at h
  · rename_i run
    cases h
    exact neverMoves_blank.scan run
  · cases h

theorem ne_endDocument_of_value {b : UInt8} : value lenient b c ≠ .ok .endDocument c' :=
  fun h => by cases yields_value _ _ _ h

end LexM

namespace ReadM

variable {r r' : Reader}

/-- Behind the end of the document no input is left. -/
theorem atEnd_of_endDocument (h : nextLexeme r = .ok .endDocument r') : r'.cursor.AtEnd := by
  have shows := (shows_of_nextLexeme h).1
  obtain ⟨x, q, look, run⟩ := exists_lookup r
  rw [run] at h
  cases look with
  | topValue => cases (shows_topValue h).1
  | afterTopValue =>
      obtain ⟨c, rfl, lexed⟩ := lex_eq_ok h
      obtain ⟨a, c₁, blank, rest⟩ := bind_eq_ok.mp lexed
      cases a with
      | none =>
          cases rest
          exact LexM.atEnd_of_skipBlank blank
      | some b =>
          dsimp only at rest
          split at rest
          · exact absurd rest LexM.ne_endDocument_of_value
          · cases rest
  | firstItem within | nextItem within | memberValue within | member _ within =>
      rw [Reader.places, within, List.map_cons] at shows
      exact absurd rfl shows.ne_endDocument

end ReadM

end TypedJson
