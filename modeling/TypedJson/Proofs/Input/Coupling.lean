import TypedJson.Lexing.Lexeme
import TypedJson.Proofs.Input.Stream
import TypedJson.Proofs.Operation

/-!
# Coupled cursors

A coupling relates a cursor to some others on which every scan goes the same way. Three of them are
used: cursors that hold the same bytes and the same end, a cursor in front of a failure and others
that hold more, and a cursor with itself as long as nothing behind an end of the data has been
taken. Lexing is carried through all three at once.
-/

set_option autoImplicit false
set_option relaxedAutoImplicit false

namespace TypedJson

open Operation

/-- The fault lies in the text itself, not in the device below it. -/
def LexFault.Intrinsic : LexFault → Prop
  | .text _ | .data .malformedText | .data .refused => True
  | .data (.device _) => False

def HonestAnswer {α : Type} : Except LexFault α → Prop
  | .ok _ => True
  | .error f => f.Intrinsic

def Move.Honest {σ α : Type} : Move LexFault σ α → Prop
  | .shift _ => True
  | .finish r | .halt r => HonestAnswer r

def Move.Takes {ε σ α : Type} : Move ε σ α → Prop
  | .shift _ | .finish _ => True
  | .halt _ => False

namespace Scanner

/-- All faults that a scanner finds by itself lie in the text, and in every state there is a byte
that it would take, be it a space or a letter. -/
structure Honest {σ α : Type} (m : Scanner LexFault σ α) : Prop where
  move : ∀ s b, (m.move s b).Honest
  atEnd : ∀ s, HonestAnswer (m.atEnd s)
  takes : ∀ s, (m.move s 0x20).Takes ∨ (m.move s 0x61).Takes

variable {ε σ α : Type} (m : Scanner ε σ α)

theorem unread_of_pass {P : α → List UInt8 → Prop}
    (finish : ∀ s b a bs, m.move s b = .finish (.ok a) → P a bs)
    (halt : ∀ s b a bs, m.move s b = .halt (.ok a) → P a (b :: bs)) {s : σ} {k k' : Mark} {a : α}
    {bs rest : List UInt8} (h : m.pass s k bs = .stopped (.ok a) k' rest) : P a rest := by
  induction bs generalizing s k with
  | nil => cases h
  | cons b bs ih =>
      simp only [pass] at h
      cases hm : m.move s b with
      | shift s' => exact ih (by simpa only [hm] using h)
      | finish r =>
          simp only [hm, Pass.stopped.injEq] at h
          obtain ⟨rfl, -, rfl⟩ := h
          exact finish s b a bs hm
      | halt r =>
          simp only [hm, Pass.stopped.injEq] at h
          obtain ⟨rfl, -, rfl⟩ := h
          exact halt s b a bs hm

theorem unread_of_passReplies {P : α → List UInt8 → Prop} {fault : DataFault → ε} {e : Ending}
    (finish : ∀ s b a bs, m.move s b = .finish (.ok a) → P a bs)
    (halt : ∀ s b a bs, m.move s b = .halt (.ok a) → P a (b :: bs))
    (atEnd : ∀ s a, m.atEnd s = .ok a → P a []) {replies : List Delivery} {s : σ} {k : Mark}
    {a : α} {c : Cursor} (h : m.passReplies fault e replies s k = (.ok a, c)) : P a c.unread := by
  induction replies generalizing s k with
  | nil =>
      cases e with
      | endOfData =>
          obtain ⟨ha, rfl⟩ := Prod.mk.inj h
          exact atEnd s a ha
      | failed text => cases h
  | cons d replies ih =>
      cases d with
      | interrupted => exact ih h
      | endOfData =>
          obtain ⟨ha, rfl⟩ := Prod.mk.inj h
          exact atEnd s a ha
      | failed text => cases h
      | data b more =>
          simp only [passReplies] at h
          split at h
          · rename_i hp
            obtain ⟨rfl, rfl⟩ := Prod.mk.inj h
            exact m.unread_of_pass finish halt hp
          · exact ih h

theorem unread_of_scan {P : α → List UInt8 → Prop} {fault : DataFault → ε}
    (finish : ∀ s b a bs, m.move s b = .finish (.ok a) → P a bs)
    (halt : ∀ s b a bs, m.move s b = .halt (.ok a) → P a (b :: bs))
    (atEnd : ∀ s a, m.atEnd s = .ok a → P a []) {s : σ} {a : α} {c c' : Cursor}
    (h : m.scan fault s c = (.ok a, c')) : P a c'.unread := by
  simp only [scan] at h
  split at h
  · rename_i hp
    obtain ⟨rfl, rfl⟩ := Prod.mk.inj h
    exact m.unread_of_pass finish halt hp
  · split at h
    · obtain ⟨ha, rfl⟩ := Prod.mk.inj h
      exact atEnd _ a ha
    · exact m.unread_of_passReplies finish halt atEnd h

theorem Honest.conclude {σ α : Type} {m : Scanner LexFault σ α} (hm : m.Honest) {e : Ending}
    {s : σ} {k : Mark} {bs : List UInt8} {f : LexFault}
    (h : (m.conclude .data e (m.pass s k bs)).1 = .error f) :
    f.Intrinsic ∨ ∃ text, e = .failed text ∧ f = .data (.device text) := by
  induction bs generalizing s k with
  | nil =>
      cases e with
      | endOfData =>
          have honest := hm.atEnd s
          rw [show m.atEnd s = .error f from h] at honest
          exact .inl honest
      | failed text => exact .inr ⟨text, rfl, (Except.error.inj h).symm⟩
  | cons b bs ih =>
      simp only [pass] at h
      cases hb : m.move s b with
      | shift s' => exact ih (by simpa only [hb] using h)
      | finish r =>
          obtain rfl : r = .error f := by simpa only [hb, Scanner.conclude] using h
          have honest := hm.move s b
          rw [hb] at honest
          exact .inl honest
      | halt r =>
          obtain rfl : r = .error f := by simpa only [hb, Scanner.conclude] using h
          have honest := hm.move s b
          rw [hb] at honest
          exact .inl honest

end Scanner

variable {ι : Type}

def Facing (C : Cursor → (ι → Cursor) → Prop) (c : Cursor) (S : ι → Cursor) : Prop :=
  C c S ∧ c.unread ≠ [] ∧ ∀ i, (S i).unread ≠ []

/-- Cursors on which lexing goes the same way: with the same answers, or with the same plain fault,
unless the first meets a fault that excuses the others, one of which has gone beyond it. -/
structure Coupling (C : Cursor → (ι → Cursor) → Prop) (escapes plain : LexFault → Prop)
    (beyond : Cursor → Prop) : Prop where
  mark : ∀ {c S}, C c S → ∀ i, (S i).mark = c.mark
  bounded : ∀ {c S}, C c S → ∃ n, ∀ i, (S i).ahead ≤ n
  advance : ∀ {c S}, Facing C c S → C c.advance fun i => (S i).advance
  keeps : ∀ {c}, beyond c → beyond c.advance
  scan : ∀ {σ α : Type} {m : Scanner LexFault σ α}, m.Honest → ∀ s : σ,
    Coupled C (LexM.scan m s) (fun _ => C) (fun f c S => C c S ∧ plain f) escapes beyond
  intrinsic : ∀ {f : LexFault}, f.Intrinsic → plain f

end TypedJson
