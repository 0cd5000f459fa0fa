import TypedJson.Input.Cursor

set_option autoImplicit false
set_option relaxedAutoImplicit false

namespace TypedJson

/-- The bytes that a script of replies hands over, and the end behind them. Nothing behind an end of
the data counts; a failure is an end if it persists. -/
inductive Delivers (last : Ending) : List Delivery → List UInt8 → Ending → Prop where
  | exhausted : Delivers last [] [] last
  | interrupted {rest : List Delivery} {bs : List UInt8} {e : Ending} :
      Delivers last rest bs e → Delivers last (.interrupted :: rest) bs e
  | data {b : UInt8} {more : List UInt8} {rest : List Delivery} {bs : List UInt8} {e : Ending} :
      Delivers last rest bs e → Delivers last (.data b more :: rest) ((b :: more) ++ bs) e
  | endOfData {rest : List Delivery} : Delivers last (.endOfData :: rest) [] .endOfData
  | failed {text : String} {rest : List Delivery} : Delivers last rest [] (.failed text) →
      Delivers last (.failed text :: rest) [] (.failed text)

/-- A source hands over exactly these bytes before the end. -/
def Source.Delivers (s : Source) (bs : List UInt8) (e : Ending) : Prop :=
  TypedJson.Delivers s.ending s.replies bs e

/-- The bytes in front of a cursor, and the end behind them. -/
inductive Cursor.Holds : Cursor → List UInt8 → Ending → Prop where
  | drained {u : List UInt8} {s : Source} {k : Mark} : Holds ⟨u, s, true, k⟩ u .endOfData
  | flowing {u : List UInt8} {s : Source} {k : Mark} {bs : List UInt8} {e : Ending} :
      s.Delivers bs e → Holds ⟨u, s, false, k⟩ (u ++ bs) e

theorem Cursor.holds_start {s : Source} {bs : List UInt8} {e : Ending} (h : s.Delivers bs e) :
    (Cursor.start s).Holds bs e :=
  .flowing h

theorem Delivers.unique {last e e' : Ending} {replies : List Delivery} {bs bs' : List UInt8}
    (h : Delivers last replies bs e) (h' : Delivers last replies bs' e') : bs = bs' ∧ e = e' := by
  induction h generalizing bs' e' with
  | exhausted =>
      cases h'
      exact ⟨rfl, rfl⟩
  | interrupted _ ih =>
      cases h' with
      | interrupted h' => exact ih h'
  | data _ ih =>
      cases h' with
      | data h' =>
          obtain ⟨rfl, rfl⟩ := ih h'
          exact ⟨rfl, rfl⟩
  | endOfData =>
      cases h'
      exact ⟨rfl, rfl⟩
  | failed _ _ =>
      cases h'
      exact ⟨rfl, rfl⟩

theorem Cursor.Holds.unique {c : Cursor} {bs bs' : List UInt8} {e e' : Ending}
    (h : c.Holds bs e) (h' : c.Holds bs' e') : bs = bs' ∧ e = e' := by
  cases h with
  | drained =>
      cases h'
      exact ⟨rfl, rfl⟩
  | flowing h =>
      cases h' with
      | flowing h' =>
          obtain ⟨rfl, rfl⟩ := h.unique h'
          exact ⟨rfl, rfl⟩

theorem Cursor.Holds.advance {c : Cursor} {bs : List UInt8} {e : Ending} (h : c.Holds bs e)
    (hu : c.unread ≠ []) :
    ∃ b bs', bs = b :: bs' ∧ c.advance.Holds bs' e ∧ c.advance.mark = c.mark.advance b := by
  cases h with
  | drained =>
      cases bs with
      | nil => exact absurd rfl hu
      | cons b u => exact ⟨b, u, rfl, .drained, rfl⟩
  | @flowing u s k bs e hs =>
      cases u with
      | nil => exact absurd rfl hu
      | cons b u => exact ⟨b, u ++ bs, rfl, .flowing hs, rfl⟩

namespace Scanner

variable {ε σ α : Type} (m : Scanner ε σ α)

/-- What a run comes to when the end follows the bytes at hand: its answer, its mark, and the bytes
left over. -/
def conclude (fault : DataFault → ε) (e : Ending) : Pass ε σ α → Except ε α × Mark × List UInt8
  | .stopped r k rest => (r, k, rest)
  | .passed s k =>
      match e with
      | .endOfData => (m.atEnd s, k, [])
      | .failed text => (.error (fault (.device text)), k, [])

theorem pass_append (s : σ) (k : Mark) (us vs : List UInt8) :
    m.pass s k (us ++ vs) =
      match m.pass s k us with
      | .stopped r k' rest => .stopped r k' (rest ++ vs)
      | .passed s' k' => m.pass s' k' vs := by
  induction us generalizing s k with
  | nil => rfl
  | cons b us ih =>
      simp only [List.cons_append, pass]
      cases m.move s b with
      | shift s' => exact ih s' (k.advance b)
      | finish r => rfl
      | halt r => rfl

theorem passReplies_of_delivers (fault : DataFault → ε) {last e : Ending} {replies : List Delivery}
    {bs : List UInt8} (h : TypedJson.Delivers last replies bs e) (s : σ) (k : Mark) :
    ∃ c : Cursor, m.passReplies fault last replies s k =
        ((m.conclude fault e (m.pass s k bs)).1, c) ∧
      c.mark = (m.conclude fault e (m.pass s k bs)).2.1 ∧
      c.Holds (m.conclude fault e (m.pass s k bs)).2.2 e := by
  induction h generalizing s k with
  | exhausted =>
      cases last with
      | endOfData => exact ⟨_, rfl, rfl, .drained⟩
      | failed text => exact ⟨_, rfl, rfl, .flowing .exhausted⟩
  | interrupted _ ih => exact ih s k
  | @data b more rest bs e hs ih =>
      rw [pass_append]
      simp only [passReplies]
      cases h : m.pass s k (b :: more) with
      | stopped r k' unread => exact ⟨_, rfl, rfl, .flowing hs⟩
      | passed s' k' => exact ih s' k'
  | endOfData => exact ⟨_, rfl, rfl, .drained⟩
  | failed hs _ => exact ⟨_, rfl, rfl, .flowing hs⟩

/-- A scan over a cursor is a pass over all that the cursor holds. -/
theorem scan_of_holds (fault : DataFault → ε) {c : Cursor} {bs : List UInt8} {e : Ending}
    (h : c.Holds bs e) (s : σ) :
    ∃ c' : Cursor, m.scan fault s c = ((m.conclude fault e (m.pass s c.mark bs)).1, c') ∧
      c'.mark = (m.conclude fault e (m.pass s c.mark bs)).2.1 ∧
      c'.Holds (m.conclude fault e (m.pass s c.mark bs)).2.2 e := by
  cases h with
  | drained =>
      simp only [scan]
      split
      · rename_i r k rest h
        rw [h]
        exact ⟨_, rfl, rfl, .drained⟩
      · rename_i s' k h
        rw [h]
        exact ⟨_, rfl, rfl, .drained⟩
  | @flowing u src k bs e hs =>
      rw [pass_append]
      simp only [scan]
      cases h : m.pass s k u with
      | stopped r k' rest => exact ⟨_, rfl, rfl, .flowing hs⟩
      | passed s' k' => exact m.passReplies_of_delivers fault hs s' k'

end Scanner

end TypedJson
