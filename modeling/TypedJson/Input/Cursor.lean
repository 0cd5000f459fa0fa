import TypedJson.DataFault
import TypedJson.Input.Mark
import TypedJson.Input.Source

/-!
# Cursors and scanners

A cursor holds the bytes taken from a source but not yet consumed, and asks the source for more only
when it has none left. A scanner consumes bytes one by one, keeping a state of its own, until it
stops in front of a byte or behind it. `Scanner.pass` is the run over bytes at hand,
`Scanner.scan` the run over a cursor.
-/

set_option autoImplicit false
set_option relaxedAutoImplicit false

namespace TypedJson

/-- A position in the data of a source. After the source has reported the end of the data
(`drained`) it is not asked again. -/
structure Cursor where
  unread : List UInt8
  source : Source
  drained : Bool
  mark : Mark
  deriving DecidableEq, Repr

namespace Cursor

def start (s : Source) : Cursor := ⟨[], s, false, {}⟩

/-- The bytes that can still be consumed, or more. -/
def ahead (c : Cursor) : Nat :=
  c.unread.length + c.source.ahead

def advance (c : Cursor) : Cursor :=
  match c.unread with
  | [] => c
  | b :: bs => { c with unread := bs, mark := c.mark.advance b }

end Cursor

/-- What a scanner does about the next byte: consume it and go on, consume it and stop, or stop in
front of it. -/
inductive Move (ε σ α : Type) where
  | shift (next : σ)
  | finish (result : Except ε α)
  | halt (result : Except ε α)

/-- A machine over bytes, with its answer should the data end. -/
structure Scanner (ε σ α : Type) where
  move : σ → UInt8 → Move ε σ α
  atEnd : σ → Except ε α

/-- The outcome of a run over bytes at hand: stopped with the unread rest, or all consumed. -/
inductive Pass (ε σ α : Type) where
  | stopped (result : Except ε α) (mark : Mark) (unread : List UInt8)
  | passed (state : σ) (mark : Mark)

namespace Scanner

variable {ε σ α : Type} (m : Scanner ε σ α)

def pass : σ → Mark → List UInt8 → Pass ε σ α
  | s, k, [] => .passed s k
  | s, k, b :: bs =>
      match m.move s b with
      | .shift s' => pass s' (k.advance b) bs
      | .finish r => .stopped r (k.advance b) bs
      | .halt r => .stopped r k (b :: bs)

/-- Runs over what a source still delivers. Interrupted attempts are repeated. -/
def passReplies (fault : DataFault → ε) (ending : Ending) :
    List Delivery → σ → Mark → Except ε α × Cursor
  | [], s, k =>
      match ending with
      | .endOfData => (m.atEnd s, ⟨[], ⟨[], ending⟩, true, k⟩)
      | .failed text => (.error (fault (.device text)), ⟨[], ⟨[], ending⟩, false, k⟩)
  | .interrupted :: rest, s, k => passReplies fault ending rest s k
  | .endOfData :: rest, s, k => (m.atEnd s, ⟨[], ⟨rest, ending⟩, true, k⟩)
  | .failed text :: rest, _, k =>
      (.error (fault (.device text)), ⟨[], ⟨rest, ending⟩, false, k⟩)
  | .data b bs :: rest, s, k =>
      match m.pass s k (b :: bs) with
      | .stopped r k' unread => (r, ⟨unread, ⟨rest, ending⟩, false, k'⟩)
      | .passed s' k' => passReplies fault ending rest s' k'

def scan (fault : DataFault → ε) (s : σ) (c : Cursor) : Except ε α × Cursor :=
  match m.pass s c.mark c.unread with
  | .stopped r k unread => (r, { c with unread, mark := k })
  | .passed s' k =>
      if c.drained then (m.atEnd s', { c with unread := [], mark := k })
      else m.passReplies fault c.source.ending c.source.replies s' k

end Scanner

end TypedJson
