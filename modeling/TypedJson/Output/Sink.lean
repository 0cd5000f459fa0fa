import TypedJson.DataFault

set_option autoImplicit false
set_option relaxedAutoImplicit false

namespace TypedJson

inductive Acceptance where
  | accepted (atMost : Nat)
  | interrupted
  | failed (text : String)
  deriving DecidableEq, Repr

/-- A byte sink: the bytes received, the answers to the coming write attempts, the answer to every
later one (a number of bytes accepted at most, or a failure), and likewise for flushing. -/
structure Sink where
  received : List UInt8 := []
  replies : List Acceptance := []
  steady : Except String Nat := .ok 1024
  flushes : List (Except String Unit) := []
  steadyFlush : Except String Unit := .ok ()

abbrev SinkM := EStateM DataFault Sink

namespace Sink

/-- Hands over bytes to a sink past its script. -/
def writeSteady (data : List UInt8) : SinkM Unit := do
  match (← get).steady with
  | .error text => throw (.device text)
  | .ok 0 => throw .refused
  | .ok _ => modify fun s => { s with received := s.received ++ data }

/-- Hands over bytes while the script lasts. Interrupted attempts are repeated; an attempt that
accepts nothing ends in failure. -/
def writeScripted : List Acceptance → List UInt8 → SinkM Unit
  | _, [] => pure ()
  | [], data => writeSteady data
  | reply :: rest, data => do
      modify fun s => { s with replies := rest }
      match reply with
      | .interrupted => writeScripted rest data
      | .failed text => throw (.device text)
      | .accepted 0 => throw .refused
      | .accepted (n + 1) =>
          modify fun s => { s with received := s.received ++ data.take (n + 1) }
          writeScripted rest (data.drop (n + 1))

/-- Hands over all bytes; no attempt is made for none. -/
def write (data : List UInt8) : SinkM Unit := do
  writeScripted (← get).replies data

/-- Asks the sink to pass on what it has received. -/
def flush : SinkM Unit := do
  let s ← get
  let answer ← match s.flushes with
    | [] => pure s.steadyFlush
    | answer :: rest => do
        set { s with flushes := rest }
        pure answer
  match answer with
  | .ok () => pure ()
  | .error text => throw (.device text)

end Sink

end TypedJson
