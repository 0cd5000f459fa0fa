import TypedJson.Output.Sink

/-!
# Buffered output

A buffer of fixed capacity in front of a sink. A full buffer is handed over at once. When that fails
the buffer stays full, and the next byte tries again first.
-/

set_option autoImplicit false
set_option relaxedAutoImplicit false

namespace TypedJson

/-- A sink with the bytes not handed over yet. -/
structure Outlet where
  sink : Sink
  buffer : Array UInt8 := #[]

abbrev OutletM := EStateM DataFault Outlet

namespace Outlet

/-- The number of bytes that the buffer holds. -/
def capacity : Nat := 1024

def onSink {α : Type} (x : SinkM α) : OutletM α := fun o =>
  match x o.sink with
  | .ok a s => .ok a { o with sink := s }
  | .error e s => .error e { o with sink := s }

/-- Hands the content of the buffer over and empties it. -/
def handOver : OutletM Unit := do
  onSink (Sink.write (← get).buffer.toList)
  modify fun o => { o with buffer := #[] }

def handOverFull : OutletM Unit := do
  if capacity ≤ (← get).buffer.size then handOver

/-- Puts one byte into the buffer. A buffer found full comes from a failure and goes first. -/
def push (b : UInt8) : OutletM Unit := do
  handOverFull
  modify fun o => { o with buffer := o.buffer.push b }
  handOverFull

/-- Puts bytes into the buffer. -/
def put (bytes : List UInt8) : OutletM Unit :=
  bytes.forM push

/-- Hands over the used part of the buffer and flushes the sink. -/
def flush : OutletM Unit := do
  handOver
  onSink Sink.flush

end Outlet

end TypedJson
