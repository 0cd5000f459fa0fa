/-!
# Byte sources

A source is what its coming read attempts answer: a finite script, then one answer for ever. A read
hands over at most `capacity` bytes, however many the source holds.
-/

set_option autoImplicit false
set_option relaxedAutoImplicit false

namespace TypedJson

/-- The answer to one read attempt. A delivery holds at least one byte: an answer without bytes
is the end of the data. -/
inductive Delivery where
  | data (first : UInt8) (more : List UInt8)
  | interrupted
  | endOfData
  | failed (text : String)
  deriving DecidableEq, Repr

/-- The answer to every read attempt after the script. -/
inductive Ending where
  | endOfData
  | failed (text : String)
  deriving DecidableEq, Repr

/-- A byte source, by the answers it still has to give. -/
structure Source where
  replies : List Delivery
  ending : Ending
  deriving DecidableEq, Repr

/-- How a source hands out its bytes: at most `chunk` per read, with an interrupted attempt before
every read if `interrupting`; `failure` is the place where reading fails, `pause` the place where
one read reports the end of the data although more would follow. A read that may hand over no byte
at all reports the end of the data, so with a `chunk` of zero the data ends where it begins. -/
structure Pace where
  chunk : Nat := 1024
  interrupting : Bool := false
  failure : Option (Nat × String) := none
  pause : Option Nat := none
  deriving Repr

namespace Delivery

def bytes : Delivery → List UInt8
  | .data b bs => b :: bs
  | _ => []

def total : List Delivery → Nat
  | [] => 0
  | d :: rest => d.bytes.length + total rest

def ofBytes : List UInt8 → Delivery
  | [] => .endOfData
  | b :: bs => .data b bs

end Delivery

namespace Source

/-- The most bytes that one read can hand over. -/
def capacity : Nat := 1024

/-- Cuts bytes into runs of `size + 1`, the last one shorter, in at most `fuel` steps. -/
def cut (size : Nat) : Nat → List UInt8 → List (List UInt8)
  | 0, _ => []
  | _ + 1, [] => []
  | fuel + 1, b :: bs => (b :: bs.take size) :: cut size fuel (bs.drop size)

def deliveries (chunk : Nat) (bytes : List UInt8) : List Delivery :=
  (cut (min chunk capacity - 1) bytes.length bytes).map Delivery.ofBytes

def ofBytes (bytes : List UInt8) : Source :=
  ⟨deliveries capacity bytes, .endOfData⟩

/-- A source that delivers the bytes at the given pace. No delivery reaches across a failure or a
pause. -/
def paced (pace : Pace) (bytes : List UInt8) : Source :=
  let bytes := if pace.chunk = 0 then [] else bytes
  let (reachable, ending) := match pace.failure with
    | some (n, text) =>
        if n ≤ bytes.length then (bytes.take n, Ending.failed text) else (bytes, .endOfData)
    | none => (bytes, .endOfData)
  let replies := match pace.pause with
    | some n =>
        if n < reachable.length then
          deliveries pace.chunk (reachable.take n) ++
            .endOfData :: deliveries pace.chunk (reachable.drop n)
        else deliveries pace.chunk reachable
    | none => deliveries pace.chunk reachable
  if pace.interrupting then
    ⟨(replies.flatMap fun r => [.interrupted, r]) ++ [.interrupted], ending⟩
  else ⟨replies, ending⟩

def ahead (s : Source) : Nat :=
  Delivery.total s.replies

end Source

end TypedJson
