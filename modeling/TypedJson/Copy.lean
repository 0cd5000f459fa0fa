import TypedJson.Reader.Events
import TypedJson.Schema.Error
import TypedJson.Writer.Basic

set_option autoImplicit false
set_option relaxedAutoImplicit false

namespace TypedJson

/-- Operations of a reader and a writer together. -/
abbrev CopyM := EStateM BindError (Reader × Writer)

namespace CopyM

def onReader {α : Type} (x : ReadM α) : CopyM α := fun (r, w) =>
  match x r with
  | .ok a r' => .ok a (r', w)
  | .error e r' => .error (.reading e) (r', w)

/-- Runs an operation of the writer. -/
def onWriter {α : Type} (x : WriteM α) : CopyM α := fun (r, w) =>
  match x w with
  | .ok a w' => .ok a (r, w')
  | .error e w' => .error (.writing e) (r, w')

/-- Whether a value is complete behind an event that leaves the given depth. -/
def completes (depth : Nat) : Event → Bool
  | .name _ => false
  | _ => depth = 0

def valueWithin : Nat → Nat → CopyM Unit
  | 0, _ => pure ()
  | fuel + 1, depth => do
      match ← onReader ReadM.nextEvent with
      | none => pure ()
      | some e =>
          onWriter (WriteM.event e)
          let d := e.depthAfter depth
          if completes d e then pure () else valueWithin fuel d

def value : CopyM Unit := do
  valueWithin ((← get).1.unitsLeft + 1) 0

/-- Copies one value and closes the written document. -/
def document : CopyM Unit := do
  value
  onWriter WriteM.close

end CopyM

end TypedJson
