import TypedJson.Event
import TypedJson.Reader.Basic

set_option autoImplicit false
set_option relaxedAutoImplicit false

namespace TypedJson

namespace ReadM

/-- Consumes the next unit; the answer is `none` at the end of the document. -/
def nextEvent : ReadM (Option Event) := do
  match ← peek with
  | .beginObject => do beginObject; pure (some .beginObject)
  | .endObject => do endObject; pure (some .endObject)
  | .beginArray => do beginArray; pure (some .beginArray)
  | .endArray => do endArray; pure (some .endArray)
  | .name => do pure (some (.name (← nextName)))
  | .string => do pure (some (.string (← nextString)))
  | .number => do pure (some (.number (← nextNumberText)))
  | .boolean => do pure (some (.boolean (← nextBool)))
  | .null => do nextNull; pure (some .null)
  | .endDocument => pure none

end ReadM

namespace Reader

/-- The events of at most `fuel` rounds, with the error that ended them if one did. -/
def eventsWithin : Nat → Reader → (List Event × Option ReadError) × Reader
  | 0, r => (([], none), r)
  | fuel + 1, r =>
      match ReadM.nextEvent r with
      | .ok none r' => (([], none), r')
      | .ok (some e) r' =>
          let ((events, error), r'') := eventsWithin fuel r'
          ((e :: events, error), r'')
      | .error error r' => (([], some error), r')

def events (r : Reader) : (List Event × Option ReadError) × Reader :=
  eventsWithin (r.unitsLeft + 1) r

end Reader

end TypedJson
