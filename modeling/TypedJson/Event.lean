set_option autoImplicit false
set_option relaxedAutoImplicit false

namespace TypedJson

/-- One unit of a document. Names and strings are decoded, numbers are literals. -/
inductive Event where
  | beginObject
  | endObject
  | beginArray
  | endArray
  | name (text : String)
  | string (text : String)
  | number (literal : String)
  | boolean (value : Bool)
  | null
  deriving DecidableEq, Repr

def Event.depthAfter (depth : Nat) : Event → Nat
  | .beginObject | .beginArray => depth + 1
  | .endObject | .endArray => depth - 1
  | _ => depth

end TypedJson
