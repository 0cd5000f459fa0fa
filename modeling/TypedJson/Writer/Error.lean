import TypedJson.DataFault
import TypedJson.Number.Layout

set_option autoImplicit false
set_option relaxedAutoImplicit false

namespace TypedJson

inductive WriteOperation where
  | beginObject
  | endObject
  | beginArray
  | endArray
  | name
  | string
  | boolean
  | number
  | null
  | close
  deriving DecidableEq, Repr

def WriteOperation.text : WriteOperation → String
  | .beginObject => "begin object"
  | .endObject => "end object"
  | .beginArray => "begin array"
  | .endArray => "end array"
  | .name => "write member name"
  | .string => "write string"
  | .boolean => "write boolean"
  | .number => "write number"
  | .null => "write null"
  | .close => "close"

/-- The grammar position that made a writer refuse an operation. -/
inductive WriterState where
  | emptyDocument
  | documentComplete
  | inArray
  | expectingName
  | expectingMemberValue
  | incomplete
  deriving DecidableEq, Repr

def WriterState.text : WriterState → String
  | .emptyDocument => "no value has been written yet"
  | .documentComplete => "the top-level value is complete"
  | .inArray => "inside an array"
  | .expectingName => "a member name is expected"
  | .expectingMemberValue => "a member value is expected"
  | .incomplete => "the top-level value is incomplete"

/-- Why a writer refuses an operation: the sink failed, the operation does not fit the grammar
position, a number is not finite or not a literal, or the writer is closed. -/
inductive WriteError where
  | unavailable (fault : DataFault)
  | misplaced (operation : WriteOperation) (state : WriterState)
  | nonFiniteNumber (x : Number.Double)
  | invalidNumber (literal : String)
  | closed
  deriving DecidableEq, Repr

def WriteError.message : WriteError → String
  | .unavailable fault => "IO error: " ++ fault.message
  | .misplaced operation state => "cannot " ++ operation.text ++ ": " ++ state.text
  | .nonFiniteNumber x =>
      "non-finite number " ++ String.ofList x.plainText ++ " cannot be written by a strict writer"
  | .invalidNumber literal => "'" ++ literal ++ "' is not a valid JSON number"
  | .closed => "writer has already been closed"

end TypedJson
