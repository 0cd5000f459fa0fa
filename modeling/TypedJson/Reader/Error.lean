import TypedJson.Lexing.Lexeme
import TypedJson.Reader.Location

set_option autoImplicit false
set_option relaxedAutoImplicit false

namespace TypedJson

inductive Expectation where
  | token (t : Token)
  | value
  deriving DecidableEq, Repr

def Expectation.text : Expectation → String
  | .token t => t.text
  | .value => "value"

/-- Why a reader refuses an operation: the text is malformed, the next unit is of another kind, a
number lies outside its type or is no number of that type, or the data cannot be had. The target of
a conversion is quoted by name, since code that reads types of its own names them as it likes. -/
inductive ReadError where
  | malformed (fault : SyntaxFault) (at_ : Location)
  | unexpected (expected : Expectation) (actual : Token) (at_ : Location)
  | outOfRange (value target : String) (at_ : Location)
  | invalidNumber (value target : String) (at_ : Location)
  | unavailable (fault : DataFault) (at_ : Location)
  deriving DecidableEq, Repr

namespace ReadError

def ofFault (fault : LexFault) (l : Location) : ReadError :=
  match fault with
  | .text f => .malformed f l
  | .data f => .unavailable f l

def location : ReadError → Location
  | .malformed _ l | .unexpected _ _ l | .outOfRange _ _ l | .invalidNumber _ _ l
  | .unavailable _ l => l

def message : ReadError → String
  | .malformed fault l => "syntax error: JSON syntax error " ++ fault.name ++ " at " ++ l.text
  | .unexpected expected actual l =>
      "expected " ++ expected.text ++ " but was " ++ actual.text ++ " at " ++ l.text
  | .outOfRange value target l =>
      "value " ++ value ++ " is out of range for " ++ target ++ " at " ++ l.text
  | .invalidNumber value target l =>
      "value '" ++ value ++ "' is not a valid " ++ target ++ " at " ++ l.text
  | .unavailable fault l => "IO error '" ++ fault.message ++ "' at (roughly) " ++ l.text

end ReadError

end TypedJson
