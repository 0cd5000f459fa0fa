import TypedJson.Reader.Error
import TypedJson.Schema.Descriptor
import TypedJson.Writer.Error

set_option autoImplicit false
set_option relaxedAutoImplicit false

namespace TypedJson

/-- Why the descriptor of a schema cannot be had. -/
inductive ResolutionFault where
  | notRegistered (name : String)
  | invalidSchema (schema : String) (cause : DefinitionFault)
  | nameConflict (name : String)
  deriving DecidableEq, Repr

def ResolutionFault.message : ResolutionFault → String
  | .notRegistered name => "no schema named '" ++ name ++ "' has been registered"
  | .invalidSchema schema cause => "schema " ++ schema ++ " is invalid: " ++ cause.message
  | .nameConflict name =>
      "schema name '" ++ name ++ "' is already registered for a different type"

inductive BindError where
  | property (schema property : String) (cause : BindError)
  | reading (error : ReadError)
  | writing (error : WriteError)
  | resolution (fault : ResolutionFault)
  deriving DecidableEq, Repr

namespace BindError

def message : BindError → String
  | .property schema name cause =>
      "property '" ++ name ++ "' of " ++ schema ++ ": " ++ cause.message
  | .reading error => error.message
  | .writing error => error.message
  | .resolution fault => fault.message

/-- The properties on the way to the failing value, outermost first. -/
def properties : BindError → List String
  | .property _ name cause => name :: cause.properties
  | _ => []

def propertyPath (e : BindError) : Option String :=
  match e.properties with
  | [] => none
  | names => some (String.intercalate "." names)

/-- The error below all properties. -/
def rootCause : BindError → BindError
  | .property _ _ cause => cause.rootCause
  | e => e

end BindError

end TypedJson
