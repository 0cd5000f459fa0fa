import TypedJson.Number.Layout
import TypedJson.Number.Conversion

set_option autoImplicit false
set_option relaxedAutoImplicit false

namespace TypedJson

inductive ScalarType where
  | integer (type : Number.IntegerType)
  | single
  | double
  | boolean
  | text
  deriving DecidableEq, Repr

inductive Scalar where
  | integer (n : Int)
  | single (x : Number.Single)
  | double (x : Number.Double)
  | boolean (b : Bool)
  | text (s : String)
  deriving DecidableEq, Repr

def Scalar.hasType : Scalar → ScalarType → Bool
  | .integer n, .integer type => type.admits n
  | .single _, .single => true
  | .double _, .double => true
  | .boolean _, .boolean => true
  | .text _, .text => true
  | _, _ => false

/-- The scalar that a field of the type holds before anything is read. -/
def ScalarType.blank : ScalarType → Scalar
  | .integer _ => .integer 0
  | .single => .single (.zero _)
  | .double => .double (.zero _)
  | .boolean => .boolean false
  | .text => .text ""

end TypedJson
