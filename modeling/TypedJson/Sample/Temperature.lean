import TypedJson.Number.Arithmetic
import TypedJson.Sample.Key

set_option autoImplicit false
set_option relaxedAutoImplicit false

namespace TypedJson.Sample

namespace Temperature

def id : SchemaId Key := ⟨.temperature, "Temperature"⟩

/-- Degrees Fahrenheit, rounded after each of the three operations. -/
def fahrenheit (celsius : Number.Double) : Number.Double :=
  ((celsius.scale 9 1).scale 1 5).addNat 32

def properties : List (Property Key) := [
  ⟨"label", "label", 20, 0, id, id⟩,
  ⟨"celsius", "celsius", 10, 1, id, id⟩,
  ⟨"fahrenheit", "fahrenheit", 99, 2, id, id⟩]

def target : Nat → Option Nat
  | 10 => some 0
  | 20 => some 1
  | _ => none

def rendition : Nat → List (Value Key) → Option Rendition
  | 0, [_, .absent] => some .omitted
  | 0, _ => some (.field 1)
  | 1, _ => some (.field 0)
  | 2, .scalar (.double celsius) :: _ => some (.computed (fahrenheit celsius))
  | _, _ => none

end Temperature

def temperature : CustomSchema Key where
  layer := ⟨Temperature.id, [plain "celsius" double, plain "label" (.optional text)]⟩
  properties := Temperature.properties
  target := Temperature.target
  rendition := Temperature.rendition

end TypedJson.Sample
