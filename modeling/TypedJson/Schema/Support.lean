import TypedJson.Schema.Reading
import TypedJson.Schema.Writing

set_option autoImplicit false
set_option relaxedAutoImplicit false

namespace TypedJson

/-- Descriptor, reader and writer of a schema. -/
structure Support (κ : Type) where
  descriptor : Descriptor κ
  read : BindM (Value κ)
  write : Value κ → EmitM Unit

namespace Support

variable {κ : Type} [DecidableEq κ]

def of (catalog : Catalog κ) (s : Schema κ) : Except ResolutionFault (Support κ) := do
  let descriptor ← s.descriptor
  pure { descriptor, read := s.read catalog, write := EmitM.value catalog }

def readCollection (support : Support κ) (initial : List (Value κ)) : BindM (List (Value κ)) :=
  BindM.bounded fun fuel => BindM.itemsAfter fuel initial support.read

def writeCollection (support : Support κ) (vs : List (Value κ)) : EmitM Unit := do
  EmitM.write WriteM.beginArray
  vs.forM support.write
  EmitM.write WriteM.endArray

end Support

end TypedJson
