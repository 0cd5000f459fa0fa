import TypedJson.Schema.Declaration
import TypedJson.Schema.Error

/-!
# Dispatch

How a schema is described, and which field of a record a property stands for when it is read and
when it is written. The positions of the dispatch are looked up in the layer that the property names
as its owner; no name is compared.
-/

set_option autoImplicit false
set_option relaxedAutoImplicit false

namespace TypedJson

variable {κ : Type}

namespace Layer

/-- The properties that the fields of a layer declare: positions are those of declaration. -/
def properties (l : Layer κ) : List (Property κ) :=
  l.fields.mapIdx fun i f => .ofIndex f.jsonName f.name i l.id

def draft (l : Layer κ) (base : Option (Descriptor κ)) : Draft κ :=
  { described := some l.id, base, properties := l.properties }

/-- Describes a layer and the layers it extends, the remotest one first. -/
def describe : Layer κ → List (Layer κ) → Except ResolutionFault (Descriptor κ)
  | own, [] => (own.draft none).build.mapError (.invalidSchema own.id.name)
  | own, next :: bases => do
      let base ← describe next bases
      (own.draft (some base)).build.mapError (.invalidSchema own.id.name)

def countFields (layers : List (Layer κ)) : Nat :=
  (layers.flatMap Layer.fields).length

end Layer

/-- A field of a record: where it stands, its type, and the schema that an error for it names, if
it names one. -/
structure Slot (κ : Type) where
  position : Nat
  type : FieldType κ
  context : Option String
  deriving Repr

/-- What writing a property comes to: nothing, a field, or a computed number. -/
inductive WriteAction where
  | omit
  | field (position : Nat) (context : Option String)
  | computed (x : Number.Double)
  deriving Repr

namespace Schema

def descriptor : Schema κ → Except ResolutionFault (Descriptor κ)
  | .declared own bases => own.describe (bases.map Prod.snd)
  | .custom c =>
      let draft : Draft κ := { described := some c.layer.id, properties := c.properties }
      draft.build.mapError (.invalidSchema c.layer.id.name)

/-- The field at a position of the layer that the owner names, among layers of which each is
embedded in the one before it. -/
def slotIn [DecidableEq κ] (owner : κ) (index : Nat) : List (Layer κ) → Option (Slot κ)
  | [] => none
  | l :: bases =>
      if l.id.key = owner then
        l.fields[index]?.map fun f =>
          ⟨Layer.countFields bases + index, f.type, some l.id.name⟩
      else slotIn owner index bases

/-- The field that reading a property fills, if the schema has one for it. -/
def readSlot [DecidableEq κ] (s : Schema κ) (p : Property κ) : Option (Slot κ) :=
  match s with
  | .declared _ _ => slotIn p.reader.key p.readIndex s.layers
  | .custom c => do
      let position ← c.target p.readIndex
      let f ← c.layer.fields[position]?
      pure ⟨position, f.type, none⟩

/-- What writing a property of a record comes to, if the schema has a field for it. -/
def writeAction [DecidableEq κ] (s : Schema κ) (p : Property κ) (fields : List (Value κ)) :
    Option WriteAction :=
  match s with
  | .declared _ _ =>
      (slotIn p.writer.key p.writeIndex s.layers).map fun slot =>
        .field slot.position slot.context
  | .custom c =>
      (c.rendition p.writeIndex fields).map fun
        | .omitted => .omit
        | .field position => .field position none
        | .computed x => .computed x

end Schema

end TypedJson
