import TypedJson.Scalar
import TypedJson.Schema.Descriptor

/-!
# Schemas

Field types, values, and the declarations of record types. Record types refer to each other by key,
so that they may be recursive; a catalog resolves the keys. Most schemas are declared by their
fields alone; a custom schema says itself which property concerns which field.
-/

set_option autoImplicit false
set_option relaxedAutoImplicit false

namespace TypedJson

/-- The types of fields. A boxed value is read and written as its content; the box is where a
record type may contain itself. -/
inductive FieldType (κ : Type) where
  | scalar (type : ScalarType)
  | optional (type : FieldType κ)
  | boxed (type : FieldType κ)
  | list (type : FieldType κ)
  | record (key : κ)
  deriving DecidableEq, Repr

/-- The values of fields. A record lists the fields of the remotest type it extends first and its
own last. -/
inductive Value (κ : Type) where
  | scalar (s : Scalar)
  | absent
  | present (v : Value κ)
  | list (items : List (Value κ))
  | record (key : κ) (fields : List (Value κ))
  deriving Repr

/-- A field: its name, its name in documents, its type and its value in a new record. -/
structure Field (κ : Type) where
  name : String
  jsonName : String
  type : FieldType κ
  initial : Value κ
  deriving Repr

/-- What one type declares itself, without what it extends. -/
structure Layer (κ : Type) where
  id : SchemaId κ
  fields : List (Field κ)
  deriving Repr

/-- What a write position of a custom schema stands for: a property left out, the value of a field,
or a computed number. -/
inductive Rendition where
  | omitted
  | field (position : Nat)
  | computed (x : Number.Double)
  deriving Repr

/-- A schema with a dispatch of its own: which field a read index fills, and what a write index
renders, given the fields of the record. -/
structure CustomSchema (κ : Type) where
  layer : Layer κ
  properties : List (Property κ)
  target : Nat → Option Nat
  rendition : Nat → List (Value κ) → Option Rendition

/-- A record type: declared by its own layer and the layers it extends, nearest first and each with
the name it is embedded under, or custom. -/
inductive Schema (κ : Type) where
  | declared (own : Layer κ) (bases : List (String × Layer κ))
  | custom (c : CustomSchema κ)

abbrev Catalog (κ : Type) := κ → Schema κ

namespace FieldType

variable {κ : Type}

/-- The value of a field for which no other is declared. A record starts with its own new value. -/
def blank (blankRecord : κ → Value κ) : FieldType κ → Value κ
  | .scalar t => .scalar t.blank
  | .optional _ => .absent
  | .boxed t => blank blankRecord t
  | .list _ => .list []
  | .record k => blankRecord k

end FieldType

namespace Schema

variable {κ : Type}

def id : Schema κ → SchemaId κ
  | .declared own _ => own.id
  | .custom c => c.layer.id

def key (s : Schema κ) : κ := s.id.key

def name (s : Schema κ) : String := s.id.name

def layers : Schema κ → List (Layer κ)
  | .declared own bases => own :: bases.map Prod.snd
  | .custom c => [c.layer]

/-- All fields in the order in which a record lists them. -/
def fields (s : Schema κ) : List (Field κ) :=
  s.layers.reverse.flatMap Layer.fields

def initial (s : Schema κ) : Value κ :=
  .record s.key (s.fields.map Field.initial)

end Schema

end TypedJson
