import TypedJson.Reader.Scalar
import TypedJson.Schema.Dispatch

/-!
# Typed reading

Values are read by their type, records by name-directed update of the fields they start with. A
record that is read half keeps the fields read so far, which `FillM` carries beside the reader.

The loops and the nesting of records are bounded by a `fuel` that `bounded` takes from the input:
every element and every level takes a unit at least, so the units left are fuel enough.
-/

set_option autoImplicit false
set_option relaxedAutoImplicit false

namespace TypedJson

abbrev BindM := EStateM BindError Reader

/-- Reading operations that also collect into a value. -/
abbrev FillM (β : Type) := EStateM BindError (Reader × β)

namespace BindM

def read {α : Type} (x : ReadM α) : BindM α := fun r =>
  match x r with
  | .ok a r' => .ok a r'
  | .error e r' => .error (.reading e) r'

/-- Names the property for which an operation fails, if there is a schema to name with it. -/
def within {α : Type} (context : Option String) (property : String) (x : BindM α) : BindM α :=
  fun r =>
    match x r, context with
    | .error e r', some schema => .error (.property schema property e) r'
    | result, _ => result

def resolve {κ : Type} (s : Schema κ) : BindM (Descriptor κ) :=
  match s.descriptor with
  | .ok d => pure d
  | .error fault => throw (.resolution fault)

/-- Runs an operation with fuel for all the units left. -/
def bounded {α : Type} (x : Nat → BindM α) : BindM α := fun r =>
  x (r.unitsLeft + 1) r

/-- Collects from a starting value; what has been collected is lost on failure. -/
def collecting {β : Type} (start : β) (x : FillM β Unit) : BindM β := fun r =>
  match x (r, start) with
  | .ok () (r', b) => .ok b r'
  | .error e (r', _) => .error e r'

end BindM

namespace FillM

variable {β : Type}

def typed {α : Type} (x : BindM α) : FillM β α := fun (r, b) =>
  match x r with
  | .ok a r' => .ok a (r', b)
  | .error e r' => .error e (r', b)

def read {α : Type} (x : ReadM α) : FillM β α :=
  typed (BindM.read x)

def bounded {α : Type} (x : Nat → FillM β α) : FillM β α := fun (r, b) =>
  x (r.unitsLeft + 1) (r, b)

def update (f : β → β) : FillM β Unit :=
  modify fun (r, b) => (r, f b)

/-- Runs an operation once per remaining element of the current container, for at most `fuel`
elements. -/
def each (body : FillM β Unit) : Nat → FillM β Unit
  | 0 => pure ()
  | fuel + 1 => do
      if ← read ReadM.hasNext then
        body
        each body fuel

def push {α : Type} (item : BindM α) : FillM (List α) Unit := do
  let v ← typed item
  update fun vs => v :: vs

/-- Reads an array, collecting its items in reverse order. -/
def items {α : Type} (fuel : Nat) (item : BindM α) : FillM (List α) Unit := do
  read ReadM.beginArray
  each (push item) fuel
  read ReadM.endArray

end FillM

namespace BindM

/-- Reads an array behind the values given; the result has them first. -/
def itemsAfter {α : Type} (fuel : Nat) (initial : List α) (item : BindM α) :
    BindM (List α) := do
  let reversed ← collecting initial.reverse (FillM.items fuel item)
  pure reversed.reverse

end BindM

namespace Schema

variable {κ : Type} [DecidableEq κ]

/-- Reads the value of a property into its field; the answer is false, and nothing has been read, if
the schema has no field for it. -/
def fillPropertyBy (readField : FieldType κ → BindM (Value κ)) (s : Schema κ) (p : Property κ) :
    FillM (List (Value κ)) Bool :=
  match s.readSlot p with
  | none => pure false
  | some slot => do
      let v ← FillM.typed (BindM.within slot.context p.jsonName (readField slot.type))
      FillM.update fun fields => fields.set slot.position v
      pure true

/-- Reads one member. A member without a field is skipped. -/
def fillMemberBy (fuel : Nat) (readField : FieldType κ → BindM (Value κ)) (s : Schema κ)
    (d : Descriptor κ) : FillM (List (Value κ)) Unit := do
  let name ← FillM.read ReadM.nextName
  let handled ← match d.find name with
    | some p => s.fillPropertyBy readField p
    | none => pure false
  if !handled then FillM.read (ReadM.skipWithin fuel 0)

def fillBy (fuel : Nat) (readField : FieldType κ → BindM (Value κ)) (s : Schema κ) :
    FillM (List (Value κ)) Unit := do
  let d ← FillM.typed (BindM.resolve s)
  FillM.read ReadM.beginObject
  FillM.each (s.fillMemberBy fuel readField d) fuel
  FillM.read ReadM.endObject

def readBy (fuel : Nat) (readField : FieldType κ → BindM (Value κ)) (s : Schema κ) :
    BindM (Value κ) := do
  let fields ← BindM.collecting (s.fields.map Field.initial) (s.fillBy fuel readField)
  pure (.record s.key fields)

end Schema

namespace BindM

variable {κ : Type} [DecidableEq κ]

def fieldBy (fuel : Nat) (readRecord : κ → BindM (Value κ)) : FieldType κ → BindM (Value κ)
  | .scalar t => do pure (.scalar (← read (ReadM.nextScalar t)))
  | .optional t => do
      if (← read ReadM.peek) = .null then
        read ReadM.nextNull
        pure .absent
      else pure (.present (← fieldBy fuel readRecord t))
  | .boxed t => fieldBy fuel readRecord t
  | .list t => do pure (.list (← itemsAfter fuel [] (fieldBy fuel readRecord t)))
  | .record k => readRecord k

/-- Reads a record with records nested at most `depth - 1` deep inside it. -/
def recordWithin (catalog : Catalog κ) (fuel : Nat) : Nat → κ → BindM (Value κ)
  | 0, k => pure (catalog k).initial
  | depth + 1, k => (catalog k).readBy fuel (fieldBy fuel (recordWithin catalog fuel depth))

/-- Reads a value by its type, with the same fuel for loops and for nesting. -/
def fieldWithin (catalog : Catalog κ) (fuel : Nat) (t : FieldType κ) : BindM (Value κ) :=
  fieldBy fuel (recordWithin catalog fuel fuel) t

def field (catalog : Catalog κ) (t : FieldType κ) : BindM (Value κ) :=
  bounded fun fuel => fieldWithin catalog fuel t

def collection (catalog : Catalog κ) (t : FieldType κ) (initial : List (Value κ)) :
    BindM (List (Value κ)) :=
  bounded fun fuel => itemsAfter fuel initial (fieldWithin catalog fuel t)

def document (catalog : Catalog κ) (t : FieldType κ) : BindM (Value κ) := do
  let v ← field catalog t
  read ReadM.finish
  pure v

end BindM

namespace Schema

variable {κ : Type} [DecidableEq κ]

def fillProperty (catalog : Catalog κ) (s : Schema κ) (p : Property κ) :
    FillM (List (Value κ)) Bool :=
  FillM.bounded fun fuel => s.fillPropertyBy (BindM.fieldWithin catalog fuel) p

def fill (catalog : Catalog κ) (s : Schema κ) : FillM (List (Value κ)) Unit :=
  FillM.bounded fun fuel => s.fillBy fuel (BindM.fieldWithin catalog fuel)

def read (catalog : Catalog κ) (s : Schema κ) : BindM (Value κ) :=
  BindM.bounded fun fuel => s.readBy fuel (BindM.fieldWithin catalog fuel)

end Schema

end TypedJson
