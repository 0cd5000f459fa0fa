import TypedJson.Schema.Dispatch
import TypedJson.Writer.Basic

set_option autoImplicit false
set_option relaxedAutoImplicit false

namespace TypedJson

abbrev EmitM := EStateM BindError Writer

namespace EmitM

def write {α : Type} (x : WriteM α) : EmitM α := fun w =>
  match x w with
  | .ok a w' => .ok a w'
  | .error e w' => .error (.writing e) w'

def within {α : Type} (context : Option String) (property : String) (x : EmitM α) : EmitM α :=
  fun w =>
    match x w, context with
    | .error e w', some schema => .error (.property schema property e) w'
    | result, _ => result

def resolve {κ : Type} (s : Schema κ) : EmitM (Descriptor κ) :=
  match s.descriptor with
  | .ok d => pure d
  | .error fault => throw (.resolution fault)

end EmitM

namespace Schema

variable {κ : Type} [DecidableEq κ]

/-- Writes the member for a property of a record, given how each of its fields is written; the
answer is false, and nothing has been written, if the schema has no field for it. -/
def writePropertyBy (s : Schema κ) (fields : List (Value κ)) (writers : List (EmitM Unit))
    (p : Property κ) : EmitM Bool :=
  match s.writeAction p fields with
  | none => pure false
  | some .omit => pure true
  | some (.field position context) =>
      match writers[position]? with
      | none => pure false
      | some writer => do
          EmitM.write (WriteM.name p.jsonName)
          EmitM.within context p.jsonName writer
          pure true
  | some (.computed x) => do
      EmitM.write (WriteM.name p.jsonName)
      EmitM.write (WriteM.double x)
      pure true

/-- Writes the properties of some levels, the last level first. -/
def writeLevelsBy (s : Schema κ) (fields : List (Value κ)) (writers : List (EmitM Unit)) :
    List (Level κ) → EmitM Unit
  | [] => pure ()
  | l :: ancestors => do
      writeLevelsBy s fields writers ancestors
      l.properties.forM fun p => do
        let _ ← s.writePropertyBy fields writers p

def writeBy (s : Schema κ) (fields : List (Value κ)) (writers : List (EmitM Unit)) :
    EmitM Unit := do
  let d ← EmitM.resolve s
  EmitM.write WriteM.beginObject
  s.writeLevelsBy fields writers d.chain
  EmitM.write WriteM.endObject

end Schema

namespace EmitM

variable {κ : Type} [DecidableEq κ] (catalog : Catalog κ)

mutual

def value : Value κ → EmitM Unit
  | .scalar s => write (WriteM.scalar s)
  | .absent => write WriteM.null
  | .present v => value v
  | .list vs => do
      write WriteM.beginArray
      items vs
      write WriteM.endArray
  | .record k fields => (catalog k).writeBy fields (writers fields)

def items : List (Value κ) → EmitM Unit
  | [] => pure ()
  | v :: vs => do
      value v
      items vs

def writers : List (Value κ) → List (EmitM Unit)
  | [] => []
  | v :: vs => value v :: writers vs

end

def collection (vs : List (Value κ)) : EmitM Unit := do
  write WriteM.beginArray
  vs.forM (value catalog)
  write WriteM.endArray

def property (v : Value κ) (p : Property κ) : EmitM Bool :=
  match v with
  | .record k fields => (catalog k).writePropertyBy fields (writers catalog fields) p
  | _ => pure false

def document (v : Value κ) : EmitM Unit := do
  value catalog v
  write WriteM.close

end EmitM

end TypedJson
