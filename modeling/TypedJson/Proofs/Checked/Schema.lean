import TypedJson.Proofs.Checked.Session
import TypedJson.Schema.Reading

set_option autoImplicit false
set_option relaxedAutoImplicit false

namespace TypedJson

abbrev CheckedBindM := CheckedM BindError StackReader

abbrev CheckedFillM (β : Type) := CheckedM BindError (StackReader × β)

namespace CheckedBindM

def read {α : Type} (x : CheckedReadM α) : CheckedBindM α :=
  CheckedM.onPart id (fun m _ => m) (fun e _ => .reading e) x

def within {α : Type} (context : Option String) (property : String) (x : CheckedBindM α) :
    CheckedBindM α := fun m =>
  (x m).map fun (outcome, m') =>
    match outcome, context with
    | .error (.error e), some schema => (.error (.error (.property schema property e)), m')
    | outcome, _ => (outcome, m')

def resolve {κ : Type} (s : Schema κ) : CheckedBindM (Descriptor κ) :=
  match s.descriptor with
  | .ok d => pure d
  | .error fault => CheckedM.fail (.resolution fault)

def collecting {β : Type} (start : β) (x : CheckedFillM β Unit) : CheckedBindM β := fun m =>
  (x (m, start)).map fun (outcome, m', b) => (outcome.map fun _ => b, m')

end CheckedBindM

namespace CheckedFillM

variable {β : Type}

def typed {α : Type} (x : CheckedBindM α) : CheckedFillM β α :=
  CheckedM.onPart Prod.fst (fun m (_, b) => (m, b)) (fun e _ => e) x

def read {α : Type} (x : CheckedReadM α) : CheckedFillM β α :=
  typed (CheckedBindM.read x)

def update (f : β → β) : CheckedFillM β Unit :=
  modify fun (m, b) => (m, f b)

def each (body : CheckedFillM β Unit) : CheckedFillM β Unit :=
  CheckedM.loop (fun _ => do
    if ← read CheckedReadM.hasNext then
      body
      pure (.inl ())
    else pure (.inr ())) ()

def push {α : Type} (item : CheckedBindM α) : CheckedFillM (List α) Unit := do
  let v ← typed item
  update fun vs => v :: vs

def items {α : Type} (item : CheckedBindM α) : CheckedFillM (List α) Unit := do
  read CheckedReadM.beginArray
  each (push item)
  read CheckedReadM.endArray

variable {κ : Type} [DecidableEq κ]

def property (readField : FieldType κ → CheckedBindM (Value κ)) (s : Schema κ) (p : Property κ) :
    CheckedFillM (List (Value κ)) Bool :=
  match s.readSlot p with
  | none => pure false
  | some slot => do
      let v ← typed (CheckedBindM.within slot.context p.jsonName (readField slot.type))
      update fun fields => fields.set slot.position v
      pure true

def member (readField : FieldType κ → CheckedBindM (Value κ)) (s : Schema κ) (d : Descriptor κ) :
    CheckedFillM (List (Value κ)) Unit := do
  let name ← read CheckedReadM.nextName
  let handled ← match d.find name with
    | some p => property readField s p
    | none => pure false
  if !handled then read CheckedReadM.skipValue

def object (readField : FieldType κ → CheckedBindM (Value κ)) (s : Schema κ) :
    CheckedFillM (List (Value κ)) Unit := do
  let d ← typed (CheckedBindM.resolve s)
  read CheckedReadM.beginObject
  each (member readField s d)
  read CheckedReadM.endObject

end CheckedFillM

namespace CheckedBindM

def itemsAfter {α : Type} (initial : List α) (item : CheckedBindM α) : CheckedBindM (List α) := do
  let reversed ← collecting initial.reverse (CheckedFillM.items item)
  pure reversed.reverse

variable {κ : Type} [DecidableEq κ]

def object (readField : FieldType κ → CheckedBindM (Value κ)) (s : Schema κ) :
    CheckedBindM (Value κ) := do
  let fields ← collecting (s.fields.map Field.initial) (CheckedFillM.object readField s)
  pure (.record s.key fields)

def fieldBy (readRecord : κ → CheckedBindM (Value κ)) : FieldType κ → CheckedBindM (Value κ)
  | .scalar t => do pure (.scalar (← read (CheckedReadM.nextScalar t)))
  | .optional t => do
      if (← read CheckedReadM.peek) = .null then
        read CheckedReadM.nextNull
        pure .absent
      else pure (.present (← fieldBy readRecord t))
  | .boxed t => fieldBy readRecord t
  | .list t => do pure (.list (← itemsAfter [] (fieldBy readRecord t)))
  | .record k => readRecord k

/-- Reads a record, with calls nested at most `depth` deep. -/
def record (catalog : Catalog κ) : Nat → κ → CheckedBindM (Value κ)
  | 0, _ => fun _ => none
  | depth + 1, k => object (fieldBy (record catalog depth)) (catalog k)

def field (catalog : Catalog κ) (depth : Nat) (t : FieldType κ) : CheckedBindM (Value κ) :=
  fieldBy (record catalog depth) t

def collection (catalog : Catalog κ) (depth : Nat) (t : FieldType κ) (initial : List (Value κ)) :
    CheckedBindM (List (Value κ)) :=
  itemsAfter initial (field catalog depth t)

end CheckedBindM

namespace CheckedFillM

variable {κ : Type} [DecidableEq κ]

def fill (catalog : Catalog κ) (depth : Nat) (s : Schema κ) : CheckedFillM (List (Value κ)) Unit :=
  object (CheckedBindM.field catalog depth) s

end CheckedFillM

end TypedJson
