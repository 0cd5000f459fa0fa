import TypedJson.Reader.Location

set_option autoImplicit false
set_option relaxedAutoImplicit false

namespace TypedJson

/-- The identity of a record type. The key decides equality; the name is for messages and for the
registry. -/
structure SchemaId (κ : Type) where
  key : κ
  name : String
  deriving Repr

/-- Identities are equal if their keys are. -/
instance {κ : Type} [BEq κ] : BEq (SchemaId κ) := ⟨fun a b => a.key == b.key⟩

/-- A property: its names in documents and in the record type, its positions in the read dispatch
and in the write dispatch, and the types that these two belong to. -/
structure Property (κ : Type) where
  jsonName : String
  internalName : String
  readIndex : Nat
  writeIndex : Nat
  reader : SchemaId κ
  writer : SchemaId κ
  deriving BEq, Repr

/-- A property that one type both reads and writes, at the same position. -/
def Property.ofIndex {κ : Type} (jsonName internalName : String) (index : Nat)
    (owner : SchemaId κ) : Property κ :=
  ⟨jsonName, internalName, index, index, owner, owner⟩

/-- The positions of some properties by a key of theirs. A new entry comes in front of the others, so
that it takes the place of an earlier one for the same key. -/
structure Index {κ α : Type} (key : Property κ → α) (ps : List (Property κ)) where
  entries : List (α × Nat)
  entered : entries = (ps.mapIdx fun i p => (key p, i)).reverse

namespace Index

variable {κ α : Type} {key : Property κ → α} {ps : List (Property κ)}

def empty : Index key [] := ⟨[], rfl⟩

def insert (x : Index key ps) (p : Property κ) : Index key (ps ++ [p]) :=
  ⟨(key p, ps.length) :: x.entries, by rw [x.entered, List.mapIdx_concat, List.reverse_concat]⟩

variable [BEq α]

def has (x : Index key ps) (k : α) : Bool :=
  (x.entries.lookup k).isSome

def find (x : Index key ps) (k : α) : Option (Property κ) := do
  let i ← x.entries.lookup k
  ps[i]?

end Index

/-- The own properties of one type, in order of declaration, and where they are. -/
structure Level (κ : Type) where
  described : SchemaId κ
  properties : List (Property κ)
  byName : Index Property.jsonName properties
  byRead : Index Property.readIndex properties
  byWrite : Index Property.writeIndex properties

namespace Level

variable {κ : Type} (l : Level κ)

def empty (id : SchemaId κ) : Level κ :=
  ⟨id, [], .empty, .empty, .empty⟩

def add (p : Property κ) : Level κ where
  described := l.described
  properties := l.properties ++ [p]
  byName := l.byName.insert p
  byRead := l.byRead.insert p
  byWrite := l.byWrite.insert p

def findName (name : String) : Option (Property κ) :=
  l.byName.find name

def findRead (index : Nat) : Option (Property κ) :=
  l.byRead.find index

def findWrite (index : Nat) : Option (Property κ) :=
  l.byWrite.find index

end Level

/-- The descriptor of a type: its own level and those of the types it extends, nearest first. -/
structure Descriptor (κ : Type) where
  own : Level κ
  ancestors : List (Level κ)

namespace Descriptor

variable {κ : Type} (d : Descriptor κ)

def described : SchemaId κ := d.own.described

def chain : List (Level κ) := d.own :: d.ancestors

/-- Finds a property by its name in documents, the nearest level first. -/
def find (name : String) : Option (Property κ) :=
  d.chain.findSome? fun l => l.findName name

/-- All properties in the order in which they are written: those of the remotest ancestor first. -/
def allProperties : List (Property κ) :=
  d.chain.reverse.flatMap Level.properties

end Descriptor

inductive DefinitionFault where
  | missingDescribedType
  | emptyPropertyName (schema property : String)
  | duplicatePropertyName (schema name : String)
  | duplicateReadIndex (schema : String) (index : Nat)
  | duplicateWriteIndex (schema : String) (index : Nat)
  | shadowedPropertyName (schema name ancestor : String)
  deriving DecidableEq, Repr

def DefinitionFault.message : DefinitionFault → String
  | .missingDescribedType => "described type of the object descriptor has not been set"
  | .emptyPropertyName schema property =>
      "property '" ++ property ++ "' of " ++ schema ++ " has an empty JSON name"
  | .duplicatePropertyName schema name =>
      schema ++ " declares the JSON name '" ++ name ++ "' more than once"
  | .duplicateReadIndex schema index =>
      schema ++ " uses read index " ++ natText index ++ " for more than one property"
  | .duplicateWriteIndex schema index =>
      schema ++ " uses write index " ++ natText index ++ " for more than one property"
  | .shadowedPropertyName schema name ancestor =>
      "property '" ++ name ++ "' of " ++ schema ++ " shadows the property of the same name in " ++
        ancestor

/-- What a descriptor is built from. -/
structure Draft (κ : Type) where
  described : Option (SchemaId κ) := none
  base : Option (Descriptor κ) := none
  properties : List (Property κ) := []

namespace Draft

variable {κ : Type}

def ancestors (d : Draft κ) : List (Level κ) :=
  match d.base with
  | none => []
  | some base => base.chain

/-- What is wrong with one more property of a level, given the levels of the extended types. -/
def faultOf (ancestors : List (Level κ)) (l : Level κ) (p : Property κ) : Option DefinitionFault :=
  let schema := l.described.name
  if p.jsonName = "" then some (.emptyPropertyName schema p.internalName)
  else if l.byName.has p.jsonName then some (.duplicatePropertyName schema p.jsonName)
  else if l.byRead.has p.readIndex then some (.duplicateReadIndex schema p.readIndex)
  else if l.byWrite.has p.writeIndex then some (.duplicateWriteIndex schema p.writeIndex)
  else
    match ancestors.find? fun l => (l.findName p.jsonName).isSome with
    | some l => some (.shadowedPropertyName schema p.jsonName l.described.name)
    | none => none

/-- Adds properties to a level until one is faulty. -/
def addAll (ancestors : List (Level κ)) :
    List (Property κ) → Level κ → Except DefinitionFault (Level κ)
  | [], l => .ok l
  | p :: rest, l =>
      match faultOf ancestors l p with
      | some fault => .error fault
      | none => addAll ancestors rest (l.add p)

/-- Builds the descriptor, unless a property is faulty. -/
def build (d : Draft κ) : Except DefinitionFault (Descriptor κ) :=
  match d.described with
  | none => .error .missingDescribedType
  | some id => do
      let own ← addAll d.ancestors d.properties (.empty id)
      pure ⟨own, d.ancestors⟩

end Draft

end TypedJson
