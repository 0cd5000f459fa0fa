import TypedJson.Schema.Support

/-!
# The registry

Schemas that have been made known by name. A name belongs to the first schema registered under it;
nothing is ever replaced or removed.
-/

set_option autoImplicit false
set_option relaxedAutoImplicit false

namespace TypedJson

/-- The descriptors registered, in order of registration. -/
structure Registry (κ : Type) where
  entries : List (Descriptor κ) := []

abbrev RegistryM (κ : Type) := EStateM ResolutionFault (Registry κ)

structure SchemaGroup (κ : Type) where
  name : String
  schemas : List (Schema κ)

namespace Registry

variable {κ : Type} [DecidableEq κ] (r : Registry κ)

def find? (name : String) : Option (Descriptor κ) :=
  r.entries.find? fun d => d.described.name = name

def byName (name : String) : Except ResolutionFault (Descriptor κ) :=
  match r.find? name with
  | some d => .ok d
  | none => .error (.notRegistered name)

def byType (key : κ) : Option (Descriptor κ) :=
  r.entries.find? fun d => d.described.key = key

def registered : List (SchemaId κ) :=
  (r.entries.map Descriptor.described).mergeSort fun a b => a.name ≤ b.name

/-- Registers a schema, whose descriptor is the answer. A schema registered before stays as it is;
another one under the same name is a conflict. -/
def register (s : Schema κ) : RegistryM κ (Descriptor κ) := do
  match s.descriptor with
  | .error fault => throw fault
  | .ok d =>
      match (← get).find? d.described.name with
      | none =>
          modify fun r => { r with entries := r.entries ++ [d] }
          pure d
      | some known =>
          if known.described.key = d.described.key then pure d
          else throw (.nameConflict d.described.name)

def support (catalog : Catalog κ) (s : Schema κ) : RegistryM κ (Support κ) := do
  match Support.of catalog s with
  | .error fault => throw fault
  | .ok support =>
      let _ ← register s
      pure support

/-- Registers the schemas of a group up to the first that fails. -/
def registerGroup (g : SchemaGroup κ) : RegistryM κ Unit :=
  g.schemas.forM fun s => do
    let _ ← register s

end Registry

end TypedJson
