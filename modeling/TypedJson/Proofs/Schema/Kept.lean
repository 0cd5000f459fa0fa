import Mathlib.Logic.Function.Basic
import TypedJson.Document
import TypedJson.Proofs.Operation
import TypedJson.Sample.Catalog

/-!
# Descriptors that are kept

A descriptor can be built when it is first asked for and kept from then on, and so can those of the
extended types on the way. A failure is not kept: whoever asks next builds again. Whatever has been
asked for before, the answer is the descriptor that the schema has by itself.
-/

set_option autoImplicit false
set_option relaxedAutoImplicit false

namespace TypedJson

open Document (outcome)
open Operation

variable {κ : Type}

/-- A catalog in which types are known by their keys, and extended types are those of the catalog. -/
structure Catalog.Keyed (catalog : Catalog κ) : Prop where
  key : ∀ k, (catalog k).key = k
  base : ∀ {k : κ} {own next : Layer κ} {name : String} {bases : List (String × Layer κ)},
    catalog k = .declared own ((name, next) :: bases) → catalog next.id.key = .declared next bases

abbrev Kept (κ : Type) := κ → Option (Descriptor κ)

abbrev KeptM (κ : Type) := EStateM ResolutionFault (Kept κ)

namespace KeptM

def build (id : SchemaId κ) (draft : Draft κ) : KeptM κ (Descriptor κ) :=
  match draft.build with
  | .ok d => pure d
  | .error cause => throw (.invalidSchema id.name cause)

section

variable [DecidableEq κ]

/-- The descriptor that is kept for a type. If there is none it is made, and kept if that succeeds. -/
def obtain (key : κ) (make : KeptM κ (Descriptor κ)) : KeptM κ (Descriptor κ) := do
  match (← get) key with
  | some d => pure d
  | none =>
      let d ← make
      modify fun kept => Function.update kept key (some d)
      pure d

def layer : Layer κ → List (Layer κ) → KeptM κ (Descriptor κ)
  | own, [] => obtain own.id.key (build own.id (own.draft none))
  | own, next :: bases => obtain own.id.key do
      let base ← layer next bases
      build own.id (own.draft (some base))

def schema : Schema κ → KeptM κ (Descriptor κ)
  | .declared own bases => layer own (bases.map Prod.snd)
  | .custom c => obtain c.layer.id.key
      (build c.layer.id { described := some c.layer.id, properties := c.properties })

/-- What is kept after the descriptors of some types have been asked for, whether or not they could
be built. -/
def after (catalog : Catalog κ) (asked : List κ) : Kept κ :=
  asked.foldl (fun kept k => final (schema (catalog k) kept)) fun _ => none

end

end KeptM

namespace Kept

def Faithful (catalog : Catalog κ) (kept : Kept κ) : Prop :=
  ∀ k d, kept k = some d → (catalog k).descriptor = .ok d

/-- From a faithful store an operation comes to the outcome given, and leaves a faithful store. -/
def Gives {α : Type} (catalog : Catalog κ) (x : KeptM κ α) (a : Except ResolutionFault α) : Prop :=
  ∀ kept, Faithful catalog kept → outcome (x kept) = a ∧ Faithful catalog (final (x kept))

variable {catalog : Catalog κ} {α β : Type} {k : κ}

theorem Gives.bind {x : KeptM κ α} {a : Except ResolutionFault α} {f : α → KeptM κ β}
    {b : α → Except ResolutionFault β} (first : Gives catalog x a)
    (rest : ∀ v, Gives catalog (f v) (b v)) : Gives catalog (x >>= f) (a >>= b) := by
  intro kept faithful
  obtain ⟨rfl, left⟩ := first kept faithful
  cases run : x kept with
  | ok v kept' =>
      rw [run] at left
      rw [bind_of_ok run]
      exact rest v kept' left
  | error fault kept' =>
      rw [run] at left
      rw [bind_of_error run]
      exact ⟨rfl, left⟩

theorem gives_build (id : SchemaId κ) (draft : Draft κ) :
    Gives catalog (KeptM.build id draft) (draft.build.mapError (.invalidSchema id.name)) := by
  intro kept faithful
  unfold KeptM.build
  cases draft.build with
  | ok d => exact ⟨rfl, faithful⟩
  | error cause => exact ⟨rfl, faithful⟩

section

variable [DecidableEq κ]

/-- It makes no difference that a descriptor is kept. -/
theorem gives_obtain {make : KeptM κ (Descriptor κ)}
    (made : Gives catalog make (catalog k).descriptor) :
    Gives catalog (KeptM.obtain k make) (catalog k).descriptor := by
  intro kept faithful
  unfold KeptM.obtain
  rw [get_bind]
  cases known : kept k with
  | some d => exact ⟨(faithful k d known).symm, faithful⟩
  | none =>
      obtain ⟨answer, left⟩ := made kept faithful
      dsimp only
      cases run : make kept with
      | error fault kept' =>
          rw [run] at answer left
          rw [bind_of_error run]
          exact ⟨answer, left⟩
      | ok d kept' =>
          rw [run] at answer left
          rw [bind_of_ok run]
          refine ⟨answer, fun k' d' stored => ?_⟩
          change Function.update kept' k (some d) k' = some d' at stored
          by_cases same : k' = k
          · rw [same, Function.update_self] at stored
            cases stored
            rw [same]
            exact answer.symm
          · rw [Function.update_of_ne same] at stored
            exact left k' d' stored

theorem gives_layer (keyed : catalog.Keyed) {own : Layer κ} {bases : List (String × Layer κ)}
    (declared : catalog k = .declared own bases) :
    Gives catalog (KeptM.layer own (bases.map Prod.snd)) (catalog k).descriptor := by
  induction bases generalizing k own with
  | nil =>
      have own_key : own.id.key = k := by
        rw [← keyed.key k, declared]
        rfl
      have made : Gives catalog _ _ := gives_build own.id (own.draft none)
      rw [List.map_nil, KeptM.layer, own_key]
      refine gives_obtain ?_
      rw [declared]
      exact made
  | cons first bases ih =>
      obtain ⟨name, next⟩ := first
      have own_key : own.id.key = k := by
        rw [← keyed.key k, declared]
        rfl
      have extended := keyed.base declared
      have based := ih extended
      rw [extended] at based
      rw [List.map_cons, KeptM.layer, own_key]
      refine gives_obtain ?_
      rw [declared]
      exact based.bind fun base => gives_build own.id (own.draft (some base))

theorem gives_schema (keyed : catalog.Keyed) (k : κ) :
    Gives catalog (KeptM.schema (catalog k)) (catalog k).descriptor := by
  cases declared : catalog k with
  | declared own bases =>
      rw [← declared]
      have given := gives_layer keyed declared
      rw [declared] at given ⊢
      exact given
  | custom c =>
      have key : c.layer.id.key = k := by
        rw [← keyed.key k, declared]
        rfl
      rw [KeptM.schema, key, ← declared]
      refine gives_obtain ?_
      rw [declared]
      exact gives_build c.layer.id _

theorem faithful_after (keyed : catalog.Keyed) (asked : List κ) :
    Faithful catalog (KeptM.after catalog asked) := by
  unfold KeptM.after
  refine List.foldlRecOn asked _ (motive := Faithful catalog) (fun _ _ stored => nomatch stored) ?_
  intro kept faithful k _
  exact (gives_schema keyed k kept faithful).2

/-- Whatever has been asked for before, the answer for a type is its descriptor or the reason why it
has none. -/
theorem outcome_schema (keyed : catalog.Keyed) (asked : List κ) (k : κ) :
    outcome (KeptM.schema (catalog k) (KeptM.after catalog asked)) = (catalog k).descriptor :=
  (gives_schema keyed k _ (faithful_after keyed asked)).1

end

end Kept

theorem Sample.catalog_keyed : Sample.catalog.Keyed where
  key k := by cases k <;> rfl
  base {k} _ _ _ _ declared := by
    cases k <;> cases declared <;> rfl

end TypedJson
