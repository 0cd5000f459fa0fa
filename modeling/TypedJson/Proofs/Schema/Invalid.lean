import TypedJson.Proofs.Schema.Kept
import TypedJson.Proofs.Schema.Validity
import TypedJson.Schema.Registry

set_option autoImplicit false
set_option relaxedAutoImplicit false

namespace TypedJson.Schema

open Document (outcome)
open Operation

variable {κ : Type}

/-- What a schema is used on: a registry, a reader, a writer, and the fields of a record. -/
structure Surroundings (κ : Type) where
  registry : Registry κ
  reader : Reader
  writer : Writer
  fields : List (Value κ)

/-- The ways to use a schema: asking for its support or its descriptor, with or without registering
it, reading a new record or into the fields of one, and writing a record. -/
inductive Use where
  | support
  | descriptor
  | registerSupport
  | register
  | read
  | readInto
  | write

namespace Use

def on {ε σ α : Type} (wrap : ε → BindError) (part : Surroundings κ → σ)
    (put : σ → Surroundings κ → Surroundings κ) (x : EStateM ε σ α) :
    EStateM BindError (Surroundings κ) Unit := fun here =>
  match x (part here) with
  | .ok _ s => .ok () (put s here)
  | .error e s => .error (wrap e) (put s here)

theorem on_of_error {ε σ α : Type} {wrap : ε → BindError} {part : Surroundings κ → σ}
    {put : σ → Surroundings κ → Surroundings κ} {x : EStateM ε σ α} {here : Surroundings κ} {e : ε}
    (h : x (part here) = .error e (part here)) (same : put (part here) here = here) :
    on wrap part put x here = .error (wrap e) here := by
  unfold on
  rw [h]
  dsimp only
  rw [same]

def pass {α : Type} : Except ResolutionFault α → EStateM BindError (Surroundings κ) Unit
  | .ok _ => pure ()
  | .error fault => throw (.resolution fault)

variable [DecidableEq κ]

def run (catalog : Catalog κ) (k : κ) : Use → EStateM BindError (Surroundings κ) Unit
  | support => pass (Support.of catalog (catalog k))
  | descriptor => pass (catalog k).descriptor
  | registerSupport =>
      on .resolution Surroundings.registry (fun registry here => { here with registry })
        (Registry.support catalog (catalog k))
  | register =>
      on .resolution Surroundings.registry (fun registry here => { here with registry })
        (Registry.register (catalog k))
  | read =>
      on (fun e => e) Surroundings.reader (fun reader here => { here with reader })
        ((catalog k).read catalog)
  | readInto =>
      on (fun e => e) (fun here => (here.reader, here.fields))
        (fun (reader, fields) here => { here with reader, fields }) ((catalog k).fill catalog)
  | write => fun here =>
      on (fun e => e) Surroundings.writer (fun writer here => { here with writer })
        (EmitM.value catalog (.record k here.fields)) here

end Use

section

variable [DecidableEq κ] {catalog : Catalog κ} {k : κ} {s : Schema κ} {fault : ResolutionFault}

/-- The outcomes of some uses, one after the other, and what they leave. -/
def useAll (catalog : Catalog κ) (k : κ) :
    List Use → Surroundings κ → List (Except BindError Unit) × Surroundings κ
  | [], here => ([], here)
  | u :: uses, here =>
      let (rest, last) := useAll catalog k uses (final (u.run catalog k here))
      (outcome (u.run catalog k here) :: rest, last)

/-! Without a descriptor nothing is done. -/

theorem support_of_invalid (h : s.descriptor = .error fault) :
    Support.of catalog s = .error fault := by
  unfold Support.of
  rw [h]
  rfl

theorem fillBy_of_invalid (h : s.descriptor = .error fault) (fuel : Nat)
    (readField : FieldType κ → BindM (Value κ)) (r : Reader) (fields : List (Value κ)) :
    s.fillBy fuel readField (r, fields) = .error (.resolution fault) (r, fields) := by
  unfold fillBy
  refine bind_of_error ?_
  unfold FillM.typed BindM.resolve
  rw [h]
  rfl

theorem fill_of_invalid (h : s.descriptor = .error fault) (r : Reader) (fields : List (Value κ)) :
    s.fill catalog (r, fields) = .error (.resolution fault) (r, fields) :=
  fillBy_of_invalid h _ _ r fields

theorem read_of_invalid (h : s.descriptor = .error fault) (r : Reader) :
    s.read catalog r = .error (.resolution fault) r := by
  unfold read BindM.bounded readBy
  refine bind_of_error ?_
  unfold BindM.collecting
  rw [fillBy_of_invalid h]

theorem writeBy_of_invalid (h : s.descriptor = .error fault) (fields : List (Value κ))
    (writers : List (EmitM Unit)) (w : Writer) :
    s.writeBy fields writers w = .error (.resolution fault) w := by
  unfold writeBy
  refine bind_of_error ?_
  unfold EmitM.resolve
  rw [h]
  rfl

theorem run_of_invalid (h : (catalog k).descriptor = .error fault) (u : Use)
    (here : Surroundings κ) : u.run catalog k here = .error (.resolution fault) here := by
  cases u with
  | support =>
      rw [Use.run, support_of_invalid h]
      rfl
  | descriptor =>
      rw [Use.run, h]
      rfl
  | registerSupport =>
      rw [Use.run]
      refine Use.on_of_error ?_ rfl
      unfold Registry.support
      rw [support_of_invalid h]
      rfl
  | register =>
      rw [Use.run]
      refine Use.on_of_error ?_ rfl
      unfold Registry.register
      rw [h]
      rfl
  | read =>
      rw [Use.run]
      exact Use.on_of_error (read_of_invalid h here.reader) rfl
  | readInto =>
      rw [Use.run]
      exact Use.on_of_error (fill_of_invalid h here.reader here.fields) rfl
  | write =>
      rw [Use.run]
      refine Use.on_of_error ?_ rfl
      rw [EmitM.value]
      exact writeBy_of_invalid h here.fields _ here.writer

theorem useAll_of_invalid (h : (catalog k).descriptor = .error fault) (uses : List Use)
    (here : Surroundings κ) :
    useAll catalog k uses here = (uses.map fun _ => .error (.resolution fault), here) := by
  induction uses with
  | nil => rfl
  | cons u uses ih =>
      unfold useAll
      rw [run_of_invalid h, final, ih]
      rfl

/-- A declared schema has no support if and only if one of its layers is faulty: it has an empty
name, or a name twice, or one that a layer behind it has. Of the faulty layers the last one is
blamed. No matter which descriptors have been asked for before, and how often and in which way the
schema is used, it is always for the same reason that this fails, and nothing else has changed. -/
theorem refused_of_faulty {own : Layer κ} {bases : List (String × Layer κ)}
    (declared : catalog k = .declared own bases) :
    let layers := own :: bases.map Prod.snd
    ((∃ fault, Support.of catalog (catalog k) = .error fault) ↔
      ∃ above l below, layers = above ++ l :: below ∧ l.Faulty below) ∧
    ∀ above l below, layers = above ++ l :: below → l.Faulty below → Layer.Sound below →
      ∃ cause, Support.of catalog (catalog k) = .error (.invalidSchema l.id.name cause) ∧
        (catalog.Keyed → ∀ asked, outcome (KeptM.schema (catalog k) (KeptM.after catalog asked)) =
          .error (.invalidSchema l.id.name cause)) ∧
        ∀ uses here, useAll catalog k uses here =
          (uses.map fun _ => .error (.resolution (.invalidSchema l.id.name cause)), here) := by
  intro layers
  have descriptor : (catalog k).descriptor = own.describe (bases.map Prod.snd) := by
    rw [declared]
    rfl
  have refused : ∀ above l below, layers = above ++ l :: below → l.Faulty below →
      Layer.Sound below →
      ∃ cause, (catalog k).descriptor = .error (.invalidSchema l.id.name cause) := by
    intro above l below split faulty sound
    rw [descriptor]
    exact Layer.describe_of_rootmost split faulty sound
  refine ⟨⟨?_, ?_⟩, ?_⟩
  · rintro ⟨fault, unsupported⟩
    obtain sound | ⟨above, l, below, split, faulty, -⟩ := Layer.sound_or_rootmost layers
    · obtain ⟨d, described⟩ := Layer.describe_of_sound sound
      rw [Support.of, descriptor, described] at unsupported
      cases unsupported
    · exact ⟨above, l, below, split, faulty⟩
  · rintro ⟨above, l, below, split, faulty⟩
    obtain sound | ⟨above, l, below, split, faulty, sound⟩ := Layer.sound_or_rootmost layers
    · exact absurd faulty (sound above l below split)
    · obtain ⟨cause, invalid⟩ := refused above l below split faulty sound
      exact ⟨_, support_of_invalid invalid⟩
  · intro above l below split faulty sound
    obtain ⟨cause, invalid⟩ := refused above l below split faulty sound
    refine ⟨cause, support_of_invalid invalid, fun keyed asked => ?_, ?_⟩
    · rw [Kept.outcome_schema keyed, invalid]
    · exact useAll_of_invalid invalid

/-- A schema that extends one with a name twice, when the latter and others have been asked for. -/
theorem refused_of_faulty_base :
    ∃ bases, Sample.catalog .childOfInvalid = .declared Sample.childOfInvalid bases ∧
      Sample.duplicate.Faulty [] ∧ Sample.catalog.Keyed ∧
      ∃ cause, outcome (KeptM.schema (Sample.catalog .childOfInvalid)
          (KeptM.after Sample.catalog [.duplicate, .sample, .childOfInvalid])) =
        .error (.invalidSchema "Duplicate" cause) := by
  have faulty : Sample.duplicate.Faulty [] := .inr (.inl (by decide))
  have declared : Sample.catalog .childOfInvalid = .declared Sample.childOfInvalid _ := rfl
  obtain ⟨-, refused⟩ := refused_of_faulty declared
  obtain ⟨cause, -, kept, -⟩ :=
    refused [Sample.childOfInvalid] Sample.duplicate [] rfl faulty Layer.sound_nil
  exact ⟨_, rfl, faulty, Sample.catalog_keyed, cause, kept Sample.catalog_keyed _⟩

end

end TypedJson.Schema
