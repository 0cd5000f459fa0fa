import TypedJson.Proofs.Schema.Validity
import TypedJson.Proofs.Schema.Visits

/-!
# The steps of typed writing

Writing a value of a type comes down to a list of calls that is read off the value. Each call has a
context, the properties that an error of it names: one for each record on the way to what is
written, and none for options, boxes and lists.
-/

set_option autoImplicit false
set_option relaxedAutoImplicit false

namespace TypedJson

open Operation

/-! Lists that correspond element by element. -/

section

variable {α β γ δ : Type} {xs : List α} {ys : List β}

theorem flatMap_eq_of_forall₂ {f : α → List γ} {g : β → List γ}
    (h : List.Forall₂ (fun x y => f x = g y) xs ys) : xs.flatMap f = ys.flatMap g := by
  induction h with
  | nil => rfl
  | cons first _ ih => rw [List.flatMap_cons, List.flatMap_cons, first, ih]

theorem forall₂_zip {R : α → β → Prop} (ps : List γ) (f : γ → δ) (h : List.Forall₂ R xs ys) :
    List.Forall₂ (fun p q => q.1 = f p.1 ∧ R p.2 q.2) (ps.zip xs) ((ps.map f).zip ys) := by
  induction h generalizing ps with
  | nil => simp
  | cons first _ ih =>
      cases ps with
      | nil => exact .nil
      | cons p ps => exact .cons ⟨rfl, first⟩ (ih ps)

end

/-- A call of typed writing. Its context is the schemas and JSON names of the properties within
which it is made, the outermost first. -/
structure Step where
  context : List (String × String)
  call : Writer.Call

namespace Step

def under (schema name : String) (s : Step) : Step :=
  { s with context := (schema, name) :: s.context }

/-- The error of a step: the cause, wrapped once for each property of the context. -/
def error (s : Step) (cause : WriteError) : BindError :=
  s.context.foldr (fun c e => .property c.1 c.2 e) (.writing cause)

def run (s : Step) : EmitM Unit :=
  s.context.foldr (fun c x => EmitM.within (some c.1) c.2 x) (EmitM.write s.call.run)

/-- The steps of a member: its name, and within the property those of its value. -/
def member {κ : Type} (m : Property κ × List Step) : List Step :=
  ⟨[], .name m.1.jsonName⟩ :: m.2.map (under m.1.writer.name m.1.jsonName)

def names (s : Step) : List String :=
  s.context.map Prod.snd

def event (s : Step) : Event :=
  s.call.event

theorem map_event_member {κ : Type} (m : Property κ × List Step) :
    (member m).map event = .name m.1.jsonName :: m.2.map event := by
  rw [member, List.map_cons, List.map_map]
  rfl

theorem rootCause_error (s : Step) (cause : WriteError) :
    (s.error cause).rootCause = .writing cause := by
  obtain ⟨context, call⟩ := s
  induction context with
  | nil => rfl
  | cons c context ih => exact ih

theorem properties_error (s : Step) (cause : WriteError) :
    (s.error cause).properties = s.names := by
  obtain ⟨context, call⟩ := s
  induction context with
  | nil => rfl
  | cons c context ih => exact congrArg (c.2 :: ·) ih

end Step

namespace EmitM

variable {α β : Type} {w w' : Writer} {a : α} {e : BindError} {x : EmitM α}

/-! Being within a property is being so in each step. -/

theorem within_of_ok (context : Option String) (name : String) (h : x w = .ok a w') :
    within context name x w = .ok a w' := by
  cases context <;> simp only [within, h]

theorem within_of_error (schema name : String) (h : x w = .error e w') :
    within (some schema) name x w = .error (.property schema name e) w' := by
  simp only [within, h]

theorem within_pure (context : Option String) (name : String) (a : α) :
    within context name (pure a : EmitM α) = pure a := by
  funext w
  exact within_of_ok context name rfl

theorem within_bind (schema name : String) (x : EmitM α) (f : α → EmitM β) :
    within (some schema) name (x >>= f) =
      within (some schema) name x >>= fun a => within (some schema) name (f a) := by
  funext w
  cases first : x w with
  | error e w' =>
      rw [bind_of_error (within_of_error schema name first)]
      exact within_of_error schema name (bind_of_error first)
  | ok a w' =>
      rw [bind_of_ok (within_of_ok _ name first)]
      simp only [within, bind_of_ok first]

theorem write_of_ok {x : WriteM α} (h : x w = .ok a w') : write x w = .ok a w' := by
  simp only [write, h]

theorem write_of_error {x : WriteM α} {cause : WriteError} (h : x w = .error cause w') :
    write x w = .error (.writing cause) w' := by
  simp only [write, h]

/-! Loops. -/

theorem forM_congr {ι : Type} {xs : List ι} {f g : ι → EmitM Unit} (h : ∀ x ∈ xs, f x = g x) :
    xs.forM f = xs.forM g := by
  induction xs with
  | nil => rfl
  | cons x xs ih =>
      obtain ⟨first, rest⟩ := List.forall_mem_cons.mp h
      change (f x >>= fun _ => xs.forM f) = g x >>= fun _ => xs.forM g
      rw [first, ih rest]

theorem forM_flatMap {ι δ : Type} (xs : List ι) (f : ι → List δ) (g : δ → EmitM Unit) :
    (xs.flatMap f).forM g = xs.forM fun x => (f x).forM g := by
  induction xs with
  | nil => rfl
  | cons x xs ih =>
      rw [List.flatMap_cons]
      change _ = (f x).forM g >>= fun _ => xs.forM fun x => (f x).forM g
      rw [← ih]
      exact List.forM_append

theorem forM_run_under (schema name : String) (steps : List Step) :
    (steps.map (Step.under schema name)).forM Step.run =
      within (some schema) name (steps.forM Step.run) := by
  induction steps with
  | nil => exact (within_pure _ _ _).symm
  | cons s steps ih =>
      change (within (some schema) name s.run >>= fun _ =>
        (steps.map (Step.under schema name)).forM Step.run) =
          within (some schema) name (s.run >>= fun _ => steps.forM Step.run)
      rw [within_bind, ih]

theorem forM_run_between (first last : Step) (steps : List Step) :
    (first :: (steps ++ [last])).forM Step.run =
      (do first.run; steps.forM Step.run; last.run) := by
  change (first.run >>= fun _ => (steps ++ [last]).forM Step.run) = _
  refine congrArg (first.run >>= ·) (funext fun _ => ?_)
  have split : (steps ++ [last]).forM Step.run =
      (do steps.forM Step.run; [last].forM Step.run) := List.forM_append
  have single : [last].forM Step.run = last.run := bind_pure_unit
  rw [split, single]

end EmitM

variable {κ : Type} (catalog : Catalog κ)

namespace Value

mutual

/-- The steps in which a value is written. A record has one member for each property. -/
def steps : Value κ → List Step
  | .scalar s => [⟨[], s.call⟩]
  | .absent => [⟨[], .null⟩]
  | .present v => v.steps
  | .list vs => ⟨[], .beginArray⟩ :: ((stepsOf vs).flatten ++ [⟨[], .endArray⟩])
  | .record k fields =>
      ⟨[], .beginObject⟩ :: (((Layer.allProperties (catalog k).layers).zip
        (stepsOf fields)).flatMap Step.member ++ [⟨[], .endObject⟩])

def stepsOf : List (Value κ) → List (List Step)
  | [] => []
  | v :: vs => v.steps :: stepsOf vs

end

theorem stepsOf_eq (vs : List (Value κ)) : stepsOf catalog vs = vs.map (steps catalog) := by
  induction vs with
  | nil => rfl
  | cons v vs ih => rw [stepsOf, ih, List.map_cons]

end Value

namespace Layer

theorem map_jsonName_allProperties (layers : List (Layer κ)) :
    (allProperties layers).map Property.jsonName = (allFields layers).map Field.jsonName := by
  rw [allProperties, allFields, List.map_flatMap, List.map_flatMap]
  exact congrArg (layers.reverse.flatMap ·) (funext map_jsonName_properties)

end Layer

namespace Value

mutual

theorem events_steps : (v : Value κ) →
    (v.steps catalog).map Step.event = (v.tree catalog).events
  | .scalar s => by
      rw [steps, tree, Scalar.tree_events]
      rfl
  | .absent => by
      rw [steps, tree, Tree.events]
      rfl
  | .present v => by
      rw [steps, tree]
      exact events_steps v
  | .list vs => by
      have body := flatMap_eq_of_forall₂ (events_stepsOf vs)
      rw [steps, tree, Tree.events, Tree.itemEvents_eq, List.map_cons, List.map_append, ← body,
        List.map_flatten]
      rfl
  | .record k fields => by
      have members := forall₂_zip (Layer.allProperties (catalog k).layers) Property.jsonName
        (events_stepsOf fields)
      rw [Layer.map_jsonName_allProperties] at members
      have body := flatMap_eq_of_forall₂ (f := fun m => (Step.member m).map Step.event)
        (g := Tree.ofMember) (members.imp fun m t same => by
          rw [Step.map_event_member, Tree.ofMember, same.1, same.2])
      rw [steps, tree, Tree.events, Tree.memberEvents_eq, List.map_cons, List.map_append,
        List.map_flatMap, body]
      rfl

theorem events_stepsOf : (vs : List (Value κ)) →
    List.Forall₂ (fun steps t => steps.map Step.event = t.events) (stepsOf catalog vs)
      (trees catalog vs)
  | [] => .nil
  | v :: vs => .cons (events_steps v) (events_stepsOf vs)

end

end Value

/-! Writing a value is making its steps. -/

variable [DecidableEq κ] {catalog} {t : FieldType κ} {v : Value κ}

namespace Schema

omit [DecidableEq κ] in
theorem IsDeclared.describes {s : Schema κ} (h : s.IsDeclared) :
    ∃ d, s.descriptor = .ok d ∧ d.allProperties = Layer.allProperties s.layers := by
  obtain ⟨⟨own, bases, rfl⟩, -, d, described⟩ := h
  refine ⟨d, described, ?_⟩
  rw [Descriptor.allProperties, (Layer.describe_spec described).1, ← List.map_reverse,
    List.flatMap_map]
  rfl

end Schema

namespace EmitM

theorem member_eq_steps (m : Property κ × Value κ)
    (h : value catalog m.2 = (m.2.steps catalog).forM Step.run) :
    member catalog m = (Step.member (m.1, m.2.steps catalog)).forM Step.run := by
  change _ = write (WriteM.name m.1.jsonName) >>= fun _ =>
    ((m.2.steps catalog).map (Step.under m.1.writer.name m.1.jsonName)).forM Step.run
  rw [forM_run_under, ← h]
  rfl

/-- A value of a type is written in its steps, whatever the state of the writer. -/
theorem value_eq_steps (typed : HasType catalog t v) :
    value catalog v = (v.steps catalog).forM Step.run := by
  induction typed with
  | @scalar t s _ =>
      rw [value, Value.steps, ← Scalar.call_run]
      exact bind_pure_unit.symm
  | absent =>
      rw [value, Value.steps]
      exact bind_pure_unit.symm
  | present _ ih =>
      rw [value, Value.steps]
      exact ih
  | boxed _ ih => exact ih
  | @list t vs _ ih =>
      have body : vs.forM (value catalog) = (Value.stepsOf catalog vs).flatten.forM Step.run := by
        rw [Value.stepsOf_eq, ← List.flatMap_def, forM_flatMap]
        exact forM_congr ih
      rw [value, items_eq, body, Value.steps, forM_run_between]
      rfl
  | @record k fields declared _ complete _ ih =>
      obtain ⟨d, described, properties⟩ := declared.describes
      obtain ⟨⟨own, bases, schema⟩, distinct, -⟩ := declared
      have typed (m : Property κ × Value κ)
          (hm : m ∈ (Layer.allProperties (catalog k).layers).zip fields) :
          value catalog m.2 = (m.2.steps catalog).forM Step.run := by
        obtain ⟨i, below, same⟩ := List.getElem_of_mem (List.of_mem_zip hm).2
        have hf := List.getElem?_eq_getElem (l := (catalog k).fields) (complete ▸ below)
        exact ih i _ _ hf (same ▸ List.getElem?_eq_getElem below)
      have body : (d.allProperties.zip fields).forM (member catalog) =
          (((Layer.allProperties (catalog k).layers).zip
            (Value.stepsOf catalog fields)).flatMap Step.member).forM Step.run := by
        rw [properties, Value.stepsOf_eq, List.zip_map_right, List.flatMap_map, forM_flatMap]
        exact forM_congr fun m hm => member_eq_steps m (typed m hm)
      rw [value_record schema distinct described properties complete, body, Value.steps,
        forM_run_between]
      rfl

end EmitM

end TypedJson
