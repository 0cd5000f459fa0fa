import TypedJson.Proofs.Schema.Context
import TypedJson.Proofs.Schema.Steps
import TypedJson.Proofs.Schema.Streaming

set_option autoImplicit false
set_option relaxedAutoImplicit false

namespace TypedJson

open Operation
open Utf8 (encode)

/-! The scalars of a value, with the way to each of them. -/

namespace Scalar

def float? : Scalar → Option Number.Double
  | .single x => some (x.convert _)
  | .double x => some x
  | .integer _ | .boolean _ | .text _ => none

theorem isFinite_eq (s : Scalar) : (!s.isFinite) = s.float?.any fun x => !x.isFinite := by
  cases s with
  | single y =>
      have same : y.isFinite = (y.convert Number.Format.double).isFinite := by
        rw [Bool.eq_iff_iff]
        exact ⟨Number.Binary.isFinite_convert Number.double_widens_single,
          Number.Binary.isFinite_of_convert⟩
      exact congrArg not same
  | double | integer | boolean | text => rfl

end Scalar

namespace Value

variable {κ : Type} (catalog : Catalog κ)

/-- Goes on behind a JSON name. -/
def leafUnder (name : String) (l : List String × Scalar) : List String × Scalar :=
  (name :: l.1, l.2)

mutual

/-- The scalars within a value in the order in which they are written, each with the JSON names on
the way to it: those of the fields of the records around it, the outermost first. -/
def leaves : Value κ → List (List String × Scalar)
  | .scalar s => [([], s)]
  | .absent => []
  | .present v => v.leaves
  | .list vs => (leavesOf vs).flatten
  | .record k fields => (((catalog k).fields.map Field.jsonName).zip (leavesOf fields)).flatMap
      fun m => m.2.map (leafUnder m.1)

def leavesOf : List (Value κ) → List (List (List String × Scalar))
  | [] => []
  | v :: vs => v.leaves :: leavesOf vs

end

/-- The number of a leaf, if it is a float. -/
def leafFloat? (l : List String × Scalar) : Option (List String × Number.Double) :=
  l.2.float?.map (l.1, ·)

end Value

namespace Step

def float? (s : Step) : Option (List String × Number.Double) :=
  match s.call with
  | .double x => some (s.names, x)
  | _ => none

theorem filterMap_float?_member {κ : Type} (m : Property κ × List Step) :
    (member m).filterMap float? =
      (m.2.filterMap float?).map fun l => (m.1.jsonName :: l.1, l.2) := by
  have under (s : Step) : (s.under m.1.writer.name m.1.jsonName).float? =
      s.float?.map fun l => (m.1.jsonName :: l.1, l.2) := by
    obtain ⟨context, call⟩ := s
    cases call <;> rfl
  rw [member, List.filterMap_cons_none rfl, List.filterMap_map, List.map_filterMap]
  exact List.filterMap_congr fun s _ => under s

end Step

namespace Value

variable {κ : Type} (catalog : Catalog κ)

theorem filterMap_float?_leafUnder (name : String) (ls : List (List String × Scalar)) :
    (ls.map (leafUnder name)).filterMap leafFloat? =
      (ls.filterMap leafFloat?).map fun l => (name :: l.1, l.2) := by
  rw [List.filterMap_map, List.map_filterMap]
  refine List.filterMap_congr fun l _ => ?_
  change l.2.float?.map _ = (l.2.float?.map _).map _
  rw [Option.map_map]
  rfl

mutual

theorem floats_steps : (v : Value κ) →
    (v.steps catalog).filterMap Step.float? = (v.leaves catalog).filterMap leafFloat?
  | .scalar s => by
      rw [steps, leaves]
      cases s <;> rfl
  | .absent => by
      rw [steps, leaves]
      rfl
  | .present v => by
      rw [steps, leaves]
      exact floats_steps v
  | .list vs => by
      have body := flatMap_eq_of_forall₂ (floats_stepsOf vs)
      rw [steps, leaves, List.filterMap_cons_none rfl, List.filterMap_append,
        List.filterMap_flatten, List.filterMap_flatten]
      exact (List.append_nil _).trans body
  | .record k fields => by
      have members := forall₂_zip (Layer.allProperties (catalog k).layers) Property.jsonName
        (floats_stepsOf fields)
      rw [Layer.map_jsonName_allProperties] at members
      have body := flatMap_eq_of_forall₂ (f := fun m => (Step.member m).filterMap Step.float?)
        (g := fun m => (m.2.map (leafUnder m.1)).filterMap leafFloat?)
        (members.imp fun m l same => by
          rw [Step.filterMap_float?_member, filterMap_float?_leafUnder, same.1, same.2])
      rw [steps, leaves, List.filterMap_cons_none rfl, List.filterMap_append,
        List.filterMap_flatMap, List.filterMap_flatMap, body]
      exact List.append_nil _

theorem floats_stepsOf : (vs : List (Value κ)) →
    List.Forall₂ (fun steps ls => steps.filterMap Step.float? = ls.filterMap leafFloat?)
      (stepsOf catalog vs) (leavesOf catalog vs)
  | [] => .nil
  | v :: vs => .cons (floats_steps v) (floats_stepsOf vs)

end

mutual

theorem plain_steps : (v : Value κ) → ∀ s ∈ v.steps catalog, ∀ literal, s.call ≠ .literal literal
  | .scalar s => by
      rw [steps]
      cases s <;> simp [Scalar.call]
  | .absent => by simp [steps]
  | .present v => by
      rw [steps]
      exact plain_steps v
  | .list vs => by
      have items := plain_stepsOf vs
      simp only [steps, List.mem_cons, List.mem_append, List.mem_flatten, List.not_mem_nil,
        or_false]
      rintro s (rfl | ⟨steps, hs, member⟩ | rfl) literal
      · exact nofun
      · exact items steps hs s member literal
      · exact nofun
  | .record k fields => by
      have values := plain_stepsOf fields
      simp only [steps, Step.member, List.mem_cons, List.mem_append, List.mem_flatMap,
        List.mem_map, List.not_mem_nil, or_false]
      rintro s (rfl | ⟨m, hm, rfl | ⟨s, member, rfl⟩⟩ | rfl) literal
      · exact nofun
      · exact nofun
      · exact values m.2 (List.of_mem_zip hm).2 s member literal
      · exact nofun

theorem plain_stepsOf : (vs : List (Value κ)) →
    ∀ steps ∈ stepsOf catalog vs, ∀ s ∈ steps, ∀ literal, s.call ≠ .literal literal
  | [] => nofun
  | v :: vs => List.forall_mem_cons.mpr ⟨plain_steps v, plain_stepsOf vs⟩

end

end Value

/-! What becomes of steps that fit the position of the writer. -/

namespace Writer

variable {w : Writer}

theorem Call.run_nonFinite {x : Number.Double} (open_ : w.isClosed = false)
    (strict : w.settings.lenient = false) (nonFinite : x.isFinite = false) :
    (double x).run w = .error (.nonFiniteNumber x) w := by
  refine (bind_of_ok (WriteM.checkOpen_open open_)).trans ?_
  rw [get_bind, if_pos (by simp [strict, nonFinite])]
  rfl

theorem Call.of_not_admissible {c : Call} {lenient : Bool} (h : ¬ c.IsAdmissible lenient)
    (plain : ∀ literal, c ≠ .literal literal) :
    ∃ x, c = .double x ∧ x.isFinite = false ∧ lenient = false := by
  cases c with
  | double x =>
      have both : ¬ (x.isFinite = true ∨ lenient = true) := fun fits => h ⟨fits, trivial⟩
      refine ⟨x, rfl, ?_, ?_⟩
      · simpa using fun finite => both (.inl finite)
      · simpa using fun isLenient => both (.inr isLenient)
  | literal s => exact absurd rfl (plain s)
  | _ => exact absurd trivial h

end Writer

namespace Step

variable {w w' : Writer} {s : Step} {steps : List Step} {rest : List Event}

theorem run_of_ok (h : s.call.run w = .ok () w') : s.run w = .ok () w' := by
  obtain ⟨context, call⟩ := s
  induction context with
  | nil => exact EmitM.write_of_ok h
  | cons c context ih => exact EmitM.within_of_ok _ _ (ih h)

theorem run_of_error {cause : WriteError} (h : s.call.run w = .error cause w') :
    s.run w = .error (s.error cause) w' := by
  obtain ⟨context, call⟩ := s
  induction context with
  | nil => exact EmitM.write_of_error h
  | cons c context ih => exact EmitM.within_of_error _ _ (ih h)

/-- What becomes of steps behind which some units complete the document: all of them succeed, or the
sink fails, or a strict writer refuses the first number that is not finite. -/
inductive Ran (w : Writer) (steps : List Step) (rest : List Event) :
    EStateM.Result BindError Writer Unit → Prop where
  | done {w' : Writer} : w'.isClosed = false → w'.Completes rest → Ran w steps rest (.ok () w')
  | broken {s : Step} {fault : DataFault} {w' : Writer} : ¬ w.outlet.sink.Reliable →
      Ran w steps rest (.error (s.error (.unavailable fault)) w')
  | refused {front back : List Step} {s : Step} {x : Number.Double} {w' : Writer} :
      w.settings.lenient = false → steps = front ++ s :: back →
      (∀ s ∈ front, s.call.IsAdmissible false) → s.call = .double x → x.isFinite = false →
      Ran w steps rest (.error (s.error (.nonFiniteNumber x)) w')

theorem Ran.behind {o : Outlet} {result : EStateM.Result BindError Writer Unit}
    (placed : s.call.Placed w) (admissible : s.call.IsAdmissible w.settings.lenient)
    (put : Outlet.put (encode (s.call.text w)) w.outlet = .ok () o)
    (h : Ran { s.call.next w with outlet := o } steps rest result) :
    Ran w (s :: steps) rest result := by
  have settings : (s.call.next w).settings = w.settings :=
    (s.call.puts_run placed admissible).akin.settings
  cases h with
  | done open_ fits => exact .done open_ fits
  | broken unreliable =>
      refine .broken fun reliable => unreliable ?_
      obtain ⟨_, o', success, holds, -⟩ := Outlet.attains_put _ w.outlet ⟨reliable, rfl⟩
      cases success.symm.trans put
      exact holds
  | @refused front back t x _ strict split admitted call nonFinite =>
      have strict : w.settings.lenient = false :=
        (congrArg WriterSettings.lenient settings).symm.trans strict
      have split : s :: steps = (s :: front) ++ t :: back := congrArg (s :: ·) split
      refine .refused strict split ?_ call nonFinite
      exact List.forall_mem_cons.mpr ⟨strict ▸ admissible, admitted⟩

theorem ran_forM (plain : ∀ s ∈ steps, ∀ literal, s.call ≠ .literal literal)
    (open_ : w.isClosed = false) (sound : w.Sound)
    (fits : w.Completes (steps.map event ++ rest)) : Ran w steps rest (steps.forM run w) := by
  induction steps generalizing w with
  | nil => exact .done open_ fits
  | cons s steps ih =>
      obtain ⟨own, plain⟩ := List.forall_mem_cons.mp plain
      obtain ⟨placed, fits⟩ := (Writer.completes_cons open_ sound s.call).mp fits
      by_cases admissible : s.call.IsAdmissible w.settings.lenient
      · have puts := s.call.puts_run placed admissible
        cases first : s.call.run w with
        | error cause w' =>
            obtain ⟨fault, rfl, -, put⟩ := puts.of_error first
            have failed : (s :: steps).forM run w = _ := bind_of_error (run_of_error first)
            rw [failed]
            refine .broken fun reliable => ?_
            obtain ⟨_, o, success, -⟩ := Outlet.attains_put _ w.outlet ⟨reliable, rfl⟩
            exact absurd (success.symm.trans put) ok_ne_error
        | ok _ w' =>
            obtain ⟨o, put, rfl⟩ := puts.of_ok first
            have going : (s :: steps).forM run w = _ := bind_of_ok (run_of_ok first)
            rw [going]
            exact .behind placed admissible put (ih (w := { s.call.next w with outlet := o }) plain
              (puts.akin.isClosed.trans open_) (Writer.sound_next s.call) fits)
      · obtain ⟨x, call, nonFinite, strict⟩ :=
          Writer.Call.of_not_admissible admissible own
        have refused : s.call.run w = .error (.nonFiniteNumber x) w := by
          rw [call]
          exact Writer.Call.run_nonFinite open_ strict nonFinite
        have failed : (s :: steps).forM run w = _ := bind_of_error (run_of_error refused)
        have split : s :: steps = [] ++ s :: steps := rfl
        rw [failed]
        exact .refused strict split nofun call nonFinite

end Step

variable {κ : Type} {catalog : Catalog κ} {t : FieldType κ} {v : Value κ}

namespace Value

/-- The first float among the steps that is not finite is the first one among the leaves. -/
theorem find?_leaves {front back : List Step} {s : Step} {x : Number.Double}
    (split : v.steps catalog = front ++ s :: back)
    (admitted : ∀ s ∈ front, s.call.IsAdmissible false) (call : s.call = .double x)
    (nonFinite : x.isFinite = false) :
    ∃ scalar, (v.leaves catalog).find? (fun l => !l.2.isFinite) = some (s.names, scalar) ∧
      scalar.float? = some x := by
  have own : s.float? = some (s.names, x) := by rw [Step.float?, call]
  have earlier : (front.filterMap Step.float?).find? (fun l => !l.2.isFinite) = none := by
    rw [List.find?_eq_none]
    intro l member
    obtain ⟨f, hf, found⟩ := List.mem_filterMap.mp member
    have admissible := admitted f hf
    unfold Step.float? at found
    split at found
    · rename_i y double
      cases found
      rw [double] at admissible
      simpa using admissible.1.resolve_right nofun
    · cases found
  have first : ((v.steps catalog).filterMap Step.float?).find? (fun l => !l.2.isFinite) =
      some (s.names, x) := by
    rw [split, List.filterMap_append, List.filterMap_cons_some own, List.find?_append, earlier,
      List.find?_cons_of_pos (by simp [nonFinite]), Option.none_or]
  have same (l : List String × Scalar) :
      (leafFloat? l).any (fun l => !l.2.isFinite) = !l.2.isFinite := by
    rw [leafFloat?, Option.any_map, Scalar.isFinite_eq]
  rw [floats_steps, List.find?_filterMap] at first
  simp only [same] at first
  obtain ⟨⟨names, scalar⟩, found, float⟩ := Option.bind_eq_some_iff.mp first
  obtain ⟨y, float, pair⟩ := Option.map_eq_some_iff.mp float
  cases pair
  exact ⟨scalar, found, float⟩

theorem leavesOf_eq (vs : List (Value κ)) : leavesOf catalog vs = vs.map (leaves catalog) := by
  induction vs with
  | nil => rfl
  | cons v vs ih => rw [leavesOf, ih, List.map_cons]

theorem scalarsOf_eq (vs : List (Value κ)) : scalarsOf vs = vs.flatMap scalars := by
  induction vs with
  | nil => rfl
  | cons v vs ih => rw [scalarsOf, ih, List.flatMap_cons]

theorem map_snd_leaves (typed : HasType catalog t v) :
    (v.leaves catalog).map Prod.snd = v.scalars := by
  induction typed with
  | scalar _ =>
      rw [leaves, scalars]
      rfl
  | absent =>
      rw [leaves, scalars]
      rfl
  | present _ ih =>
      rw [leaves, scalars]
      exact ih
  | boxed _ ih => exact ih
  | @list t vs _ ih =>
      rw [leaves, scalars, scalarsOf_eq, leavesOf_eq, ← List.flatMap_def, List.map_flatMap]
      exact List.flatMap_congr ih
  | @record k fields _ _ complete _ ih =>
      have each (v : Value κ) (hv : v ∈ fields) : (v.leaves catalog).map Prod.snd = v.scalars := by
        obtain ⟨i, below, rfl⟩ := List.getElem_of_mem hv
        have hf := List.getElem?_eq_getElem (l := (catalog k).fields) (complete ▸ below)
        exact ih i _ _ hf (List.getElem?_eq_getElem below)
      have under (m : String × List (List String × Scalar)) :
          (m.2.map (leafUnder m.1)).map Prod.snd = m.2.map Prod.snd := by
        rw [List.map_map]
        rfl
      have behind : (((catalog k).fields.map Field.jsonName).zip (leavesOf catalog fields)).map
          Prod.snd = fields.map (leaves catalog) := by
        rw [← leavesOf_eq]
        apply List.map_snd_zip
        rw [leavesOf_eq, List.length_map, List.length_map, complete]
      rw [leaves, scalars, scalarsOf_eq, List.map_flatMap]
      simp only [under]
      rw [← List.flatMap_map, behind, List.flatMap_map]
      exact List.flatMap_congr each

end Value

variable [DecidableEq κ]

namespace EmitM

variable {w : Writer} {rest : List Event}

theorem ran_value (typed : HasType catalog t v) (open_ : w.isClosed = false) (sound : w.Sound)
    (fits : w.Completes ((v.tree catalog).events ++ rest)) :
    Step.Ran w (v.steps catalog) rest (value catalog v w) := by
  rw [value_eq_steps typed]
  rw [← Value.events_steps] at fits
  exact Step.ran_forM (Value.plain_steps catalog v) open_ sound fits

end EmitM

namespace Writer

theorem TakesValue.completes {w : Writer} (h : w.TakesValue) (sound : w.Sound) (tree : Tree) :
    ∃ rest, w.Completes (tree.events ++ rest) := by
  obtain ⟨rest, later⟩ := Completion.exists_rest w.containers
  obtain ⟨e, es, head, noEnd, -⟩ := tree.events_head
  have units : Completion.Value w.containers (tree.events ++ rest) := ⟨tree, rest, rfl, later⟩
  rw [head] at units ⊢
  have begins := Completion.value_cons.mp units
  have noName (text : String) : e ≠ .name text := by
    rintro rfl
    exact begins
  exact ⟨rest, (completes_value_cons h.isOpen sound noEnd noName).mpr ⟨h, begins⟩⟩

end Writer

namespace BindError

/-- The sink has failed, or the writer is strict and the number is not finite. -/
inductive IsWriteFailure (lenient : Bool) (e : BindError) : Prop where
  | sink {fault : DataFault} :
      e.rootCause = .writing (.unavailable fault) → IsWriteFailure lenient e
  | number {x : Number.Double} : lenient = false → x.isFinite = false →
      e.rootCause = .writing (.nonFiniteNumber x) → IsWriteFailure lenient e

end BindError

theorem Step.Ran.isWriteFailure {w w' : Writer} {steps : List Step} {rest : List Event}
    {e : BindError} (h : Step.Ran w steps rest (.error e w')) :
    e.IsWriteFailure w.settings.lenient := by
  cases h with
  | broken _ => exact .sink (Step.rootCause_error _ _)
  | refused strict _ _ _ nonFinite => exact .number strict nonFinite (Step.rootCause_error _ _)

namespace Document

variable {settings : WriterSettings}

/-- A document is its value, and then two flushes. -/
theorem writeTo_eq (sink : Sink) : writeTo catalog sink v settings =
    (do EmitM.value catalog v; EmitM.finish : EmitM Unit) (Writer.new sink settings) := by
  rw [writeTo, EmitM.document, bind_assoc]
  rfl

theorem ran_new (typed : HasType catalog t v) (sink : Sink) (settings : WriterSettings) :
    Step.Ran (Writer.new sink settings) (v.steps catalog) []
      (EmitM.value catalog v (Writer.new sink settings)) := by
  refine EmitM.ran_value typed rfl nofun ?_
  rw [List.append_nil]
  exact (Writer.completes_new sink settings).mpr ⟨_, rfl⟩

/-- Whatever the sink does, nothing is refused but a number. -/
theorem isWriteFailure_of_writeTo {sink : Sink} {e : BindError} {w : Writer}
    (typed : HasType catalog t v) (h : writeTo catalog sink v settings = .error e w) :
    e.IsWriteFailure settings.lenient := by
  rw [writeTo_eq] at h
  have ran := ran_new typed sink settings
  obtain failed | ⟨_, w₁, value, finish⟩ := bind_eq_error.mp h
  · rw [failed] at ran
    exact ran.isWriteFailure
  · rw [value] at ran
    cases ran with
    | done open_ complete =>
        cases flushes : (do Outlet.flush; Outlet.flush : OutletM Unit) w₁.outlet with
        | ok _ o =>
            obtain ⟨w', run, -⟩ := EmitM.finish_of_ok open_ complete flushes
            exact absurd (run.symm.trans finish) ok_ne_error
        | error fault o =>
            obtain ⟨w', run, -⟩ := EmitM.finish_of_error open_ complete flushes
            cases run.symm.trans finish
            exact .sink rfl

theorem error_of_render {e : BindError} (strict : settings.lenient = false)
    (typed : HasType catalog t v) (h : render catalog v settings = .error e) :
    ∃ w, EmitM.value catalog v (Writer.new {} settings) = .error e w := by
  cases run : EmitM.value catalog v (Writer.new {} settings) with
  | ok _ w =>
      obtain ⟨-, finite⟩ := EmitM.requires_value typed _ _ w strict run
      obtain ⟨text, rendered⟩ := (render_iff_finite strict typed).mpr finite
      cases rendered.symm.trans h
  | error e' w =>
      have failed : writeTo catalog {} v settings = .error e' w := by
        rw [writeTo_eq]
        exact bind_of_error run
      rw [render, bytes, failed] at h
      cases h
      exact ⟨w, rfl⟩

/-- For a value of a type, rendering with strict settings fails if and only if one of the floats
within the value is not finite. The error is then about the first one in the order of writing, and
what it names are the JSON names on the way there. Whatever the settings, the sink, and the position
at which it begins, writing a value of a type fails for no reason but that the sink does or that the
writer is strict and a number is not finite: all its calls fit the grammar. -/
theorem render_refuses_first (strict : settings.lenient = false) (typed : HasType catalog t v) :
    ((∃ e, render catalog v settings = .error e) ↔ ∃ s ∈ v.scalars, s.isFinite = false) ∧
      (v.leaves catalog).map Prod.snd = v.scalars ∧
      (∀ e, render catalog v settings = .error e → ∃ names scalar x,
        (v.leaves catalog).find? (fun l => !l.2.isFinite) = some (names, scalar) ∧
          scalar.float? = some x ∧ e.rootCause = .writing (.nonFiniteNumber x) ∧
          e.properties = names ∧ e.propertyPath = dotted names) ∧
      (∀ sink settings e w, writeTo catalog sink v settings = .error e w →
        e.IsWriteFailure settings.lenient) ∧
      ∀ w e w', w.TakesValue → w.Sound → EmitM.value catalog v w = .error e w' →
        e.IsWriteFailure w.settings.lenient := by
  refine ⟨?_, Value.map_snd_leaves typed, ?_, ?_, ?_⟩
  · have rendered := render_iff_finite strict typed
    constructor
    · rintro ⟨e, failed⟩
      by_contra none
      have finite (s : Scalar) (hs : s ∈ v.scalars) : s.isFinite = true := by
        by_contra nonFinite
        exact none ⟨s, hs, by simpa using nonFinite⟩
      obtain ⟨text, success⟩ := rendered.mpr finite
      cases success.symm.trans failed
    · rintro ⟨s, hs, nonFinite⟩
      cases run : render catalog v settings with
      | ok text =>
          have finite := rendered.mp ⟨text, run⟩ s hs
          cases finite.symm.trans nonFinite
      | error e => exact ⟨e, rfl⟩
  · intro e failed
    obtain ⟨w, run⟩ := error_of_render strict typed failed
    have ran := ran_new typed {} settings
    rw [run] at ran
    cases ran with
    | broken unreliable => exact absurd Sink.reliable_new unreliable
    | @refused front back s x _ _ split admitted call nonFinite =>
        obtain ⟨scalar, first, float⟩ := Value.find?_leaves split admitted call nonFinite
        refine ⟨s.names, scalar, x, first, float, Step.rootCause_error _ _,
          Step.properties_error _ _, ?_⟩
        rw [BindError.propertyPath, Step.properties_error]
        rfl
  · intro sink settings e w failed
    exact isWriteFailure_of_writeTo typed failed
  · intro w e w' takes sound failed
    obtain ⟨rest, fits⟩ := takes.completes sound (v.tree catalog)
    have ran := EmitM.ran_value typed takes.isOpen sound fits
    rw [failed] at ran
    exact ran.isWriteFailure

/-- An infinite single and, behind it, a double that is no number, in a record in a list. -/
theorem render_refuses_first_floats :
    ∃ (v : Value Sample.Key) (e : BindError), v = .list [.record .containers
        [.list [], .list [.scalar (.single (.zero _)), .scalar (.single (.infinity _ true))],
          .list [], .scalar (.integer 7), .absent,
          .list [.absent, .present (.scalar (.double .nan))], .list []]] ∧
      render Sample.catalog v = .error e ∧
      e.rootCause = .writing (.nonFiniteNumber (.infinity _ true)) ∧
      e.propertyPath = some "floats" := by
  let v : Value Sample.Key := .list [.record .containers
    [.list [], .list [.scalar (.single (.zero _)), .scalar (.single (.infinity _ true))],
      .list [], .scalar (.integer 7), .absent,
      .list [.absent, .present (.scalar (.double .nan))], .list []]]
  have containers : (Sample.catalog .containers).IsDeclared := ⟨⟨_, _, rfl⟩, by decide, _, rfl⟩
  have floats : HasType Sample.catalog (.list (.scalar .single))
      (.list [.scalar (.single (.zero _)), .scalar (.single (.infinity _ true))]) :=
    .list (List.forall_mem_cons.mpr ⟨.scalar rfl, List.forall_mem_singleton.mpr (.scalar rfl)⟩)
  have doubles : HasType Sample.catalog (.list (.optional (.scalar .double)))
      (.list [.absent, .present (.scalar (.double .nan))]) :=
    .list (List.forall_mem_cons.mpr ⟨.absent,
      List.forall_mem_singleton.mpr (.present (.scalar rfl))⟩)
  have typed : HasType Sample.catalog (.list (.record .containers)) v := by
    refine .list (List.forall_mem_singleton.mpr ?_)
    apply HasType.record containers rfl rfl
    intro i f v hf hv
    match i with
    | 0 | 2 | 6 =>
        cases hf
        cases hv
        exact .list nofun
    | 1 =>
        cases hf
        cases hv
        exact floats
    | 3 =>
        cases hf
        cases hv
        exact .boxed (.scalar rfl)
    | 4 =>
        cases hf
        cases hv
        exact .absent
    | 5 =>
        cases hf
        cases hv
        exact doubles
    | i + 7 => cases hv
  obtain ⟨fails, -, first, -⟩ := render_refuses_first (rfl : ({} : WriterSettings).lenient = false) typed
  obtain ⟨e, failed⟩ := fails.mpr ⟨.single (.infinity _ true), by decide, by decide⟩
  obtain ⟨names, scalar, x, found, float, root, -, path⟩ := first e failed
  have leaf : (v.leaves Sample.catalog).find? (fun l => !l.2.isFinite) =
      some (["floats"], .single (.infinity _ true)) := by
    decide
  cases found.symm.trans leaf
  have widened : (Number.Binary.infinity .single true).convert .double =
      .infinity .double true := by
    decide +kernel
  cases float
  rw [widened] at root
  exact ⟨v, e, rfl, failed, root, path⟩

end Document

end TypedJson
