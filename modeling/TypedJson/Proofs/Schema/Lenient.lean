import TypedJson.Document
import TypedJson.Proofs.Reader.Lenient
import TypedJson.Proofs.Schema.Consumption
import TypedJson.Sample.Catalog

set_option autoImplicit false
set_option relaxedAutoImplicit false

namespace TypedJson

open Operation

variable {α β κ : Type}

namespace BindM

/-- What succeeds on a strict reader succeeds on the lenient one, to the same effect. -/
abbrev Tolerant (x : BindM α) : Prop :=
  Carries Reader.IsStrict Reader.relaxed x x

theorem tolerant_read {x : ReadM α} (h : ReadM.Tolerant x) : Tolerant (read x) := by
  intro r a r' strict run safe
  obtain ⟨strict', relaxed⟩ := h r a r' strict (read_eq_ok run) safe
  exact ⟨strict', by simp only [read, relaxed]⟩

theorem tolerant_within {x : BindM α} (h : Tolerant x) (context : Option String) (name : String) :
    Tolerant (within context name x) := by
  intro r a r' strict run safe
  obtain ⟨strict', relaxed⟩ := h r a r' strict (within_eq_ok run) safe
  refine ⟨strict', ?_⟩
  cases context <;> simp only [within, relaxed]

theorem tolerant_resolve (s : Schema κ) : Tolerant (resolve s) := by
  unfold resolve
  split
  · exact Carries.pure _
  · exact Carries.throw

theorem tolerant_bounded {x : Nat → BindM α} (h : ∀ fuel, Tolerant (x fuel)) :
    Tolerant (bounded x) :=
  Carries.of_agree fun r _ => ⟨_, _, h (r.unitsLeft + 1), rfl, rfl⟩

end BindM

namespace FillM

abbrev Tolerant (x : FillM β α) : Prop :=
  Carries (fun s => s.1.IsStrict) (fun s => (s.1.relaxed, s.2)) x x

theorem tolerant_typed {x : BindM α} (h : BindM.Tolerant x) : Tolerant (typed x : FillM β α) := by
  rintro ⟨r, b⟩ a ⟨r', b'⟩ strict run safe
  obtain ⟨answered, rfl⟩ := typed_eq_ok run
  obtain ⟨strict', relaxed⟩ := h r a r' strict answered safe
  exact ⟨strict', by simp only [typed, relaxed]⟩

theorem tolerant_read {x : ReadM α} (h : ReadM.Tolerant x) : Tolerant (read x : FillM β α) :=
  tolerant_typed (BindM.tolerant_read h)

theorem tolerant_update (f : β → β) : Tolerant (update f) :=
  Carries.modify (fun _ strict => strict) fun _ => rfl

theorem tolerant_bounded {x : Nat → FillM β α} (h : ∀ fuel, Tolerant (x fuel)) :
    Tolerant (bounded x) :=
  Carries.of_agree fun s _ => ⟨_, _, h (s.1.unitsLeft + 1), rfl, rfl⟩

theorem tolerant_each {body : FillM β Unit} (h : Tolerant body) (fuel : Nat) :
    Tolerant (each body fuel) := by
  induction fuel with
  | zero => exact Carries.pure ()
  | succ fuel ih =>
      refine (tolerant_read ReadM.tolerant_hasNext).bind fun more => ?_
      cases more with
      | true => exact h.bind fun _ => ih
      | false => exact Carries.pure ()

theorem tolerant_items {item : BindM α} (h : BindM.Tolerant item) (fuel : Nat) :
    Tolerant (items fuel item) := by
  have push : Tolerant (push item) := (tolerant_typed h).bind fun v => tolerant_update _
  exact (tolerant_read ReadM.tolerant_beginArray).bind fun _ =>
    (tolerant_each push fuel).bind fun _ => tolerant_read ReadM.tolerant_endArray

end FillM

namespace BindM

theorem tolerant_collecting {start : β} {x : FillM β Unit} (h : FillM.Tolerant x) :
    Tolerant (collecting start x) := by
  intro r b r' strict run safe
  obtain ⟨strict', relaxed⟩ := h (r, start) () (r', b) strict (collecting_eq_ok run) id
  exact ⟨strict', by simp only [collecting, relaxed]⟩

theorem tolerant_itemsAfter {item : BindM α} (h : Tolerant item) (fuel : Nat) (initial : List α) :
    Tolerant (itemsAfter fuel initial item) :=
  (tolerant_collecting (FillM.tolerant_items h fuel)).bind fun _ => Carries.pure _

end BindM

variable [DecidableEq κ]

namespace Schema

variable {readField : FieldType κ → BindM (Value κ)} (h : ∀ t, BindM.Tolerant (readField t))
include h

theorem tolerant_fillPropertyBy (s : Schema κ) (p : Property κ) :
    FillM.Tolerant (fillPropertyBy readField s p) := by
  unfold fillPropertyBy
  split
  · exact Carries.pure _
  · rename_i slot _
    exact (FillM.tolerant_typed (BindM.tolerant_within (h slot.type) _ _)).bind fun _ =>
      (FillM.tolerant_update _).bind fun _ => Carries.pure _

theorem tolerant_fillMemberBy (fuel : Nat) (s : Schema κ) (d : Descriptor κ) :
    FillM.Tolerant (fillMemberBy fuel readField s d) := by
  refine (FillM.tolerant_read ReadM.tolerant_nextName).bind fun name => ?_
  have rest (handled : Bool) : FillM.Tolerant
      (do if !handled then FillM.read (ReadM.skipWithin fuel 0) :
        FillM (List (Value κ)) Unit) := by
    cases handled with
    | true => exact Carries.pure ()
    | false => exact FillM.tolerant_read (ReadM.tolerant_skipWithin fuel 0)
  cases d.find name with
  | some p => exact (tolerant_fillPropertyBy h s p).bind rest
  | none => exact Carries.bind (Carries.pure false) rest

theorem tolerant_fillBy (fuel : Nat) (s : Schema κ) :
    FillM.Tolerant (fillBy fuel readField s) := by
  refine (FillM.tolerant_typed (BindM.tolerant_resolve s)).bind fun d => ?_
  exact (FillM.tolerant_read ReadM.tolerant_beginObject).bind fun _ =>
    (FillM.tolerant_each (tolerant_fillMemberBy h fuel s d) fuel).bind fun _ =>
      FillM.tolerant_read ReadM.tolerant_endObject

theorem tolerant_readBy (fuel : Nat) (s : Schema κ) :
    BindM.Tolerant (readBy fuel readField s) :=
  (BindM.tolerant_collecting (tolerant_fillBy h fuel s)).bind fun _ => Carries.pure _

end Schema

namespace BindM

omit [DecidableEq κ] in
theorem tolerant_fieldBy {readRecord : κ → BindM (Value κ)} (h : ∀ k, Tolerant (readRecord k))
    (fuel : Nat) (t : FieldType κ) : Tolerant (fieldBy fuel readRecord t) := by
  induction t with
  | scalar t => exact (tolerant_read (ReadM.tolerant_nextScalar t)).bind fun _ => Carries.pure _
  | optional t ih =>
      refine (tolerant_read ReadM.tolerant_peek).bind fun next => ?_
      split
      · exact (tolerant_read ReadM.tolerant_nextNull).bind fun _ => Carries.pure _
      · exact ih.bind fun _ => Carries.pure _
  | boxed t ih => exact ih
  | list t ih => exact (tolerant_itemsAfter ih fuel []).bind fun _ => Carries.pure _
  | record k => exact h k

theorem tolerant_recordWithin (catalog : Catalog κ) (fuel depth : Nat) (k : κ) :
    Tolerant (recordWithin catalog fuel depth k) := by
  induction depth generalizing k with
  | zero => exact Carries.pure _
  | succ depth ih => exact Schema.tolerant_readBy (tolerant_fieldBy ih fuel) fuel (catalog k)

theorem tolerant_fieldWithin (catalog : Catalog κ) (fuel : Nat) (t : FieldType κ) :
    Tolerant (fieldWithin catalog fuel t) :=
  tolerant_fieldBy (tolerant_recordWithin catalog fuel fuel) fuel t

theorem tolerant_field (catalog : Catalog κ) (t : FieldType κ) : Tolerant (field catalog t) :=
  tolerant_bounded fun fuel => tolerant_fieldWithin catalog fuel t

theorem tolerant_collection (catalog : Catalog κ) (t : FieldType κ) (initial : List (Value κ)) :
    Tolerant (collection catalog t initial) :=
  tolerant_bounded fun fuel =>
    tolerant_itemsAfter (tolerant_fieldWithin catalog fuel t) fuel initial

theorem tolerant_document (catalog : Catalog κ) (t : FieldType κ) :
    Tolerant (document catalog t) :=
  (tolerant_field catalog t).bind fun _ =>
    (tolerant_read ReadM.tolerant_finish).bind fun _ => Carries.pure _

end BindM

theorem Schema.tolerant_fill (catalog : Catalog κ) (s : Schema κ) :
    FillM.Tolerant (s.fill catalog) :=
  FillM.tolerant_bounded fun fuel =>
    Schema.tolerant_fillBy (BindM.tolerant_fieldWithin catalog fuel) fuel s

/-- What is asked of a reader: a call, a value of a type, values of a type behind others, or an
object to be read into the fields of a record. -/
inductive Reader.Request (κ : Type) where
  | call (c : Call)
  | field (t : FieldType κ)
  | collection (t : FieldType κ) (initial : List (Value κ))
  | fill (s : Schema κ) (fields : List (Value κ))

inductive Reader.Reply (κ : Type) where
  | answer (a : Answer)
  | value (v : Value κ)
  | values (vs : List (Value κ))

namespace Reader

variable (catalog : Catalog κ)

namespace Request

def run : Request κ → BindM (Reply κ)
  | call c => do pure (.answer (← BindM.read c.run))
  | field t => do pure (.value (← BindM.field catalog t))
  | collection t initial => do pure (.values (← BindM.collection catalog t initial))
  | fill s fields => do pure (.values (← BindM.collecting fields (s.fill catalog)))

/-- The request neither asks for leniency nor switches it. -/
def IgnoresLeniency : Request κ → Prop
  | call c => c.IgnoresLeniency
  | _ => True

theorem tolerant_run {q : Request κ} (h : q.IgnoresLeniency) :
    BindM.Tolerant (q.run catalog) := by
  cases q with
  | call c => exact (BindM.tolerant_read (Call.tolerant_run h)).bind fun _ => Carries.pure _
  | field t => exact (BindM.tolerant_field catalog t).bind fun _ => Carries.pure _
  | collection t initial =>
      exact (BindM.tolerant_collection catalog t initial).bind fun _ => Carries.pure _
  | fill s fields =>
      exact (BindM.tolerant_collecting (s.tolerant_fill catalog)).bind fun _ => Carries.pure _

end Request

/-- What comes of some requests, one after the other: the result of each, and the position behind
it. -/
def serve : Reader → List (Request κ) → List (Except BindError (Reply κ) × Location)
  | _, [] => []
  | r, q :: requests =>
      match q.run catalog r with
      | .ok a r' => (.ok a, r'.location) :: r'.serve requests
      | .error e r' => (.error e, r'.location) :: r'.serve requests

theorem serve_relaxed {r : Reader} {requests : List (Request κ)} (strict : r.IsStrict)
    (ignoring : ∀ q ∈ requests, q.IgnoresLeniency)
    (succeed : ∀ seen ∈ r.serve catalog requests, seen.1.isOk = true) :
    r.relaxed.serve catalog requests = r.serve catalog requests := by
  induction requests generalizing r with
  | nil => rfl
  | cons q requests ih =>
      obtain ⟨first, rest⟩ := List.forall_mem_cons.mp ignoring
      unfold serve at succeed ⊢
      cases run : q.run catalog r with
      | ok a r' =>
          rw [run] at succeed
          obtain ⟨strict', relaxed⟩ := Request.tolerant_run catalog first r a r' strict run id
          rw [relaxed]
          dsimp only
          rw [ih strict' rest (List.forall_mem_cons.mp succeed).2]
          rfl
      | error e r' =>
          rw [run] at succeed
          cases (List.forall_mem_cons.mp succeed).1

end Reader

namespace Document

theorem parse_leniently {catalog : Catalog κ} {t : FieldType κ} {source : Source}
    {settings : ReaderSettings} {v : Value κ} (strict : settings.lenient = false)
    (h : parse catalog t source settings = .ok v) :
    parse catalog t source { settings with lenient := true } = .ok v := by
  unfold parse at h ⊢
  cases run : BindM.document catalog t (Reader.new source settings) with
  | ok a r' =>
      rw [run] at h
      obtain ⟨-, relaxed⟩ :=
        BindM.tolerant_document catalog t (Reader.new source settings) a r' strict run id
      have lenient :
          BindM.document catalog t (Reader.new source { settings with lenient := true }) =
            .ok a r'.relaxed := relaxed
      rw [lenient]
      exact h
  | error e r' =>
      rw [run] at h
      cases h

/-- Leniency only ever adds to what is understood: if all requests of a session that leaves leniency
alone succeed on a strict reader, they have the same results on a lenient one, and each leaves it at
the same position. Hence the plain loop hands out the same, and a document that is accepted strictly
is accepted leniently, as the same value. -/
theorem understood_leniently (catalog : Catalog κ) (source : Source) {settings : ReaderSettings}
    (strict : settings.lenient = false) :
    (∀ requests : List (Reader.Request κ), (∀ q ∈ requests, q.IgnoresLeniency) →
      (∀ seen ∈ (Reader.new source settings).serve catalog requests, seen.1.isOk = true) →
        (Reader.new source { settings with lenient := true }).serve catalog requests =
          (Reader.new source settings).serve catalog requests) ∧
      (∀ evs : List Event, (Reader.new source settings).events.1 = (evs, none) →
        (Reader.new source { settings with lenient := true }).events.1 = (evs, none)) ∧
      ∀ (t : FieldType κ) (v : Value κ), parse catalog t source settings = .ok v →
        parse catalog t source { settings with lenient := true } = .ok v :=
  ⟨fun _ => Reader.serve_relaxed (r := .new source settings) catalog strict,
    fun _ => Reader.events_relaxed (r := .new source settings) strict,
    fun _ _ => parse_leniently strict⟩

/-- An array of one record, in two deliveries, with blanks behind it. -/
theorem understood_leniently_document :
    ∃ source requests evs v,
      source = ⟨[.data 0x5B [0x7B, 0x22, 0x69, 0x64], .interrupted,
        .data 0x22 [0x3A, 0x2D, 0x30, 0x7D, 0x20, 0x5D, 0x0A]], .endOfData⟩ ∧
      requests = [.call .beginArray, .field (.record .document), .call .path, .call .endArray,
        .call .finish] ∧
      evs = [.beginArray, .beginObject, .name "id", .number "-0", .endObject, .endArray] ∧
      (Reader.new source { lenient := true }).serve Sample.catalog requests =
        (Reader.new source).serve Sample.catalog requests ∧
      (Reader.new source { lenient := true }).events.1 = (evs, none) ∧
      parse Sample.catalog (.list (.record .document)) source { lenient := true } = .ok v ∧
      v.scalars = [.integer 0, .text ""] := by
  let source : Source := ⟨[.data 0x5B [0x7B, 0x22, 0x69, 0x64], .interrupted,
    .data 0x22 [0x3A, 0x2D, 0x30, 0x7D, 0x20, 0x5D, 0x0A]], .endOfData⟩
  have ignoring : ∀ q ∈ ([.call .beginArray, .field (.record .document), .call .path,
      .call .endArray, .call .finish] : List (Reader.Request Sample.Key)), q.IgnoresLeniency := by
    simp [Reader.Request.IgnoresLeniency, Call.IgnoresLeniency]
  have succeed : ∀ seen ∈ (Reader.new source).serve Sample.catalog [.call .beginArray,
      .field (.record .document), .call .path, .call .endArray, .call .finish],
      seen.1.isOk = true := by
    decide +kernel
  have events : (Reader.new source).events.1 =
      ([.beginArray, .beginObject, .name "id", .number "-0", .endObject, .endArray], none) := by
    decide +kernel
  have answer : (parse Sample.catalog (.list (.record .document)) source).toOption.map
      Value.scalars = some [.integer 0, .text ""] := by
    decide +kernel
  obtain ⟨v, parsed, scalars⟩ := Option.map_eq_some_iff.mp answer
  have strict : ({} : ReaderSettings).lenient = false := rfl
  obtain ⟨session, loop, document⟩ := understood_leniently Sample.catalog source strict
  exact ⟨source, _, _, v, rfl, rfl, rfl, session _ ignoring succeed, loop _ events,
    document _ v (ok_of_toOption parsed), scalars⟩

end Document

end TypedJson
