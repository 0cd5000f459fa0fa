import TypedJson.Document
import TypedJson.Proofs.Schema.Consumption
import TypedJson.Proofs.Schema.RoundTrip
import TypedJson.Proofs.Writer.Session

set_option autoImplicit false
set_option relaxedAutoImplicit false

namespace TypedJson

open Operation

variable {κ : Type} {catalog : Catalog κ} {t : FieldType κ} {v : Value κ}

/-- A record type that is declared by its fields, in the catalog under its own key, with initial
values of their types and without infinite floats and NaNs. -/
structure Catalog.Declares (catalog : Catalog κ) (k : κ) : Prop where
  isDeclared : (catalog k).IsDeclared
  key : (catalog k).key = k
  initial : ∀ f ∈ (catalog k).fields,
    HasType catalog f.type f.initial ∧ ∀ s ∈ f.initial.scalars, s.isFinite = true

namespace Scalar

/-- A finite double that has become infinite when it was narrowed. -/
def IsOverflow : Scalar → Prop
  | .single y => ∃ (x : Number.Double) (negative : Bool),
      x.isFinite = true ∧ x.convert _ = y ∧ y = .infinity _ negative
  | _ => False

theorem fromText_of_isFinite {s : Scalar} (h : s.isFinite = true) (lenient : Bool) :
    s.FromText lenient := by
  cases s with
  | single y =>
      have widened := Number.Binary.isFinite_convert Number.double_widens_single h
      have narrowed := Number.Binary.convert_convert Number.double_widens_single y
      exact ⟨y.convert _, .inl widened, narrowed.symm⟩
  | double x => exact .inl h
  | integer | boolean | text => exact trivial

theorem finite_or_isOverflow {s : Scalar} (h : s.FromText false) :
    s.isFinite = true ∨ s.IsOverflow := by
  cases s with
  | single y =>
      obtain ⟨x, finite | lenient, rfl⟩ := h
      · cases narrow : (x.convert Number.Format.single).isFinite with
        | true => exact .inl narrow
        | false =>
            obtain ⟨negative, infinite⟩ := Number.Binary.convert_eq_infinity finite narrow
            exact .inr ⟨x, negative, finite, rfl, infinite⟩
      · cases lenient
  | double x =>
      obtain finite | lenient := h
      · exact .inl finite
      · cases lenient
  | integer | boolean | text => exact .inl rfl

theorem not_isOverflow {s : Scalar} (h : s.isFinite = true) : ¬ s.IsOverflow := by
  cases s with
  | single y =>
      rintro ⟨x, negative, -, -, rfl⟩
      have below : Number.Format.single.infinity < Number.Format.single.infinity :=
        of_decide_eq_true h
      exact absurd below (Nat.lt_irrefl _)
  | double | integer | boolean | text => exact id

theorem isFinite_of_call {s : Scalar} (h : s.call.IsAdmissible false) : s.isFinite = true := by
  cases s with
  | single y =>
      obtain finite | lenient := h.1
      · exact Number.Binary.isFinite_of_convert finite
      · cases lenient
  | double x =>
      obtain finite | lenient := h.1
      · exact finite
      · cases lenient
  | integer | boolean | text => rfl

end Scalar

variable [DecidableEq κ]

/-! What has been read. -/

mutual

/-- What has been assembled by a type has the type, if the record types within are declared. -/
theorem Assembled.typed {t : FieldType κ} {v : Value κ} {lenient : Bool}
    (h : Assembled catalog lenient t v) (declared : ∀ k, t.Uses catalog k → catalog.Declares k) :
    HasType catalog t v ∧ ∀ s ∈ v.scalars, s.FromText lenient :=
  match h with
  | .scalar typed text => ⟨.scalar typed, by simpa [Value.scalars] using text⟩
  | .absent => ⟨.absent, fun _ hs => absurd hs List.not_mem_nil⟩
  | .present h => by
      obtain ⟨typed, text⟩ := Assembled.typed h fun k uses => declared k (uses.congr rfl)
      exact ⟨.present typed, text⟩
  | .boxed h => by
      obtain ⟨typed, text⟩ := Assembled.typed h fun k uses => declared k (uses.congr rfl)
      exact ⟨.boxed typed, text⟩
  | .list h => by
      have items v hv := Assembled.typed (h v hv) fun k uses => declared k (uses.congr rfl)
      refine ⟨.list fun v hv => (items v hv).1, fun s hs => ?_⟩
      obtain ⟨v, hv, hs⟩ := Value.exists_of_mem_scalarsOf hs
      exact (items v hv).2 s hs
  | @Assembled.record _ _ _ _ k fields h => by
      obtain ⟨isDeclared, key, initial⟩ := declared k (.own rfl)
      obtain ⟨length, typed⟩ :=
        Filled.typed h initial fun f hf l uses => declared l (uses.of_field hf)
      rw [key]
      refine ⟨.record isDeclared key length fun i f v hf hv => (typed i f v hf hv).1, ?_⟩
      intro s hs
      obtain ⟨v, hv, hs⟩ := Value.exists_of_mem_scalarsOf hs
      obtain ⟨i, below, rfl⟩ := List.getElem_of_mem hv
      have hf := List.getElem?_eq_getElem (l := (catalog k).fields) (length ▸ below)
      exact (typed i _ _ hf (List.getElem?_eq_getElem below)).2 s hs

theorem Filled.typed {s : Schema κ} {fields : List (Value κ)} {lenient : Bool}
    (h : Filled catalog lenient s fields)
    (initial : ∀ f ∈ s.fields,
      HasType catalog f.type f.initial ∧ ∀ s ∈ f.initial.scalars, s.isFinite = true)
    (declared : ∀ f ∈ s.fields, ∀ k, f.type.Uses catalog k → catalog.Declares k) :
    fields.length = s.fields.length ∧ ∀ (i : Nat) (f : Field κ) (v : Value κ),
      s.fields[i]? = some f → fields[i]? = some v →
        HasType catalog f.type v ∧ ∀ s ∈ v.scalars, s.FromText lenient :=
  match h with
  | .initial => by
      refine ⟨List.length_map _, fun i f v hf hv => ?_⟩
      rw [List.getElem?_map, hf] at hv
      cases hv
      obtain ⟨typed, finite⟩ := initial f (List.mem_of_getElem? hf)
      exact ⟨typed, fun s hs => Scalar.fromText_of_isFinite (finite s hs) lenient⟩
  | @Filled.set _ _ _ _ _ p slot fields v filled found assembled => by
      obtain ⟨length, typed⟩ := Filled.typed filled initial declared
      obtain ⟨g, hg, same⟩ := Schema.field_of_readSlot found
      have replaced := Assembled.typed assembled fun k uses =>
        declared g (List.mem_of_getElem? hg) k (same ▸ uses)
      refine ⟨(List.length_set).trans length, fun i f w hf hw => ?_⟩
      by_cases here : slot.position = i
      · subst here
        have below : slot.position < fields.length := by
          rw [length]
          exact (List.getElem?_eq_some_iff.mp hg).1
        rw [List.getElem?_set_self below] at hw
        cases hw
        cases hg.symm.trans hf
        rw [same]
        exact replaced
      · rw [List.getElem?_set_ne here] at hw
        exact typed i f w hf hw

end

/-! What can be written. -/

namespace EmitM

variable {α β : Type}

/-- A strict writer is left strict, and the operation succeeds only if the condition holds. -/
def Requires (x : EmitM α) (P : Prop) : Prop :=
  Ensures (fun w : Writer => w.settings.lenient = false) x fun _ w =>
    w.settings.lenient = false ∧ P

theorem requires_pure (a : α) : Requires (pure a : EmitM α) True :=
  Ensures.pure fun _ strict => ⟨strict, trivial⟩

theorem requires_then {P Q : Prop} {x : EmitM α} {y : EmitM β} (hx : Requires x P)
    (hy : Requires y Q) : Requires (x >>= fun _ => y) (P ∧ Q) := by
  intro w b w' strict h
  obtain ⟨a, w₁, first, rest⟩ := bind_eq_ok.mp h
  obtain ⟨still, hP⟩ := hx w a w₁ strict first
  obtain ⟨last, hQ⟩ := hy w₁ b w' still rest
  exact ⟨last, hP, hQ⟩

theorem Requires.imp {P Q : Prop} {x : EmitM α} (hx : Requires x P) (h : P → Q) : Requires x Q :=
  hx.weaken (fun _ strict => strict) fun _ _ outcome => ⟨outcome.1, h outcome.2⟩

theorem requires_call (c : Writer.Call) : Requires (write c.run) (c.IsAdmissible false) := by
  intro w a w' strict h
  have run := run_of_write h
  have outcome := Writer.Request.outcome_call w c
  rw [run] at outcome
  cases outcome with
  | done placed admissible _ =>
      have settings := (c.puts_run placed admissible).akin.settings
      refine ⟨?_, strict ▸ admissible⟩
      exact (congrArg WriterSettings.lenient settings).trans strict

theorem requires_within {P : Prop} {x : EmitM α} (hx : Requires x P) (context : Option String)
    (name : String) : Requires (within context name x) P := by
  intro w a w' strict h
  unfold within at h
  split at h
  · cases h
  · exact hx w a w' strict h

theorem requires_forM {ι : Type} {ps : List ι} {body : ι → EmitM Unit} {P : Nat → Prop}
    (h : ∀ (i : Nat) (p : ι), ps[i]? = some p → Requires (body p) (P i)) :
    Requires (ps.forM body) (∀ i < ps.length, P i) := by
  induction ps generalizing P with
  | nil => exact (requires_pure ()).imp fun _ i below => absurd below (Nat.not_lt_zero i)
  | cons p ps ih =>
      have first := h 0 p rfl
      have rest := ih fun i p hp => h (i + 1) p hp
      refine (requires_then first rest).imp ?_
      rintro ⟨head, tail⟩ i below
      cases i with
      | zero => exact head
      | succ i => exact tail i (Nat.lt_of_succ_lt_succ below)

end EmitM

theorem Schema.requires_record {s : Schema κ} {d : Descriptor κ} (dispatches : s.Dispatches d)
    (described : s.descriptor = .ok d) (fields : List (Value κ)) {writers : List (EmitM Unit)}
    {P : Nat → Prop}
    (hw : ∀ i < s.fields.length, ∃ x, writers[i]? = some x ∧ EmitM.Requires x (P i)) :
    EmitM.Requires (s.writeBy fields writers) (∀ i < s.fields.length, P i) := by
  have member (i : Nat) (p : Property κ) (hp : d.allProperties[i]? = some p) :
      EmitM.Requires (do let _ ← s.writePropertyBy fields writers p : EmitM Unit) (P i) := by
    have below : i < s.fields.length := by
      rw [← dispatches.length_eq]
      exact (List.getElem?_eq_some_iff.mp hp).1
    obtain ⟨-, -, context, -, action⟩ :=
      dispatches.entry (List.getElem?_eq_getElem below) hp
    obtain ⟨x, hx, requires⟩ := hw i below
    have property : s.writePropertyBy fields writers p = (do
        EmitM.write (Writer.Call.name p.jsonName).run
        EmitM.within context p.jsonName x
        pure true) := by
      simp only [writePropertyBy, action fields, hx, Writer.Call.run]
    have value := EmitM.requires_within requires context p.jsonName
    have done := EmitM.requires_then value (EmitM.requires_pure true)
    have written := EmitM.requires_then (EmitM.requires_call (.name p.jsonName)) done
    rw [← property] at written
    exact (EmitM.requires_then written (EmitM.requires_pure ())).imp fun h => h.1.2.1
  have body := EmitM.requires_forM member
  rw [dispatches.length_eq, Descriptor.allProperties, ← writeLevelsBy_eq fields writers] at body
  have closed := EmitM.requires_then body (EmitM.requires_call .endObject)
  have whole := EmitM.requires_then (EmitM.requires_call .beginObject) closed
  have resolved : (EmitM.resolve s : EmitM (Descriptor κ)) = pure d := by
    rw [EmitM.resolve, described]
  rw [writeBy, resolved]
  exact whole.imp fun h => h.2.1

namespace EmitM

/-- A strict writer writes finite numbers only. -/
theorem requires_value (typed : HasType catalog t v) :
    Requires (value catalog v) (∀ s ∈ v.scalars, s.isFinite = true) := by
  induction typed with
  | @scalar t s _ =>
      rw [value, ← Scalar.call_run]
      refine (requires_call s.call).imp fun admissible => ?_
      simpa [Value.scalars] using Scalar.isFinite_of_call admissible
  | absent =>
      rw [value]
      exact (requires_call .null).imp fun _ _ hs => absurd hs List.not_mem_nil
  | present _ ih =>
      rw [value]
      exact ih
  | boxed _ ih => exact ih
  | @list t vs _ ih =>
      have item (i : Nat) (v : Value κ) (hv : vs[i]? = some v) : Requires (value catalog v)
          (∀ w, vs[i]? = some w → ∀ s ∈ w.scalars, s.isFinite = true) := by
        refine (ih v (List.mem_of_getElem? hv)).imp fun finite w hw => ?_
        cases hv.symm.trans hw
        exact finite
      have body := requires_forM item
      have closed := requires_then body (requires_call .endArray)
      have whole := requires_then (requires_call .beginArray) closed
      rw [value, items_eq]
      refine whole.imp ?_
      rintro ⟨-, finite, -⟩ s hs
      obtain ⟨v, hv, hs⟩ := Value.exists_of_mem_scalarsOf hs
      obtain ⟨i, below, rfl⟩ := List.getElem_of_mem hv
      exact finite i below _ (List.getElem?_eq_getElem below) s hs
  | @record k fields declared _ length _ ih =>
      obtain ⟨d, described, dispatches⟩ := declared.dispatches
      rw [value, writers_eq]
      have field (i : Nat) (below : i < (catalog k).fields.length) :
          ∃ x, (fields.map (value catalog))[i]? = some x ∧ Requires x
            (∀ w, fields[i]? = some w → ∀ s ∈ w.scalars, s.isFinite = true) := by
        have hf := List.getElem?_eq_getElem below
        have hv := List.getElem?_eq_getElem (length.symm ▸ below : i < fields.length)
        refine ⟨value catalog fields[i], by rw [List.getElem?_map, hv]; rfl, ?_⟩
        refine (ih i _ _ hf hv).imp fun finite w hw => ?_
        cases hv.symm.trans hw
        exact finite
      have whole := Schema.requires_record dispatches described fields field
      refine whole.imp fun finite s hs => ?_
      obtain ⟨v, hv, hs⟩ := Value.exists_of_mem_scalarsOf hs
      obtain ⟨i, below, rfl⟩ := List.getElem_of_mem hv
      exact finite i (length ▸ below) _ (List.getElem?_eq_getElem below) s hs

end EmitM

namespace Document

variable {settings : WriterSettings} {readerSettings : ReaderSettings} {source : Source}

theorem document_of_render {text : String} (h : render catalog v settings = .ok text) :
    ∃ w, EmitM.document catalog v (Writer.new {} settings) = .ok () w := by
  unfold render at h
  cases written : bytes catalog v settings with
  | error e =>
      rw [written] at h
      cases h
  | ok out =>
      unfold bytes at written
      split at written
      · rename_i run
        obtain ⟨_, w, document, -⟩ := bind_eq_ok.mp run
        exact ⟨w, document⟩
      · cases written

theorem render_of_document {w : Writer} {out : List UInt8}
    (h : EmitM.document catalog v (Writer.new {} settings) = .ok () w) (holds : w.outlet.Holds out) :
    ∃ text, render catalog v settings = .ok text := by
  obtain ⟨_, o, flushed, -⟩ := Outlet.attains_flush w.outlet holds
  have release : EmitM.write WriteM.release w = .ok () { w with outlet := o } := by
    simp only [EmitM.write, WriteM.release, WriteM.output, flushed]
  have run : writeTo catalog {} v settings = .ok () { w with outlet := o } :=
    (bind_of_ok h).trans release
  refine ⟨Utf8.decode o.sink.received, ?_⟩
  rw [render, bytes, run]
  rfl

/-- A value of a type can be written by a strict writer if and only if its floats are finite. -/
theorem render_iff_finite (strict : settings.lenient = false) (typed : HasType catalog t v) :
    (∃ text, render catalog v settings = .ok text) ↔ ∀ s ∈ v.scalars, s.isFinite = true := by
  constructor
  · rintro ⟨text, rendered⟩
    obtain ⟨w, document⟩ := document_of_render rendered
    obtain ⟨_, w₁, run, -⟩ := bind_eq_ok.mp document
    exact (EmitM.requires_value typed _ _ w₁ strict run).2
  · intro finite
    have nowhere : false = true → settings.lenient = true := fun h => Bool.noConfusion h
    obtain ⟨cs, -, run⟩ := EmitM.document_text nowhere typed fun s hs => .inl (finite s hs)
    obtain ⟨w, document, -, holds⟩ := run {} Sink.reliable_new
    exact render_of_document document holds

theorem typed_of_parse (declared : ∀ k, t.Uses catalog k → catalog.Declares k)
    (strict : readerSettings.lenient = false)
    (parsed : parse catalog t source readerSettings = .ok v) :
    HasType catalog t v ∧ ∀ s ∈ v.scalars, s.FromText false := by
  obtain ⟨r, -, read, -⟩ := parse_eq_ok parsed
  obtain ⟨-, assembled⟩ := BindM.field_eq_ok read
  have settings : (Reader.new source readerSettings).settings.lenient = false := strict
  rw [settings] at assembled
  exact assembled.typed declared

/-- What a strict reader reads by a type is a value of the type. Its doubles are finite, and so are
its singles but for those that have overflowed when they were narrowed. A strict writer writes it,
unless there is such a single. -/
theorem render_of_parse (declared : ∀ k, t.Uses catalog k → catalog.Declares k)
    (reading : readerSettings.lenient = false) (writing : settings.lenient = false)
    (parsed : parse catalog t source readerSettings = .ok v) :
    HasType catalog t v ∧ (∀ s ∈ v.scalars, s.isFinite = true ∨ s.IsOverflow) ∧
      ((∃ text, render catalog v settings = .ok text) ↔ ∀ s ∈ v.scalars, ¬ s.IsOverflow) := by
  obtain ⟨typed, text⟩ := typed_of_parse declared reading parsed
  have scalars (s : Scalar) (hs : s ∈ v.scalars) : s.isFinite = true ∨ s.IsOverflow :=
    Scalar.finite_or_isOverflow (text s hs)
  refine ⟨typed, scalars, (render_iff_finite writing typed).trans ⟨?_, ?_⟩⟩
  · exact fun finite s hs => Scalar.not_isOverflow (finite s hs)
  · exact fun none s hs => (scalars s hs).resolve_right (none s hs)

/-- A record with another one in it, and with the greatest single. -/
theorem render_of_parse_containers :
    ∃ v, parse Sample.catalog (.record .containers) (Source.ofBytes (Utf8.encode
        "\x7b\"floats\":[3.4028235e38],\"docs\":[null,\x7b\"id\":1\x7d]\x7d".toList)) = .ok v ∧
      ∃ text, render Sample.catalog v = .ok text := by
  have containers : Sample.catalog.Declares .containers := by
    refine ⟨⟨⟨_, _, rfl⟩, by decide, _, rfl⟩, rfl, ?_⟩
    refine List.forall_mem_cons.mpr ⟨⟨.list nofun, nofun⟩, ?_⟩
    refine List.forall_mem_cons.mpr ⟨⟨.list nofun, nofun⟩, ?_⟩
    refine List.forall_mem_cons.mpr ⟨⟨.list nofun, nofun⟩, ?_⟩
    refine List.forall_mem_cons.mpr ⟨⟨.boxed (.scalar rfl), by decide⟩, ?_⟩
    refine List.forall_mem_cons.mpr ⟨⟨.present (.list ?_), by decide⟩, ?_⟩
    · exact List.forall_mem_singleton.mpr (.scalar rfl)
    refine List.forall_mem_cons.mpr ⟨⟨.list nofun, nofun⟩, ?_⟩
    exact List.forall_mem_singleton.mpr ⟨.list nofun, nofun⟩
  have document : Sample.catalog.Declares .document := by
    refine ⟨⟨⟨_, _, rfl⟩, by decide, _, rfl⟩, rfl, ?_⟩
    refine List.forall_mem_cons.mpr ⟨⟨.scalar rfl, by decide⟩, ?_⟩
    refine List.forall_mem_cons.mpr ⟨⟨.absent, nofun⟩, ?_⟩
    exact List.forall_mem_singleton.mpr ⟨.scalar rfl, by decide⟩
  have declared (k : Sample.Key) (uses : (FieldType.record .containers).Uses Sample.catalog k) :
      Sample.catalog.Declares k := by
    have among := uses.mem_of_closed [.containers, .document] (by decide) (by decide)
    rcases List.mem_cons.mp among with rfl | last
    · exact containers
    · exact List.mem_singleton.mp last ▸ document
  have answer : (parse Sample.catalog (.record .containers) (Source.ofBytes (Utf8.encode
      "\x7b\"floats\":[3.4028235e38],\"docs\":[null,\x7b\"id\":1\x7d]\x7d".toList))).toOption.map
        Value.scalars = some [.single (.signed false ⟨0x7F7FFFFF, by decide⟩), .integer 7,
          .boolean true, .integer 1, .text ""] := by
    decide +kernel
  obtain ⟨v, parsed, scalars⟩ := Option.map_eq_some_iff.mp answer
  have parsed := ok_of_toOption parsed
  have strict : ({} : WriterSettings).lenient = false := rfl
  obtain ⟨-, -, rendered⟩ := render_of_parse declared rfl strict parsed
  refine ⟨v, parsed, rendered.mpr fun s hs => Scalar.not_isOverflow ?_⟩
  rw [scalars] at hs
  revert s
  decide

/-- A double within range of its own type, but not of the one that it is narrowed to. -/
theorem not_render_of_parse :
    ¬ ∀ (t : FieldType Sample.Key) (source : Source) (v : Value Sample.Key),
      (∀ k, t.Uses Sample.catalog k → Sample.catalog.Declares k) →
        parse Sample.catalog t source = .ok v → ∃ text, render Sample.catalog v = .ok text := by
  intro claim
  have declared (k : Sample.Key) (uses : (FieldType.scalar .single).Uses Sample.catalog k) :
      Sample.catalog.Declares k :=
    absurd (uses.mem_of_closed [] nofun (by decide)) List.not_mem_nil
  have answer : (parse Sample.catalog (.scalar .single)
      (Source.ofBytes (Utf8.encode "1e300".toList))).toOption.map Value.scalars =
        some [.single (.infinity _ false)] := by
    decide +kernel
  obtain ⟨v, parsed, scalars⟩ := Option.map_eq_some_iff.mp answer
  have parsed := ok_of_toOption parsed
  obtain ⟨typed, -⟩ := typed_of_parse declared rfl parsed
  have finite := (render_iff_finite rfl typed).mp (claim _ _ v declared parsed)
  rw [scalars] at finite
  exact absurd (finite _ (List.mem_singleton.mpr rfl)) (by decide)

end Document

end TypedJson
