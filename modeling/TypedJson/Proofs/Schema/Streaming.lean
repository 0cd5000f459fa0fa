import TypedJson.Proofs.Output.Attempts
import TypedJson.Proofs.Schema.Finite
import TypedJson.Proofs.Writer.Emission

set_option autoImplicit false
set_option relaxedAutoImplicit false

namespace TypedJson

open Operation
open Utf8 (encode)

namespace EmitM

variable {α β : Type} {w w' : Writer}

/-- From the state `w`, over whatever outlet, the operation does with the outlet what putting the
characters does. If that succeeds it answers `a` and leaves the state `w'`, and otherwise it fails,
at the root for the same reason. The outlets of the two states are immaterial. -/
structure Renders (x : EmitM α) (w : Writer) (cs : List Char) (a : α) (w' : Writer) : Prop where
  akin : w.Akin w'
  done : ∀ {o o' : Outlet}, Outlet.put (encode cs) o = .ok () o' →
    x { w with outlet := o } = .ok a { w' with outlet := o' }
  failed : ∀ {o o' : Outlet} {fault : DataFault}, Outlet.put (encode cs) o = .error fault o' →
    ∃ (e : BindError) (v : Writer), e.rootCause = .writing (.unavailable fault) ∧
      x { w with outlet := o } = .error e { v with outlet := o' }

def Streams (x : EmitM α) : Prop :=
  ∀ w a w', x w = .ok a w' → ∃ cs, Renders x w cs a w'

theorem streams_pure (a : α) : Streams (pure a : EmitM α) := by
  rintro w _ _ ⟨⟩
  refine ⟨[], .refl, fun put => ?_, fun put => ?_⟩
  · cases put
    rfl
  · cases put

theorem streams_throw (e : BindError) : Streams (throw e : EmitM α) := by
  rintro w _ _ ⟨⟩

theorem streams_bind {x : EmitM α} {f : α → EmitM β} (hx : Streams x) (hf : ∀ a, Streams (f a)) :
    Streams (x >>= f) := by
  intro w b w'' h
  obtain ⟨a, w', first, rest⟩ := bind_eq_ok.mp h
  obtain ⟨cs, first⟩ := hx w a w' first
  obtain ⟨ds, rest⟩ := hf a w' b w'' rest
  have parts : Outlet.put (encode (cs ++ ds)) =
      (do Outlet.put (encode cs); Outlet.put (encode ds)) := by
    rw [Utf8.encode_append, Outlet.put_append]
  refine ⟨cs ++ ds, first.akin.trans rest.akin, fun put => ?_, fun put => ?_⟩
  · rw [parts] at put
    obtain ⟨_, t, put, put'⟩ := bind_eq_ok.mp put
    exact (bind_of_ok (first.done put)).trans (rest.done put')
  · rw [parts] at put
    rcases bind_eq_error.mp put with put | ⟨_, t, put, put'⟩
    · obtain ⟨e, v, root, failed⟩ := first.failed put
      exact ⟨e, v, root, bind_of_error failed⟩
    · obtain ⟨e, v, root, failed⟩ := rest.failed put'
      exact ⟨e, v, root, (bind_of_ok (first.done put)).trans failed⟩

theorem streams_call (c : Writer.Call) : Streams (write c.run) := by
  intro w _ w' h
  have outcome := Writer.Request.outcome_call w c
  rw [run_of_write h] at outcome
  cases outcome with
  | done placed admissible _ =>
      have puts := c.puts_run placed admissible
      refine ⟨c.text w, ⟨puts.akin.isClosed, puts.akin.settings⟩, fun put => ?_, fun put => ?_⟩
      · simp only [write, puts.done put]
      · obtain ⟨v, -, failed⟩ := puts.failed put
        exact ⟨.writing (.unavailable _), v, rfl, by simp only [write, failed]⟩

theorem streams_within {x : EmitM α} (hx : Streams x) (context : Option String) (name : String) :
    Streams (within context name x) := by
  intro w a w' h
  have run : x w = .ok a w' := by
    unfold within at h
    split at h
    · cases h
    · exact h
  obtain ⟨cs, text⟩ := hx w a w' run
  refine ⟨cs, text.akin, fun put => ?_, fun put => ?_⟩
  · have done := text.done put
    cases context <;> simp only [within, done]
  · obtain ⟨e, v, root, failed⟩ := text.failed put
    cases context with
    | none => exact ⟨e, v, root, by simp only [within, failed]⟩
    | some schema => exact ⟨.property schema name e, v, root, by simp only [within, failed]⟩

theorem streams_forM {ι : Type} {ps : List ι} {body : ι → EmitM Unit} (h : ∀ p, Streams (body p)) :
    Streams (ps.forM body) := by
  induction ps with
  | nil => exact streams_pure ()
  | cons p ps ih => exact streams_bind (h p) fun _ => ih

end EmitM

variable {κ : Type} [DecidableEq κ] {catalog : Catalog κ}

namespace Schema

variable {s : Schema κ} {fields : List (Value κ)} {writers : List (EmitM Unit)}

theorem streams_writePropertyBy (hw : ∀ x ∈ writers, EmitM.Streams x) (p : Property κ) :
    EmitM.Streams (s.writePropertyBy fields writers p) := by
  have name := EmitM.streams_call (.name p.jsonName)
  unfold writePropertyBy
  split
  · exact EmitM.streams_pure _
  · exact EmitM.streams_pure _
  · split
    · exact EmitM.streams_pure _
    · rename_i writer hx
      have value := EmitM.streams_within (hw writer (List.mem_of_getElem? hx))
      exact EmitM.streams_bind name fun _ =>
        EmitM.streams_bind (value _ _) fun _ => EmitM.streams_pure _
  · rename_i x _
    have value := EmitM.streams_call (.double x)
    exact EmitM.streams_bind name fun _ => EmitM.streams_bind value fun _ => EmitM.streams_pure _

theorem streams_writeBy (hw : ∀ x ∈ writers, EmitM.Streams x) :
    EmitM.Streams (s.writeBy fields writers) := by
  have resolved : EmitM.Streams (EmitM.resolve s) := by
    unfold EmitM.resolve
    split
    · exact EmitM.streams_pure _
    · exact EmitM.streams_throw _
  have properties (levels : List (Level κ)) :
      EmitM.Streams (s.writeLevelsBy fields writers levels) := by
    rw [writeLevelsBy_eq]
    exact EmitM.streams_forM fun p =>
      EmitM.streams_bind (streams_writePropertyBy hw p) fun _ => EmitM.streams_pure ()
  exact EmitM.streams_bind resolved fun d =>
    EmitM.streams_bind (EmitM.streams_call .beginObject) fun _ =>
      EmitM.streams_bind (properties d.chain) fun _ => EmitM.streams_call .endObject

end Schema

namespace EmitM

mutual

theorem streams_value : (v : Value κ) → Streams (value catalog v)
  | .scalar s => by
      rw [value, ← Scalar.call_run]
      exact streams_call s.call
  | .absent => by
      rw [value]
      exact streams_call .null
  | .present v => by
      rw [value]
      exact streams_value v
  | .list vs => by
      rw [value]
      exact streams_bind (streams_call .beginArray) fun _ =>
        streams_bind (streams_items vs) fun _ => streams_call .endArray
  | .record k fields => by
      rw [value]
      exact Schema.streams_writeBy (streams_writers fields)

theorem streams_items : (vs : List (Value κ)) → Streams (items catalog vs)
  | [] => by
      rw [items]
      exact streams_pure ()
  | v :: vs => by
      rw [items]
      exact streams_bind (streams_value v) fun _ => streams_items vs

theorem streams_writers : (vs : List (Value κ)) → ∀ x ∈ writers catalog vs, Streams x
  | [] => by
      rw [writers]
      exact nofun
  | v :: vs => by
      rw [writers]
      exact List.forall_mem_cons.mpr ⟨streams_value v, streams_writers vs⟩

end

end EmitM

namespace WriteM

variable {w : Writer}

theorem close_of_completes (open_ : w.isClosed = false) (complete : w.Completes []) :
    close w =
      (do output Outlet.flush; modify fun w => { w with isClosed := true } : WriteM Unit) w := by
  obtain ⟨outside, begun⟩ := Writer.completes_nil.mp complete
  unfold close
  rw [get_bind, if_neg (by simp [open_])]
  dsimp only
  rw [if_neg (by simp [outside]), if_neg (by simp [begun])]

theorem completes_of_close {w' : Writer} (open_ : w.isClosed = false) (h : close w = .ok () w') :
    w.Completes [] := by
  have outcome := Writer.Request.outcome_close w
  rw [h] at outcome
  cases outcome with
  | closed _ complete _ => exact complete
  | idle closed => exact absurd (open_.symm.trans closed) nofun

end WriteM

namespace EmitM

variable {w : Writer}

def finish : EmitM Unit := do
  write WriteM.close
  write WriteM.release

theorem write_close_of_ok {t : Outlet} (open_ : w.isClosed = false) (complete : w.Completes [])
    (h : Outlet.flush w.outlet = .ok () t) :
    write WriteM.close w = .ok () { w with outlet := t, isClosed := true } := by
  have output : WriteM.output Outlet.flush w = .ok () { w with outlet := t } := by
    simp only [WriteM.output, h]
  have close : WriteM.close w = .ok () { w with outlet := t, isClosed := true } :=
    (WriteM.close_of_completes open_ complete).trans (bind_of_ok output)
  simp only [write, close]

theorem finish_of_ok {o : Outlet} (open_ : w.isClosed = false) (complete : w.Completes [])
    (h : (do Outlet.flush; Outlet.flush : OutletM Unit) w.outlet = .ok () o) :
    ∃ w', finish w = .ok () w' ∧ w'.outlet = o := by
  obtain ⟨_, t, first, second⟩ := bind_eq_ok.mp h
  have closed := write_close_of_ok open_ complete first
  refine ⟨{ w with outlet := o, isClosed := true }, (bind_of_ok closed).trans ?_, rfl⟩
  simp only [write, WriteM.release, WriteM.output, second]

theorem finish_of_error {o : Outlet} {fault : DataFault} (open_ : w.isClosed = false)
    (complete : w.Completes [])
    (h : (do Outlet.flush; Outlet.flush : OutletM Unit) w.outlet = .error fault o) :
    ∃ w', finish w = .error (.writing (.unavailable fault)) w' ∧ w'.outlet = o := by
  rcases bind_eq_error.mp h with first | ⟨_, t, first, second⟩
  · have output : WriteM.output Outlet.flush w =
        .error (.unavailable fault) { w with outlet := o } := by
      simp only [WriteM.output, first]
    have close : WriteM.close w = .error (.unavailable fault) { w with outlet := o } :=
      (WriteM.close_of_completes open_ complete).trans (bind_of_error output)
    have closed : write WriteM.close w =
        .error (.writing (.unavailable fault)) { w with outlet := o } := by
      simp only [write, close]
    exact ⟨_, bind_of_error closed, rfl⟩
  · have closed := write_close_of_ok open_ complete first
    refine ⟨{ w with outlet := o, isClosed := true }, (bind_of_ok closed).trans ?_, rfl⟩
    simp only [write, WriteM.release, WriteM.output, second]

end EmitM

namespace Document

variable {v : Value κ} {settings : WriterSettings}

/-- Over every sink, writing the document does with the outlet what delivering these bytes does. -/
structure IsDelivery (catalog : Catalog κ) (v : Value κ) (settings : WriterSettings)
    (bytes : List UInt8) : Prop where
  done : ∀ {sink : Sink} {o : Outlet}, Outlet.deliver bytes { sink } = .ok () o →
    ∃ w, writeTo catalog sink v settings = .ok () w ∧ w.outlet = o
  failed : ∀ {sink : Sink} {o : Outlet} {fault : DataFault},
    Outlet.deliver bytes { sink } = .error fault o →
      ∃ e w, writeTo catalog sink v settings = .error e w ∧
        e.rootCause = .writing (.unavailable fault) ∧ w.outlet = o

theorem exists_isDelivery {w : Writer}
    (h : EmitM.document catalog v (Writer.new {} settings) = .ok () w) :
    ∃ cs, IsDelivery catalog v settings (encode cs) := by
  obtain ⟨_, w₁, value, close⟩ := bind_eq_ok.mp h
  obtain ⟨cs, text⟩ := EmitM.streams_value v _ _ _ value
  have open_ : w₁.isClosed = false := text.akin.isClosed
  have complete : w₁.Completes [] := WriteM.completes_of_close open_ (EmitM.run_of_write close)
  have parts (sink : Sink) : writeTo catalog sink v settings =
      (do EmitM.value catalog v; EmitM.finish : EmitM Unit) (Writer.new sink settings) := by
    rw [writeTo, EmitM.document, bind_assoc]
    rfl
  refine ⟨cs, fun {sink o} deliver => ?_, fun {sink o fault} deliver => ?_⟩
  · obtain ⟨_, o₁, put, flushes⟩ := bind_eq_ok.mp deliver
    obtain ⟨w', finish, outlet⟩ :=
      EmitM.finish_of_ok (w := { w₁ with outlet := o₁ }) open_ complete flushes
    exact ⟨w', ((parts sink).trans (bind_of_ok (text.done put))).trans finish, outlet⟩
  · rcases bind_eq_error.mp deliver with put | ⟨_, o₁, put, flushes⟩
    · obtain ⟨e, u, root, failed⟩ := text.failed put
      exact ⟨e, _, (parts sink).trans (bind_of_error failed), root, rfl⟩
    · obtain ⟨w', finish, outlet⟩ :=
        EmitM.finish_of_error (w := { w₁ with outlet := o₁ }) open_ complete flushes
      exact ⟨_, w', ((parts sink).trans (bind_of_ok (text.done put))).trans finish, rfl, outlet⟩

theorem isDelivery_of_render {text : String} (h : render catalog v settings = .ok text) :
    IsDelivery catalog v settings (encode text.toList) := by
  obtain ⟨w, document⟩ := document_of_render h
  obtain ⟨cs, delivery⟩ := exists_isDelivery document
  have whole : Attains (Outlet.Holds []) (Outlet.deliver (encode cs)) fun _ o =>
      o.sink.received = encode cs := by
    have flushed {out : List UInt8} : Attains (Outlet.Holds out) Outlet.flush fun _ =>
        Outlet.Holds out := by
      refine Outlet.attains_flush.weaken (fun _ holds => holds) ?_
      rintro _ o ⟨⟨reliable, received⟩, empty⟩
      exact ⟨reliable, by rw [received, empty, Array.toList_empty, List.append_nil]⟩
    refine Attains.bind (Outlet.attains_put (encode cs)) fun _ => Attains.bind flushed fun _ => ?_
    exact Outlet.attains_flush.weaken (fun _ holds => holds) fun _ o h => h.1.2
  obtain ⟨_, o, deliver, received⟩ := whole _ (Outlet.holds_new Sink.reliable_new)
  obtain ⟨w', run, rfl⟩ := delivery.done deliver
  have text_eq : text = String.ofList cs := by
    rw [render, bytes, run] at h
    dsimp only [Except.map] at h
    rw [received, Utf8.decode_encode] at h
    cases h
    rfl
  rw [text_eq, String.toList_ofList]
  exact delivery

/-- What comes of writing some bytes to a sink: everything succeeds and the sink has them all, or an
attempt fails, and then they break off and the error is at its root that failure. -/
structure Written (sink : Sink) (bytes : List UInt8) (attempts : List Attempt)
    (result : EStateM.Result BindError Writer Unit) : Prop where
  succeeds : (∃ w, result = .ok () w) ↔ ∀ a ∈ attempts, a.fault? = none
  complete : ∀ w, result = .ok () w → w.outlet.sink.received = sink.received ++ bytes
  broken : ∀ e w, result = .error e w → ∃ fault sent,
    attempts.findSome? Attempt.fault? = some fault ∧ e.rootCause = .writing (.unavailable fault) ∧
      w.outlet.sink.received = sink.received ++ sent ∧ sent <+: bytes

theorem written_of_isDelivery {bytes : List UInt8} (h : IsDelivery catalog v settings bytes)
    (sink : Sink) : Written sink bytes (sink.attempts (Outlet.demands bytes))
      (writeTo catalog sink v settings) := by
  have attempts := Outlet.error?_deliver bytes sink
  have forwards := Outlet.forwards_deliver bytes
  cases deliver : Outlet.deliver bytes { sink } with
  | ok _ o =>
      obtain ⟨w, run, rfl⟩ := h.done deliver
      rw [deliver] at attempts
      rw [run]
      refine ⟨iff_of_true ⟨w, rfl⟩ (List.findSome?_eq_none_iff.mp attempts.symm), ?_,
        fun e u h => absurd h ok_ne_error⟩
      rintro _ ⟨⟩
      exact Outlet.received_of_deliver deliver
  | error fault o =>
      obtain ⟨e, w, run, root, rfl⟩ := h.failed deliver
      rw [deliver] at attempts
      rw [run]
      have unsuccessful (u : Writer) : (EStateM.Result.error e w : EStateM.Result _ _ Unit) ≠
          .ok () u := ok_ne_error.symm
      refine ⟨iff_of_false (fun ⟨u, h⟩ => unsuccessful u h) fun none => ?_,
        fun u h => absurd h (unsuccessful u), ?_⟩
      · rw [List.findSome?_eq_none_iff.mpr none] at attempts
        cases attempts
      · rintro _ _ ⟨⟩
        obtain ⟨sent, received, inside⟩ := forwards.failed deliver
        exact ⟨fault, sent, attempts.symm, root, received, inside⟩

/-- As long as a sink has not failed, it has the texts of all requests of a session, but for the end
that is in the buffer; a request in which it fails cuts them off. Hence a document that can be
rendered is written completely if no attempt of the sink fails, and otherwise it breaks off, and the
error is at its root the failure of the attempt. -/
theorem buffering_transparent (sink : Sink) (settings : WriterSettings) :
    (∀ requests : List Writer.Request,
      (Writer.new sink settings).Along (fun w q => ¬ q.Breaks w) requests →
        Writer.Emitted sink ((Writer.new sink settings).emission requests)
          ((Writer.new sink settings).after requests)) ∧
      ∀ (catalog : Catalog κ) (v : Value κ) (text : String),
        render catalog v settings = .ok text →
          Written sink (encode text.toList)
            (sink.attempts (Outlet.demands (encode text.toList)))
            (writeTo catalog sink v settings) :=
  ⟨fun _ unbroken => Writer.emitted_of_session unbroken,
    fun _ _ _ rendered => written_of_isDelivery (isDelivery_of_render rendered) sink⟩

/-- A sink that takes three bytes, is interrupted, and then is full. -/
theorem buffering_transparent_fullSink :
    ∃ sink requests w w' v text u e,
      sink = { replies := [.accepted 3, .interrupted, .failed "full"] } ∧
      requests = [.call .beginArray, .call (.integer 12345)] ∧
      w = (Writer.new sink).after requests ∧
      Writer.Request.flush.run w = .error (.unavailable (.device "full")) w' ∧
      (∃ sent, w'.outlet.sink.received = sink.received ++ sent ∧
        sent <+: (Writer.new sink).emission requests ++ Writer.Request.flush.emits w) ∧
      v = .list [.scalar (.integer 12345)] ∧ render Sample.catalog v = .ok text ∧
      writeTo Sample.catalog sink v = .error e u ∧
      e.rootCause = .writing (.unavailable (.device "full")) ∧
      ∃ sent, u.outlet.sink.received = sink.received ++ sent ∧ sent <+: encode text.toList := by
  let sink : Sink := { replies := [.accepted 3, .interrupted, .failed "full"] }
  let requests : List Writer.Request := [.call .beginArray, .call (.integer 12345)]
  let w := (Writer.new sink).after requests
  let v : Value Sample.Key := .list [.scalar (.integer 12345)]
  have unbroken : (Writer.new sink).Along (fun w q => ¬ q.Breaks w) requests :=
    ⟨Writer.Request.not_breaks_of_error? (by decide +kernel),
      Writer.Request.not_breaks_of_error? (by decide +kernel), trivial⟩
  have flush : error? (Writer.Request.flush.run w) = some (.unavailable (.device "full")) := by
    decide +kernel
  have rendered : (render Sample.catalog v).toOption = some "[12345]" := by
    decide +kernel
  have attempts : (sink.attempts (Outlet.demands (encode "[12345]".toList))).findSome?
      Attempt.fault? = some (.device "full") := by
    rw [Outlet.demands, if_neg (by decide)]
    decide +kernel
  obtain ⟨w', flush⟩ := error?_eq_some flush
  have rendered := ok_of_toOption rendered
  obtain ⟨session, document⟩ := buffering_transparent (κ := Sample.Key) sink {}
  have outcome := document Sample.catalog v _ rendered
  obtain ⟨e, u, written⟩ : ∃ e u, writeTo Sample.catalog sink v = .error e u := by
    cases run : writeTo Sample.catalog sink v with
    | ok _ u =>
        have none := List.findSome?_eq_none_iff.mpr (outcome.succeeds.mp ⟨u, run⟩)
        cases attempts.symm.trans none
    | error e u => exact ⟨e, u, rfl⟩
  obtain ⟨fault, sent, first, root, received, inside⟩ := outcome.broken e u written
  cases attempts.symm.trans first
  exact ⟨sink, requests, w, w', v, _, u, e, rfl, rfl, rfl, flush,
    (session requests unbroken).broken .flush _ w' flush, rfl, rendered, written, root, sent,
    received, inside⟩

end Document

end TypedJson
