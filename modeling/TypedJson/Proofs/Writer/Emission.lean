import TypedJson.Proofs.Output.Prefix
import TypedJson.Proofs.Writer.Session

set_option autoImplicit false
set_option relaxedAutoImplicit false

namespace TypedJson

open Operation
open Utf8 (encode)

namespace WriteM

variable {w v : Writer}

theorem flush_of_release (h : release w = .ok () v) : Outlet.flush w.outlet = .ok () v.outlet := by
  unfold release output at h
  split at h
  · rename_i flush
    cases h
    exact flush
  · cases h

theorem flush_of_failed_release {e : WriteError} (h : release w = .error e v) :
    ∃ fault, Outlet.flush w.outlet = .error fault v.outlet := by
  unfold release output at h
  split at h
  · cases h
  · rename_i fault o flush
    cases h
    exact ⟨fault, flush⟩

end WriteM

namespace Writer

variable {w v : Writer} {c : Call} {q : Request} {requests : List Request}

namespace Request

/-- The bytes of the text that a request emits: of a call that fits, its text at the position of
the writer, and nothing of anything else. -/
def emits (w : Writer) : Request → List UInt8
  | call c =>
      if c.Placed w ∧ c.IsAdmissible w.settings.lenient then encode (c.text w) else []
  | _ => []

/-- The sink fails in the request. -/
def Breaks (w : Writer) (q : Request) : Prop :=
  ∃ fault v, q.run w = .error (.unavailable fault) v

theorem not_breaks_of_error? (h : error? (q.run w) = none) : ¬ q.Breaks w := by
  rintro ⟨fault, v, broken⟩
  rw [broken] at h
  cases h

theorem emits_of_fits (placed : c.Placed w) (admissible : c.IsAdmissible w.settings.lenient) :
    (call c).emits w = encode (c.text w) :=
  if_pos ⟨placed, admissible⟩

theorem emits_of_misfit
    (misfit : ∀ c, q = .call c → ¬ (c.Placed w ∧ c.IsAdmissible w.settings.lenient)) :
    q.emits w = [] := by
  cases q with
  | call c => exact if_neg (misfit c rfl)
  | flush | close | setLenient => rfl

theorem cutOff_of_breaks {fault : DataFault} (h : q.run w = .error (.unavailable fault) v) :
    Outlet.CutOff w.outlet v.outlet (q.emits w) := by
  have outcome := q.outcome w
  rw [h] at outcome
  cases outcome with
  | refused refusal => exact refusal.elim
  | broken placed admissible _ put =>
      rw [emits_of_fits placed admissible]
      exact (Outlet.forwards_put _).failed put
  | unflushed asked _ flush =>
      have silent : q.emits w = [] := by rcases asked with rfl | rfl <;> rfl
      rw [silent]
      exact Outlet.forwards_flush.failed flush

/-- A request in which the sink does not fail adds its text, and leaves room in the buffer. -/
theorem forwarded_of_run (h : ¬ q.Breaks w) :
    Outlet.Forwarded w.outlet (final (q.run w)).outlet (q.emits w) ∧
      (w.outlet.HasRoom → (final (q.run w)).outlet.HasRoom) := by
  have outcome := q.outcome w
  unfold Breaks at h
  generalize run : q.run w = result at outcome h
  cases outcome with
  | @refused _ e refusal =>
      have misfit (c : Call) (same : q = .call c) :
          ¬ (c.Placed w ∧ c.IsAdmissible w.settings.lenient) := by
        rintro ⟨placed, admissible⟩
        subst same
        obtain ⟨fault, rfl, -, -⟩ := (c.puts_run placed admissible).of_error run
        exact refusal
      rw [emits_of_misfit misfit]
      exact ⟨.refl, id⟩
  | done placed admissible put =>
      rw [emits_of_fits placed admissible]
      exact ⟨(Outlet.forwards_put _).done put, fun room => Outlet.hasRoom_of_put _ _ _ _ room put⟩
  | broken => exact absurd ⟨_, _, rfl⟩ h
  | unflushed => exact absurd ⟨_, _, rfl⟩ h
  | flushed _ flush | closed _ _ flush =>
      exact ⟨Outlet.forwards_flush.done flush, fun _ => Outlet.hasRoom_of_flush flush⟩
  | idle | switched => exact ⟨.refl, id⟩

end Request

/-- The bytes of the texts that the requests of a session emit, one after the other. -/
def emission : Writer → List Request → List UInt8
  | _, [] => []
  | w, q :: requests => q.emits w ++ (final (q.run w)).emission requests

theorem forwarded_of_session (unbroken : w.Along (fun w q => ¬ q.Breaks w) requests) :
    Outlet.Forwarded w.outlet (w.after requests).outlet (w.emission requests) ∧
      (w.outlet.HasRoom → (w.after requests).outlet.HasRoom) := by
  induction requests generalizing w with
  | nil => exact ⟨.refl, id⟩
  | cons q requests ih =>
      obtain ⟨first, room⟩ := q.forwarded_of_run unbroken.1
      obtain ⟨rest, room'⟩ := ih unbroken.2
      exact ⟨first.trans rest, room' ∘ room⟩

/-- How much of the text of a session, all of which has gone through the writer `w`, a sink has
received, and how much it will have received behind whatever comes next. -/
structure Emitted (sink : Sink) (text : List UInt8) (w : Writer) : Prop where
  /-- All but the end, which is in the buffer. -/
  received : ∃ sent, w.outlet.sink.received = sink.received ++ sent ∧
    sent ++ w.outlet.buffer.toList = text
  room : w.outlet.buffer.size < Outlet.capacity
  /-- Behind a request in which the sink fails, a beginning of the text and that of the request. -/
  broken : ∀ (q : Request) (fault : DataFault) (v : Writer),
    q.run w = .error (.unavailable fault) v →
      ∃ sent, v.outlet.sink.received = sink.received ++ sent ∧ sent <+: text ++ q.emits w
  /-- Behind the release of the writer, everything. -/
  released : ∀ v, WriteM.release w = .ok () v → v.outlet.sink.received = sink.received ++ text
  /-- Behind a release that fails, a beginning. -/
  unreleased : ∀ (e : WriteError) (v : Writer), WriteM.release w = .error e v →
    ∃ sent, v.outlet.sink.received = sink.received ++ sent ∧ sent <+: text

theorem emitted_of_session {sink : Sink} {settings : WriterSettings}
    (unbroken : (new sink settings).Along (fun w q => ¬ q.Breaks w) requests) :
    Emitted sink ((new sink settings).emission requests) ((new sink settings).after requests) := by
  obtain ⟨forwarded, room⟩ := forwarded_of_session unbroken
  refine ⟨forwarded, room (Outlet.hasRoom_new sink), fun q fault v h => ?_, fun v h => ?_,
    fun e v h => ?_⟩
  · exact forwarded.cutOff (Request.cutOff_of_breaks h)
  · have flush := WriteM.flush_of_release h
    obtain ⟨-, empty⟩ := Outlet.total_of_flush flush
    obtain ⟨sent, received, due⟩ := forwarded.trans (Outlet.forwards_flush.done flush)
    rw [empty, Array.toList_empty, List.append_nil, List.append_nil] at due
    rw [received, due]
    rfl
  · obtain ⟨fault, flush⟩ := WriteM.flush_of_failed_release h
    have cutOff := forwarded.cutOff (Outlet.forwards_flush.failed flush)
    rwa [List.append_nil] at cutOff

end Writer

end TypedJson
