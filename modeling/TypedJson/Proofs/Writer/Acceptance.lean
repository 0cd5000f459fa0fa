import TypedJson.Proofs.Writer.Session

set_option autoImplicit false
set_option relaxedAutoImplicit false

namespace TypedJson.Writer

open Operation
open Utf8 (encode)

variable {w : Writer} {requests : List Request}

namespace Request

theorem reliable_run (reliable : w.outlet.sink.Reliable) (q : Request) :
    (∀ fault v, q.run w ≠ .error (.unavailable fault) v) ∧
      (final (q.run w)).outlet.sink.Reliable := by
  have put (bytes : List UInt8) :
      ∃ o, Outlet.put bytes w.outlet = .ok () o ∧ o.sink.Reliable := by
    obtain ⟨_, o, run, holds⟩ := Outlet.attains_put bytes w.outlet ⟨reliable, rfl⟩
    exact ⟨o, run, holds.1⟩
  have flush : ∃ o, Outlet.flush w.outlet = .ok () o ∧ o.sink.Reliable := by
    obtain ⟨_, o, run, has, -⟩ := Outlet.attains_flush w.outlet ⟨reliable, rfl⟩
    exact ⟨o, run, has.1⟩
  have outcome := q.outcome w
  generalize q.run w = result at outcome
  cases outcome with
  | refused refusal =>
      refine ⟨?_, reliable⟩
      intro fault v same
      cases same
      exact refusal
  | @done c o _ _ run =>
      obtain ⟨o', run', still⟩ := put (encode (c.text w))
      cases run.symm.trans run'
      exact ⟨fun _ _ => ok_ne_error, still⟩
  | @broken c _ _ _ _ _ run =>
      obtain ⟨o', run', -⟩ := put (encode (c.text w))
      cases run.symm.trans run'
  | flushed _ run | closed _ _ run =>
      obtain ⟨o', run', still⟩ := flush
      cases run.symm.trans run'
      exact ⟨fun _ _ => ok_ne_error, still⟩
  | unflushed _ _ run =>
      obtain ⟨o', run', -⟩ := flush
      cases run.symm.trans run'
  | idle | switched => exact ⟨fun _ _ => ok_ne_error, reliable⟩

theorem added_eq_accepted (reliable : w.outlet.sink.Reliable) (q : Request) :
    q.added w = q.accepted w := by
  obtain ⟨available, -⟩ := reliable_run reliable q
  have outcome := q.outcome w
  unfold added accepted
  generalize q.run w = result at outcome available
  cases outcome with
  | refused =>
      dsimp only
      rw [if_pos rfl]
  | broken | unflushed => exact absurd rfl (available _ _)
  | _ => rfl

theorem closed_run (closed : w.isClosed = true) (q : Request) :
    (final (q.run w)).isClosed = true ∧ (final (q.run w)).outlet = w.outlet := by
  have notOpen : ¬ w.isClosed = false := by simp [closed]
  have outcome := q.outcome w
  generalize q.run w = result at outcome
  cases outcome with
  | refused => exact ⟨closed, rfl⟩
  | done placed | broken placed => exact absurd placed.isOpen notOpen
  | flushed isOpen | closed isOpen | unflushed _ isOpen => exact absurd isOpen notOpen
  | idle | switched => exact ⟨closed, rfl⟩

end Request

theorem reliable_after (reliable : w.outlet.sink.Reliable) (requests : List Request) :
    (w.after requests).outlet.sink.Reliable := by
  induction requests generalizing w with
  | nil => exact reliable
  | cons q requests ih => exact ih (q.reliable_run reliable).2

theorem harmless_of_reliable (reliable : w.outlet.sink.Reliable) (requests : List Request) :
    w.Along (fun w q => q.Harmless w) requests := by
  induction requests generalizing w with
  | nil => exact trivial
  | cons q requests ih =>
      obtain ⟨available, still⟩ := q.reliable_run reliable
      exact ⟨fun fault v failed => absurd failed (available fault v), ih still⟩

theorem gather_accepted (reliable : w.outlet.sink.Reliable) (requests : List Request) :
    w.gather Request.added requests = w.gather Request.accepted requests := by
  induction requests generalizing w with
  | nil => rfl
  | cons q requests ih =>
      rw [gather, gather, q.added_eq_accepted reliable, ih (q.reliable_run reliable).2]

theorem tracks_of_reliable {sink : Sink} (reliable : sink.Reliable) (settings : WriterSettings)
    (requests : List Request) :
    Tracks true (new sink settings) ((new sink settings).after requests)
      ((new sink settings).gather Request.accepted requests) := by
  have start : (new sink settings).outlet.sink.Reliable := reliable
  have harmless := harmless_of_reliable start requests
  have tracks := Tracks.after (tracks_new fun _ => rfl) harmless fun _ => rfl
  rw [gather_accepted start] at tracks
  exact tracks

theorem closed_after (closed : w.isClosed = true) (requests : List Request) :
    (w.after requests).isClosed = true ∧ (w.after requests).outlet = w.outlet := by
  induction requests generalizing w with
  | nil => exact ⟨closed, rfl⟩
  | cons q requests ih =>
      obtain ⟨still, outlet⟩ := q.closed_run closed
      obtain ⟨later, same⟩ := ih still
      exact ⟨later, same.trans outlet⟩

theorem Tracks.closes {nonFinite : Bool} {start v : Writer} {calls : List Call}
    (h : Tracks nonFinite start w calls) (closes : WriteM.close w = .ok () v) :
    w.Completes [] ∧ v.isClosed = true ∧ v.outlet.buffer = #[] ∧
      v.outlet.total = w.outlet.total := by
  have outcome := Request.outcome_close w
  rw [closes] at outcome
  cases outcome with
  | closed _ complete flush =>
      obtain ⟨total, empty⟩ := Outlet.total_of_flush flush
      exact ⟨complete, rfl, empty, total⟩
  | idle isClosed =>
      obtain ⟨complete, empty⟩ := h.closed isClosed
      exact ⟨complete, isClosed, empty, rfl⟩

/-- A call goes through if and only if it fits, and its number is not refused. -/
theorem succeeds_iff (reliable : w.outlet.sink.Reliable) (c : Call) :
    (∃ v, c.run w = .ok () v) ↔ c.Placed w ∧ c.IsAdmissible w.settings.lenient := by
  constructor
  · rintro ⟨v, run⟩
    by_cases fits : c.Placed w ∧ c.IsAdmissible w.settings.lenient
    · exact fits
    · obtain ⟨e, refused, -⟩ := Call.run_refused fits
      cases run.symm.trans refused
  · rintro ⟨placed, admissible⟩
    obtain ⟨_, o, run, -⟩ := Outlet.attains_put (encode (c.text w)) w.outlet ⟨reliable, rfl⟩
    exact ⟨_, (Call.puts_run placed admissible).done run⟩

theorem close_succeeds_iff (reliable : w.outlet.sink.Reliable) (isOpen : w.isClosed = false) :
    (∃ v, WriteM.close w = .ok () v) ↔ w.Completes [] := by
  constructor
  · rintro ⟨v, run⟩
    have outcome := Request.outcome_close w
    rw [run] at outcome
    cases outcome with
    | closed _ complete => exact complete
    | idle isClosed => exact absurd (isOpen.symm.trans isClosed) nofun
  · intro complete
    obtain ⟨containers, begun⟩ := completes_nil.mp complete
    obtain ⟨v, run, -⟩ := attains_close isOpen containers begun ⟨reliable, rfl⟩
    exact ⟨v, run⟩

/-- Behind any session over a reliable sink, as long as the writer is open, it accepts exactly the
units that may come next in some document, and it can be closed exactly if the units accepted are
those of a document. Once closed it accepts nothing, and the sink receives nothing more. -/
theorem accepts_iff_grammar {sink : Sink} (reliable : sink.Reliable) (settings : WriterSettings)
    (requests : List Request) :
    let w := (new sink settings).after requests
    let events := ((new sink settings).gather Request.accepted requests).map Call.event
    (w.isClosed = false →
      (∀ c : Call, c.IsAdmissible w.settings.lenient →
        ((∃ v, c.run w = .ok () v) ↔ ∃ t : Tree, events ++ [c.event] <+: t.events)) ∧
      ((∃ v, WriteM.close w = .ok () v) ↔ ∃ t : Tree, t.events = events)) ∧
    ∀ v, WriteM.close w = .ok () v → ∀ later : List Request,
      let u := v.after later
      (∀ c : Call, c.run u = .error .closed u) ∧ WriteM.flush u = .error .closed u ∧
        WriteM.close u = .ok () u ∧ u.outlet.sink.received = v.outlet.sink.received ∧
        (final (WriteM.release u)).outlet.sink.received = v.outlet.sink.received := by
  intro w events
  have tracks := tracks_of_reliable reliable settings requests
  have still : w.outlet.sink.Reliable := reliable_after reliable requests
  have completes (evs : List Event) : w.Completes evs ↔ ∃ t : Tree, t.events = events ++ evs :=
    (tracks.completes evs).symm.trans (completes_new sink settings)
  refine ⟨fun isOpen => ⟨fun c admissible => ?_, ?_⟩, fun v closes later => ?_⟩
  · rw [succeeds_iff still, and_iff_left admissible]
    constructor
    · intro placed
      obtain ⟨evs, next⟩ := exists_completes (c.next w)
      have whole := (completes_cons isOpen tracks.sound c).mpr ⟨placed, next⟩
      obtain ⟨t, units⟩ := (completes _).mp whole
      exact ⟨t, evs, by rw [units, List.append_assoc]; rfl⟩
    · rintro ⟨t, evs, units⟩
      rw [List.append_assoc] at units
      have whole := (completes (c.event :: evs)).mpr ⟨t, units.symm⟩
      exact ((completes_cons isOpen tracks.sound c).mp whole).1
  · have none := completes []
    rw [List.append_nil] at none
    exact (close_succeeds_iff still isOpen).trans none
  · obtain ⟨-, isClosed, empty, -⟩ := tracks.closes closes
    have reliableEnd : v.outlet.sink.Reliable := by
      have reliable := (Request.reliable_run still .close).2
      rw [Request.run, closes] at reliable
      exact reliable
    obtain ⟨closed, outlet⟩ := closed_after isClosed later
    have flush : WriteM.flush (v.after later) = .error .closed (v.after later) :=
      bind_of_error (WriteM.checkOpen_closed closed)
    have close : WriteM.close (v.after later) = .ok () (v.after later) := by
      unfold WriteM.close
      rw [get_bind, if_pos closed]
      rfl
    have release : (final (WriteM.release (v.after later))).outlet.sink.received =
        v.outlet.sink.received := by
      obtain ⟨_, o, run, has, -⟩ := Outlet.attains_flush v.outlet ⟨reliableEnd, rfl⟩
      rw [WriteM.release, WriteM.output, outlet, run]
      exact has.2.trans (by rw [empty, Array.toList_empty, List.append_nil])
    exact ⟨fun c => c.run_closed closed, flush, close, by rw [outlet], release⟩

/-- Inside an array a name is refused, and the array goes on behind it. -/
theorem accepts_iff_grammar_array :
    let sink : Sink := { replies := [.interrupted, .accepted 1] }
    let w := (new sink).after [.call .beginArray, .call (.name "a"), .flush]
    (∃ v, Call.null.run w = .ok () v) ∧ ¬ (∃ v, WriteM.close w = .ok () v) := by
  intro sink w
  have reliable : sink.Reliable := Sink.reliable_of_replies (by simp [Acceptance.IsReliable])
  obtain ⟨accepts, -⟩ := accepts_iff_grammar reliable {}
    [.call .beginArray, .call (.name "a"), .flush]
  have isOpen : w.isClosed = false := by decide +kernel
  have units : ((new sink).gather Request.accepted
      [.call .beginArray, .call (.name "a"), .flush]).map Call.event = [.beginArray] := by
    decide +kernel
  obtain ⟨calls, closes⟩ := accepts isOpen
  rw [units] at calls closes
  refine ⟨(calls .null trivial).mpr ⟨.array [.null], [.endArray], rfl⟩, ?_⟩
  rw [closes]
  rintro ⟨t, events⟩
  have unfinished : Completion.Rest [.array] [] :=
    Completion.value_cons.mp (Completion.value_iff.mpr ⟨t, events⟩)
  exact absurd (Completion.rest_nil_iff.mp unfinished) nofun

end TypedJson.Writer
