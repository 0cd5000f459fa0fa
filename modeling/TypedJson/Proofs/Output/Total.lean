import TypedJson.Output.Outlet
import TypedJson.Proofs.Operation

set_option autoImplicit false
set_option relaxedAutoImplicit false

namespace TypedJson

open Operation

namespace Sink

variable {out data : List UInt8}

theorem ensures_writeSteady : Ensures (fun s => s.received = out) (writeSteady data)
    fun _ s => s.received = out ++ data := by
  rintro ⟨received, replies, steady, flushes, steadyFlush⟩ _ s' rfl h
  unfold writeSteady at h
  rw [get_bind] at h
  cases steady with
  | error text => cases h
  | ok n =>
      cases n with
      | zero => cases h
      | succ n =>
          cases h
          rfl

theorem ensures_writeScripted {replies : List Acceptance} :
    Ensures (fun s => s.received = out) (writeScripted replies data)
      fun _ s => s.received = out ++ data := by
  induction replies generalizing out data with
  | nil =>
      cases data with
      | nil =>
          rw [List.append_nil]
          exact Ensures.pure fun _ h => h
      | cons b data => exact ensures_writeSteady
  | cons reply rest ih =>
      cases data with
      | nil =>
          rw [List.append_nil]
          exact Ensures.pure fun _ h => h
      | cons b data =>
          refine Ensures.bind (Ensures.modify (R := fun _ s => s.received = out) fun _ h => h)
            fun _ => ?_
          cases reply with
          | interrupted => exact ih
          | failed text => exact Ensures.throw
          | accepted n =>
              cases n with
              | zero => exact Ensures.throw
              | succ n =>
                  have parts : out ++ b :: data =
                      out ++ (b :: data).take (n + 1) ++ (b :: data).drop (n + 1) := by
                    rw [List.append_assoc, List.take_append_drop]
                  rw [parts]
                  refine Ensures.bind (Ensures.modify fun s h => ?_) fun _ => ih
                  rw [← h]

theorem ensures_write : Ensures (fun s => s.received = out) (write data)
    fun _ s => s.received = out ++ data :=
  fun s a s' hs h => ensures_writeScripted s a s' hs h

theorem write_nil (s : Sink) : write [] s = .ok () s := by
  unfold write
  rw [get_bind]
  cases s.replies <;> rfl

theorem write_of_failed {s : Sink} {text : String} {replies : List Acceptance}
    (failed : s.replies = .failed text :: replies) (some : data ≠ []) :
    write data s = .error (.device text) { s with replies } := by
  obtain ⟨b, data, rfl⟩ := List.exists_cons_of_ne_nil some
  unfold write
  rw [get_bind, failed]
  rfl

theorem received_flush (s : Sink) : (final (flush s)).received = s.received := by
  obtain ⟨received, replies, steady, flushes, steadyFlush⟩ := s
  cases flushes with
  | nil => cases steadyFlush <;> rfl
  | cons answer rest => cases answer <;> rfl

end Sink

namespace Outlet

variable {out : List UInt8} {o o' : Outlet}

/-- The bytes put out: those that the sink has received, and those still in the buffer. -/
def total (o : Outlet) : List UInt8 :=
  o.sink.received ++ o.buffer.toList

theorem put_append (bytes bytes' : List UInt8) :
    put (bytes ++ bytes') = (do put bytes; put bytes') :=
  List.forM_append

theorem onSink_eq_ok {α : Type} {x : SinkM α} {a : α} (h : onSink x o = .ok a o') :
    x o.sink = .ok a o'.sink ∧ o'.buffer = o.buffer := by
  unfold onSink at h
  split at h
  · rename_i hx
    cases h
    exact ⟨hx, rfl⟩
  · cases h

theorem onSink_eq_error {α : Type} {x : SinkM α} {fault : DataFault}
    (h : onSink x o = .error fault o') : x o.sink = .error fault o'.sink ∧ o'.buffer = o.buffer := by
  unfold onSink at h
  split at h
  · cases h
  · rename_i hx
    cases h
    exact ⟨hx, rfl⟩

theorem ensures_handOver : Ensures (fun o => o.total = out) handOver
    fun _ o => o.sink.received = out ∧ o.buffer = #[] := by
  intro o _ o' ho h
  unfold handOver at h
  rw [get_bind] at h
  obtain ⟨_, t, hx, ht⟩ := bind_eq_ok.mp h
  obtain ⟨written, -⟩ := onSink_eq_ok hx
  cases ht
  exact ⟨(Sink.ensures_write o.sink _ _ rfl written).trans ho, rfl⟩

theorem ensures_handOverFull :
    Ensures (fun o => o.total = out) handOverFull fun _ o => o.total = out := by
  intro o _ o' ho h
  unfold handOverFull at h
  rw [get_bind] at h
  split at h
  · obtain ⟨received, empty⟩ := ensures_handOver o _ o' ho h
    rw [total, received, empty, Array.toList_empty, List.append_nil]
  · cases h
    exact ho

theorem ensures_push {b : UInt8} :
    Ensures (fun o => o.total = out) (push b) fun _ o => o.total = out ++ [b] := by
  refine Ensures.bind ensures_handOverFull fun _ => Ensures.bind (Ensures.modify ?_)
    fun _ => ensures_handOverFull
  rintro o rfl
  simp [total]

theorem ensures_put (bytes : List UInt8) :
    Ensures (fun o => o.total = out) (put bytes) fun _ o => o.total = out ++ bytes := by
  induction bytes generalizing out with
  | nil =>
      rw [List.append_nil]
      exact Ensures.pure fun _ h => h
  | cons b bytes ih =>
      rw [List.append_cons]
      exact Ensures.bind ensures_push fun _ => ih

/-! Up to the byte that makes the buffer full, the sink has no part in it. -/

theorem handOverFull_of_lt (h : o.buffer.size < capacity) : handOverFull o = .ok () o := by
  unfold handOverFull
  rw [get_bind, if_neg (Nat.not_le.mpr h)]
  rfl

theorem put_of_lt {bytes : List UInt8} (h : o.buffer.size + bytes.length < capacity) :
    put bytes o = .ok () { o with buffer := o.buffer ++ bytes.toArray } := by
  induction bytes generalizing o with
  | nil => simp [put]; rfl
  | cons b bytes ih =>
      rw [List.length_cons] at h
      have size : (o.buffer.push b).size + bytes.length < capacity := by
        rw [Array.size_push]
        omega
      have push : push b o = .ok () { o with buffer := o.buffer.push b } := by
        have before := handOverFull_of_lt (o := o) (by omega)
        have behind := handOverFull_of_lt (o := { o with buffer := o.buffer.push b }) (by
          dsimp only
          omega)
        exact (bind_of_ok before).trans behind
      have rest := ih (o := { o with buffer := o.buffer.push b }) size
      refine (bind_of_ok push).trans (rest.trans ?_)
      simp

theorem put_singleton (b : UInt8) : put [b] = push b := by
  simp [put]

theorem handOverFull_of_le (full : capacity ≤ o.buffer.size) : handOverFull o = handOver o := by
  unfold handOverFull
  rw [get_bind, if_pos full]

theorem put_of_fill (first : List UInt8) (b : UInt8)
    (full : o.buffer.size + first.length + 1 = capacity) :
    put (first ++ [b]) o =
      handOver { o with buffer := o.buffer ++ (first ++ [b]).toArray } := by
  have fill : put first o = .ok () { o with buffer := o.buffer ++ first.toArray } :=
    put_of_lt (by omega)
  have whole : o.buffer ++ (first ++ [b]).toArray = (o.buffer ++ first.toArray).push b := by
    simp
  have before := handOverFull_of_lt (o := { o with buffer := o.buffer ++ first.toArray })
    (by simp; omega)
  have behind := handOverFull_of_le
    (o := { o with buffer := (o.buffer ++ first.toArray).push b }) (by simp; omega)
  rw [put_append, bind_of_ok fill, put_singleton, whole, ← behind]
  exact bind_of_ok before

/-- A sink that fails at once, when the buffer becomes full, leaves it so. -/
theorem put_of_failed {sink : Sink} {text : String} {replies : List Acceptance}
    {bytes : List UInt8} (failed : sink.replies = .failed text :: replies)
    (long : capacity ≤ bytes.length) :
    put bytes { sink } = .error (.device text)
      { sink := { sink with replies }, buffer := (bytes.take capacity).toArray } := by
  obtain ⟨first, b, rest, rfl, length⟩ : ∃ first b rest,
      bytes = first ++ [b] ++ rest ∧ first.length + 1 = capacity := by
    have inside : 1023 < bytes.length := long
    refine ⟨bytes.take 1023, bytes[1023], bytes.drop 1024, ?_, ?_⟩
    · rw [List.take_append_getElem inside, List.take_append_drop]
    · rw [List.length_take, Nat.min_eq_left (Nat.le_of_lt inside)]
      rfl
  have whole : (first ++ [b] ++ rest).take capacity = first ++ [b] :=
    List.take_left' (by rw [← length, List.length_append, List.length_singleton])
  have fill : put (first ++ [b]) { sink } = handOver { sink, buffer := (first ++ [b]).toArray } := by
    rw [put_of_fill first b (by simpa using length)]
    simp
  have handed : handOver { sink, buffer := (first ++ [b]).toArray } =
      .error (.device text) { sink := { sink with replies }, buffer := (first ++ [b]).toArray } := by
    unfold handOver
    rw [get_bind]
    refine bind_of_error ?_
    simp only [onSink, Sink.write_of_failed failed (List.append_ne_nil_of_right_ne_nil first
      (List.cons_ne_nil b []))]
  rw [put_append, whole]
  exact bind_of_error (fill.trans handed)

theorem ensures_flush : Ensures (fun o => o.total = out) flush
    fun _ o => o.sink.received = out ∧ o.buffer = #[] := by
  refine Ensures.bind ensures_handOver fun _ => ?_
  rintro o _ o' ⟨received, empty⟩ h
  obtain ⟨flushed, same⟩ := onSink_eq_ok h
  have kept := Sink.received_flush o.sink
  rw [flushed] at kept
  exact ⟨kept.trans received, same.trans empty⟩

theorem total_of_flush (h : flush o = .ok () o') : o'.total = o.total ∧ o'.buffer = #[] := by
  obtain ⟨received, empty⟩ := ensures_flush o _ o' rfl h
  refine ⟨?_, empty⟩
  rw [total, received, empty, Array.toList_empty, List.append_nil]

/-- A flush that fails has added nothing and taken nothing away if the sink has accepted none of the
buffered bytes or all of them. -/
theorem total_of_failed_flush {fault : DataFault} (h : flush o = .error fault o')
    (whole : o'.sink.received = o.sink.received ∨ o'.buffer = #[]) : o'.total = o.total := by
  unfold flush at h
  cases hx : handOver o with
  | ok _ t =>
      -- the failure is that of the flushed sink, and the buffer has been handed over before
      rw [bind_of_ok hx] at h
      obtain ⟨received, empty⟩ := ensures_handOver o _ t rfl hx
      obtain ⟨flushed, same⟩ := onSink_eq_error h
      have kept := Sink.received_flush t.sink
      rw [flushed] at kept
      rw [total, same, empty, Array.toList_empty, List.append_nil]
      exact Eq.trans kept received
  | error _ t =>
      rw [bind_of_error hx] at h
      cases h
      unfold handOver at hx
      rw [get_bind] at hx
      cases hs : onSink (Sink.write o.buffer.toList) o with
      | ok _ t => rw [bind_of_ok hs] at hx; cases hx
      | error _ t =>
          rw [bind_of_error hs] at hx
          cases hx
          obtain ⟨written, same⟩ := onSink_eq_error hs
          rcases whole with unchanged | empty
          · rw [total, unchanged, same, total]
          · rw [← same, empty, Array.toList_empty, Sink.write_nil] at written
            cases written

end Outlet

end TypedJson
