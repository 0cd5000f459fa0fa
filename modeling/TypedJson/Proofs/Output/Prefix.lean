import TypedJson.Proofs.Output.Total

/-!
# What has been handed over

Bytes reach the sink in order, whatever an operation comes to. Behind one that fails the sink has
received a beginning of what was due: what the buffer held, and what the operation adds. Behind one
that succeeds the rest of that is in the buffer, which has room again.
-/

set_option autoImplicit false
set_option relaxedAutoImplicit false

namespace TypedJson

open Operation

namespace Sink

theorem received_of_failed_writeSteady {data : List UInt8} {s t : Sink} {fault : DataFault}
    (h : writeSteady data s = .error fault t) : t = s := by
  unfold writeSteady at h
  rw [get_bind] at h
  cases steady : s.steady with
  | error text =>
      rw [steady] at h
      cases h
      rfl
  | ok n =>
      rw [steady] at h
      cases n with
      | zero =>
          cases h
          rfl
      | succ n => cases h

theorem received_of_failed_writeScripted {replies : List Acceptance} {data : List UInt8}
    {s t : Sink} {fault : DataFault} (h : writeScripted replies data s = .error fault t) :
    ∃ sent, t.received = s.received ++ sent ∧ sent <+: data := by
  induction replies generalizing data s with
  | nil =>
      cases data with
      | nil => cases h
      | cons b data =>
          obtain rfl := received_of_failed_writeSteady h
          exact ⟨[], (List.append_nil _).symm, List.nil_prefix⟩
  | cons reply rest ih =>
      cases data with
      | nil => cases h
      | cons b data =>
          cases reply with
          | interrupted => exact ih (s := { s with replies := rest }) h
          | failed text =>
              cases h
              exact ⟨[], (List.append_nil _).symm, List.nil_prefix⟩
          | accepted n =>
              cases n with
              | zero =>
                  cases h
                  exact ⟨[], (List.append_nil _).symm, List.nil_prefix⟩
              | succ n =>
                  let taken : Sink :=
                    { s with replies := rest, received := s.received ++ (b :: data).take (n + 1) }
                  obtain ⟨sent, received, unsent, parts⟩ := ih (s := taken) h
                  refine ⟨(b :: data).take (n + 1) ++ sent, ?_, unsent, ?_⟩
                  · rw [received, List.append_assoc]
                  · rw [List.append_assoc, parts, List.take_append_drop]

theorem received_of_failed_write {data : List UInt8} {s t : Sink} {fault : DataFault}
    (h : write data s = .error fault t) :
    ∃ sent, t.received = s.received ++ sent ∧ sent <+: data :=
  received_of_failed_writeScripted h

end Sink

namespace Outlet

variable {o o' o'' : Outlet} {bytes bytes' : List UInt8}

/-- Between two states some bytes have been added. What the sink has received since is the beginning
of what was due, and the end of that is in the buffer. -/
def Forwarded (o o' : Outlet) (bytes : List UInt8) : Prop :=
  ∃ sent, o'.sink.received = o.sink.received ++ sent ∧
    sent ++ o'.buffer.toList = o.buffer.toList ++ bytes

/-- Between two states some bytes should have been added. What the sink has received since is a
beginning of what was due. -/
def CutOff (o o' : Outlet) (bytes : List UInt8) : Prop :=
  ∃ sent, o'.sink.received = o.sink.received ++ sent ∧ sent <+: o.buffer.toList ++ bytes

theorem Forwarded.refl : Forwarded o o [] :=
  ⟨[], (List.append_nil _).symm, (List.append_nil _).symm⟩

theorem Forwarded.trans (h : Forwarded o o' bytes) (h' : Forwarded o' o'' bytes') :
    Forwarded o o'' (bytes ++ bytes') := by
  obtain ⟨sent, received, due⟩ := h
  obtain ⟨more, received', due'⟩ := h'
  refine ⟨sent ++ more, ?_, ?_⟩
  · rw [received', received, List.append_assoc]
  · rw [List.append_assoc, due', ← List.append_assoc, due, List.append_assoc]

theorem Forwarded.cutOff (h : Forwarded o o' bytes) (h' : CutOff o' o'' bytes') :
    CutOff o o'' (bytes ++ bytes') := by
  obtain ⟨sent, received, due⟩ := h
  obtain ⟨more, received', unsent, parts⟩ := h'
  refine ⟨sent ++ more, ?_, unsent, ?_⟩
  · rw [received', received, List.append_assoc]
  · rw [List.append_assoc, parts, ← List.append_assoc, due, List.append_assoc]

theorem CutOff.more (h : CutOff o o' bytes) (bytes' : List UInt8) :
    CutOff o o' (bytes ++ bytes') := by
  obtain ⟨sent, received, inside⟩ := h
  refine ⟨sent, received, inside.trans ?_⟩
  rw [← List.append_assoc]
  exact List.prefix_append _ _

structure Forwards {α : Type} (x : OutletM α) (bytes : List UInt8) : Prop where
  done : ∀ {o o' : Outlet} {a : α}, x o = .ok a o' → Forwarded o o' bytes
  failed : ∀ {o o' : Outlet} {fault : DataFault}, x o = .error fault o' → CutOff o o' bytes

section

variable {α β : Type}

theorem Forwards.bind {x : OutletM α} {f : α → OutletM β} (hx : Forwards x bytes)
    (hf : ∀ a, Forwards (f a) bytes') : Forwards (x >>= f) (bytes ++ bytes') where
  done h := by
    obtain ⟨a, t, first, rest⟩ := bind_eq_ok.mp h
    exact (hx.done first).trans ((hf a).done rest)
  failed h := by
    rcases bind_eq_error.mp h with first | ⟨a, t, first, rest⟩
    · exact (hx.failed first).more bytes'
    · exact (hx.done first).cutOff ((hf a).failed rest)

theorem Forwards.modify {g : Outlet → Outlet} (sink : ∀ o, (g o).sink = o.sink)
    (buffer : ∀ o, (g o).buffer.toList = o.buffer.toList ++ bytes) :
    Forwards (modify g : OutletM PUnit) bytes where
  done {o o' _} h := by
    cases h
    exact ⟨[], by rw [sink, List.append_nil], by rw [List.nil_append, buffer]⟩
  failed h := by cases h

theorem forwards_pure (a : α) : Forwards (pure a : OutletM α) [] where
  done h := by
    cases h
    exact .refl
  failed h := by cases h

end

theorem forwards_handOver : Forwards handOver [] where
  done {o o' _} h := by
    obtain ⟨received, empty⟩ := ensures_handOver o _ o' rfl h
    refine ⟨o.buffer.toList, received, ?_⟩
    rw [empty, Array.toList_empty]
  failed {o o' fault} h := by
    unfold handOver at h
    rw [get_bind] at h
    rcases bind_eq_error.mp h with write | ⟨_, t, -, clear⟩
    · obtain ⟨write, -⟩ := onSink_eq_error write
      obtain ⟨sent, received, inside⟩ := Sink.received_of_failed_write write
      exact ⟨sent, received, by rwa [List.append_nil]⟩
    · cases clear

theorem forwards_handOverFull : Forwards handOverFull [] where
  done {o o' _} h := by
    unfold handOverFull at h
    rw [get_bind] at h
    split at h
    · exact forwards_handOver.done h
    · exact (forwards_pure ()).done h
  failed {o o' fault} h := by
    unfold handOverFull at h
    rw [get_bind] at h
    split at h
    · exact forwards_handOver.failed h
    · exact (forwards_pure ()).failed h

theorem forwards_push (b : UInt8) : Forwards (push b) [b] := by
  have store :
      Forwards (modify fun o => { o with buffer := o.buffer.push b } : OutletM PUnit) [b] :=
    Forwards.modify (fun _ => rfl) fun _ => Array.toList_push
  exact forwards_handOverFull.bind fun _ => store.bind fun _ => forwards_handOverFull

theorem forwards_put (bytes : List UInt8) : Forwards (put bytes) bytes := by
  induction bytes with
  | nil => exact forwards_pure ()
  | cons b bytes ih => exact (forwards_push b).bind fun _ => ih

theorem forwards_flush : Forwards flush [] := by
  refine forwards_handOver.bind fun _ => ⟨fun {o o' _} h => ?_, fun {o o' fault} h => ?_⟩
  · obtain ⟨flushed, same⟩ := onSink_eq_ok h
    have kept := Sink.received_flush o.sink
    rw [flushed] at kept
    exact ⟨[], kept.trans (List.append_nil _).symm, by rw [same, List.append_nil, List.nil_append]⟩
  · obtain ⟨flushed, -⟩ := onSink_eq_error h
    have kept := Sink.received_flush o.sink
    rw [flushed] at kept
    exact ⟨[], kept.trans (List.append_nil _).symm, List.nil_prefix⟩

/-! Behind every success there is room for a byte. -/

def HasRoom (o : Outlet) : Prop :=
  o.buffer.size < capacity

theorem hasRoom_new (sink : Sink) : HasRoom { sink } :=
  Nat.succ_pos 1023

theorem hasRoom_of_handOver : Ensures (fun _ => True) handOver fun _ => HasRoom := by
  intro o _ o' _ h
  obtain ⟨-, empty⟩ := ensures_handOver o _ o' rfl h
  rw [HasRoom, empty]
  decide

theorem hasRoom_of_handOverFull : Ensures (fun _ => True) handOverFull fun _ => HasRoom := by
  intro o _ o' _ h
  unfold handOverFull at h
  rw [get_bind] at h
  split at h
  · exact hasRoom_of_handOver o _ o' trivial h
  · rename_i full
    cases h
    exact Nat.not_le.mp full

theorem hasRoom_of_push (b : UInt8) : Ensures (fun _ => True) (push b) fun _ => HasRoom :=
  Ensures.bind hasRoom_of_handOverFull fun _ =>
    Ensures.bind (Ensures.modify fun _ _ => trivial) fun _ => hasRoom_of_handOverFull

theorem hasRoom_of_put (bytes : List UInt8) : Ensures HasRoom (put bytes) fun _ => HasRoom := by
  induction bytes with
  | nil => exact Ensures.pure fun _ room => room
  | cons b bytes ih =>
      refine Ensures.bind ?_ fun _ => ih
      exact (hasRoom_of_push b).weaken (fun _ _ => trivial) fun _ _ room => room

theorem hasRoom_of_flush {o o' : Outlet} (h : flush o = .ok () o') : o'.HasRoom := by
  obtain ⟨-, empty⟩ := total_of_flush h
  rw [HasRoom, empty]
  decide

end Outlet

end TypedJson
