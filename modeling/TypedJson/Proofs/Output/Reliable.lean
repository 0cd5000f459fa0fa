import TypedJson.Output.Outlet
import TypedJson.Proofs.Operation

set_option autoImplicit false
set_option relaxedAutoImplicit false

namespace TypedJson

open Operation

def Acceptance.IsReliable : Acceptance → Prop
  | .accepted n => 0 < n
  | .interrupted => True
  | .failed _ => False

/-- A sink that never fails and always accepts something in the end. -/
structure Sink.Reliable (s : Sink) : Prop where
  replies : ∀ a ∈ s.replies, a.IsReliable
  steady : ∃ n, s.steady = .ok (n + 1)
  flushes : ∀ a ∈ s.flushes, a = .ok ()
  steadyFlush : s.steadyFlush = .ok ()

namespace Sink

variable {out data : List UInt8}

theorem reliable_of_replies {replies : List Acceptance} (h : ∀ a ∈ replies, a.IsReliable) :
    ({ replies } : Sink).Reliable :=
  ⟨h, ⟨1023, rfl⟩, fun _ absent => absurd absent List.not_mem_nil, rfl⟩

theorem reliable_new : ({} : Sink).Reliable :=
  reliable_of_replies fun _ absent => absurd absent List.not_mem_nil

def Has (out : List UInt8) (s : Sink) : Prop :=
  s.Reliable ∧ s.received = out

theorem Has.append {s : Sink} (h : s.Has out) (data : List UInt8) :
    Has (out ++ data) { s with received := s.received ++ data } := by
  obtain ⟨⟨replies, steady, flushes, steadyFlush⟩, rfl⟩ := h
  exact ⟨⟨replies, steady, flushes, steadyFlush⟩, rfl⟩

theorem attains_writeSteady : Attains (Has out) (writeSteady data) fun _ => Has (out ++ data) := by
  rintro ⟨received, replies, steady, flushes, steadyFlush⟩ hs
  obtain ⟨n, hn⟩ := hs.1.steady
  cases hn
  exact ⟨(), _, rfl, hs.append data⟩

theorem attains_writeScripted {replies : List Acceptance} (hr : ∀ a ∈ replies, a.IsReliable) :
    Attains (Has out) (writeScripted replies data) fun _ => Has (out ++ data) := by
  induction replies generalizing out data with
  | nil =>
      cases data with
      | nil =>
          rw [List.append_nil]
          exact Attains.pure fun _ h => h
      | cons b data => exact attains_writeSteady
  | cons reply rest ih =>
      obtain ⟨first, later⟩ := List.forall_mem_cons.mp hr
      have script : Attains (Has out) (modify fun s => { s with replies := rest } : SinkM PUnit)
          fun _ => Has out := by
        refine Attains.modify fun s hs => ?_
        obtain ⟨⟨-, steady, flushes, steadyFlush⟩, received⟩ := hs
        exact ⟨⟨later, steady, flushes, steadyFlush⟩, received⟩
      cases data with
      | nil =>
          rw [List.append_nil]
          exact Attains.pure fun _ h => h
      | cons b data =>
          refine Attains.bind script fun _ => ?_
          cases reply with
          | interrupted => exact ih later
          | failed text => exact absurd first id
          | accepted n =>
              obtain ⟨n, rfl⟩ : ∃ k, n = k + 1 := ⟨n - 1, by have : 0 < n := first; omega⟩
              have parts : out ++ b :: data =
                  out ++ (b :: data).take (n + 1) ++ (b :: data).drop (n + 1) := by
                rw [List.append_assoc, List.take_append_drop]
              rw [parts]
              exact Attains.bind (Attains.modify fun s hs => hs.append _) fun _ => ih later

theorem attains_write : Attains (Has out) (write data) fun _ => Has (out ++ data) :=
  fun s hs => attains_writeScripted hs.1.replies s hs

theorem attains_flush : Attains (Has out) flush fun _ => Has out := by
  rintro s ⟨⟨replies, steady, flushes, steadyFlush⟩, received⟩
  unfold flush
  rw [get_bind]
  cases h : s.flushes with
  | nil =>
      refine ⟨(), s, ?_, ⟨replies, steady, flushes, steadyFlush⟩, received⟩
      simp only [steadyFlush]
      rfl
  | cons answer rest =>
      rw [h] at flushes
      obtain ⟨rfl, later⟩ := List.forall_mem_cons.mp flushes
      exact ⟨(), { s with flushes := rest }, rfl, ⟨replies, steady, later, steadyFlush⟩, received⟩

end Sink

namespace Outlet

variable {out : List UInt8}

/-- The bytes put out so far, some of them still in the buffer, over a reliable sink. -/
def Holds (out : List UInt8) (o : Outlet) : Prop :=
  o.sink.Reliable ∧ o.sink.received ++ o.buffer.toList = out

theorem holds_new {sink : Sink} (h : sink.Reliable) : Holds sink.received { sink } :=
  ⟨h, List.append_nil _⟩

theorem attains_onSink {α : Type} {x : SinkM α} {P : Sink → Prop} {Q : α → Sink → Prop}
    (hx : Attains P x Q) (buffer : Array UInt8) :
    Attains (fun o => P o.sink ∧ o.buffer = buffer) (onSink x) fun a o =>
      Q a o.sink ∧ o.buffer = buffer := by
  rintro o ⟨hs, rfl⟩
  obtain ⟨a, s, ha, hs⟩ := hx o.sink hs
  exact ⟨a, { o with sink := s }, by simp only [onSink, ha], hs, rfl⟩

theorem attains_handOver :
    Attains (Holds out) handOver fun _ o => o.sink.Has out ∧ o.buffer = #[] := by
  rintro o ⟨hs, rfl⟩
  have sink : Attains (Sink.Has o.sink.received) (Sink.write o.buffer.toList) fun _ =>
      Sink.Has (o.sink.received ++ o.buffer.toList) := Sink.attains_write
  have write := attains_onSink sink o.buffer
  have clear : Attains (fun o' => o'.sink.Has (o.sink.received ++ o.buffer.toList) ∧
      o'.buffer = o.buffer) (modify fun o => { o with buffer := #[] } : OutletM PUnit)
        fun _ o' => o'.sink.Has (o.sink.received ++ o.buffer.toList) ∧ o'.buffer = #[] :=
    Attains.modify fun _ h => ⟨h.1, rfl⟩
  exact Attains.bind write (fun _ => clear) o ⟨⟨hs, rfl⟩, rfl⟩

theorem attains_handOverFull : Attains (Holds out) handOverFull fun _ => Holds out := by
  intro o ho
  unfold handOverFull
  rw [get_bind]
  split
  · obtain ⟨_, o', hx, ⟨reliable, received⟩, empty⟩ := attains_handOver o ho
    exact ⟨(), o', hx, reliable, by simp [empty, received]⟩
  · exact ⟨(), o, rfl, ho⟩

theorem attains_push {b : UInt8} : Attains (Holds out) (push b) fun _ => Holds (out ++ [b]) := by
  refine Attains.bind attains_handOverFull fun _ => Attains.bind (Attains.modify ?_)
    fun _ => attains_handOverFull
  rintro o ⟨reliable, rfl⟩
  exact ⟨reliable, by simp⟩

theorem attains_put (bytes : List UInt8) :
    Attains (Holds out) (put bytes) fun _ => Holds (out ++ bytes) := by
  induction bytes generalizing out with
  | nil =>
      rw [List.append_nil]
      exact Attains.pure fun _ h => h
  | cons b bytes ih =>
      rw [List.append_cons]
      exact Attains.bind attains_push fun _ => ih

theorem attains_flush :
    Attains (Holds out) flush fun _ o => o.sink.Has out ∧ o.buffer = #[] :=
  Attains.bind attains_handOver fun _ => attains_onSink Sink.attains_flush #[]

end Outlet

end TypedJson
