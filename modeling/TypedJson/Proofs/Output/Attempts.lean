import TypedJson.Proofs.Output.Prefix

/-!
# The attempts that an output takes

What the buffer lets through to the sink for some bytes that are put out and flushed: its content
each time that it is full, the rest, and the flushes. The sink answers attempt by attempt, and the
output fails if and only if one of the answers is a failure, and then for that reason.
-/

set_option autoImplicit false
set_option relaxedAutoImplicit false

namespace TypedJson

open Operation

inductive Attempt where
  | write (answer : Acceptance)
  | flush (answer : Except String Unit)

/-- The failure that the answer amounts to. An interrupted attempt is none, for it is repeated; to
accept nothing is one. -/
def Attempt.fault? : Attempt → Option DataFault
  | .write .interrupted => none
  | .write (.accepted 0) => some .refused
  | .write (.accepted (_ + 1)) => none
  | .write (.failed text) => some (.device text)
  | .flush (.ok ()) => none
  | .flush (.error text) => some (.device text)

/-- What is asked of a sink: to take all of some bytes, or to flush. -/
inductive Demand where
  | write (data : List UInt8)
  | flush

namespace Sink

/-- The answers to the attempts past the script, as many as handing over some bytes takes. -/
def steadyAnswers : Except String Nat → Nat → List Acceptance
  | .error text, _ => [.failed text]
  | .ok n, count => List.replicate ((count - 1) / n + 1) (.accepted n)

/-- The answers to the attempts that it takes to hand over some bytes, up to the first failure. -/
def answers (steady : Except String Nat) : List Acceptance → Nat → List Acceptance
  | _, 0 => []
  | [], count + 1 => steadyAnswers steady (count + 1)
  | .interrupted :: rest, count + 1 => .interrupted :: answers steady rest (count + 1)
  | .accepted (n + 1) :: rest, count + 1 => .accepted (n + 1) :: answers steady rest (count - n)
  | reply :: _, _ => [reply]

end Sink

namespace Demand

def run : Demand → SinkM Unit
  | write data => Sink.write data
  | flush => Sink.flush

/-- The answers of a sink to the attempts that a demand takes. -/
def attempts (s : Sink) : Demand → List Attempt
  | write data => (Sink.answers s.steady s.replies data.length).map Attempt.write
  | flush => [.flush (s.flushes.headD s.steadyFlush)]

def runAll (demands : List Demand) : SinkM Unit :=
  demands.forM run

theorem runAll_append (ds ds' : List Demand) :
    runAll (ds ++ ds') = (do runAll ds; runAll ds') :=
  List.forM_append

end Demand

namespace Sink

/-- The answers of a sink to all attempts that some demands take, up to the first failure. -/
def attempts : Sink → List Demand → List Attempt
  | _, [] => []
  | s, d :: demands =>
      d.attempts s ++
        match d.run s with
        | .ok () t => t.attempts demands
        | .error _ _ => []

variable {s : Sink}

theorem error?_writeSteady (data : List UInt8) (s : Sink) :
    error? (writeSteady data s) =
      ((steadyAnswers s.steady data.length).map Attempt.write).findSome? Attempt.fault? := by
  obtain ⟨received, replies, steady, flushes, steadyFlush⟩ := s
  unfold writeSteady
  rw [get_bind]
  cases steady with
  | error text => rfl
  | ok n =>
      rw [steadyAnswers, List.map_replicate]
      cases n with
      | zero => rfl
      | succ n =>
          symm
          refine List.findSome?_eq_none_iff.mpr fun a ha => ?_
          rw [List.eq_of_mem_replicate ha]
          rfl

theorem error?_writeScripted {replies : List Acceptance} (data : List UInt8) (s : Sink) :
    error? (writeScripted replies data s) =
      ((answers s.steady replies data.length).map Attempt.write).findSome? Attempt.fault? := by
  induction replies generalizing data s with
  | nil =>
      cases data with
      | nil => rfl
      | cons b data => exact error?_writeSteady (b :: data) s
  | cons reply rest ih =>
      cases data with
      | nil => cases reply <;> rfl
      | cons b data =>
          cases reply with
          | interrupted => exact ih (b :: data) { s with replies := rest }
          | failed text => rfl
          | accepted n =>
              cases n with
              | zero => rfl
              | succ n =>
                  have left := ih ((b :: data).drop (n + 1))
                    { s with replies := rest, received := s.received ++ (b :: data).take (n + 1) }
                  rw [List.drop_succ_cons, List.length_drop] at left
                  exact left

theorem error?_flush (s : Sink) :
    error? (flush s) = (Attempt.flush (s.flushes.headD s.steadyFlush)).fault? := by
  obtain ⟨received, replies, steady, flushes, steadyFlush⟩ := s
  cases flushes with
  | nil => cases steadyFlush <;> rfl
  | cons answer rest => cases answer <;> rfl

/-- A demand fails for the reason of the attempt that fails, and if none fails it succeeds. -/
theorem error?_run (d : Demand) (s : Sink) :
    error? (d.run s) = (d.attempts s).findSome? Attempt.fault? := by
  cases d with
  | write data => exact error?_writeScripted data s
  | flush =>
      rw [Demand.attempts, List.findSome?_singleton]
      exact error?_flush s

theorem error?_runAll (demands : List Demand) (s : Sink) :
    error? (Demand.runAll demands s) = (s.attempts demands).findSome? Attempt.fault? := by
  induction demands generalizing s with
  | nil => rfl
  | cons d demands ih =>
      have first := error?_run d s
      rw [attempts, List.findSome?_append, ← first]
      cases h : d.run s with
      | ok _ t =>
          have rest : Demand.runAll (d :: demands) s = Demand.runAll demands t := bind_of_ok h
          rw [rest]
          exact ih t
      | error fault t =>
          have stop : Demand.runAll (d :: demands) s = .error fault t := bind_of_error h
          rw [stop]
          rfl

end Sink

namespace Outlet

/-- From this buffer on, the operation comes down to these demands on the sink. If they succeed it
leaves the second buffer, and otherwise it fails for the same reason. -/
structure Asks (x : OutletM Unit) (buffer : Array UInt8) (demands : List Demand)
    (buffer' : Array UInt8) : Prop where
  done : ∀ {s s' : Sink}, Demand.runAll demands s = .ok () s' →
    x { sink := s, buffer } = .ok () { sink := s', buffer := buffer' }
  failed : ∀ {s s' : Sink} {fault : DataFault}, Demand.runAll demands s = .error fault s' →
    ∃ left, x { sink := s, buffer } = .error fault { sink := s', buffer := left }

/-- Puts bytes out and flushes twice. The output of a whole document comes down to this, for it is
flushed when the document is closed, and when the writer is given up. -/
def deliver (bytes : List UInt8) : OutletM Unit := do
  put bytes
  flush
  flush

/-- What a delivery asks of the sink: to take the bytes in blocks, each of which fills the buffer
but for the last, and to flush. -/
def demands (bytes : List UInt8) : List Demand :=
  if capacity ≤ bytes.length then .write (bytes.take capacity) :: demands (bytes.drop capacity)
  else [.write bytes, .flush, .flush]
termination_by bytes.length
decreasing_by
  have positive : 0 < capacity := Nat.succ_pos 1023
  rw [List.length_drop]
  omega

section

variable {b b' b'' : Array UInt8} {ds ds' : List Demand} {c : UInt8}

theorem Asks.bind {x y : OutletM Unit} (hx : Asks x b ds b') (hy : Asks y b' ds' b'') :
    Asks (do x; y) b (ds ++ ds') b'' where
  done {s s'} h := by
    rw [Demand.runAll_append] at h
    obtain ⟨_, t, first, rest⟩ := bind_eq_ok.mp h
    exact (bind_of_ok (hx.done first)).trans (hy.done rest)
  failed {s s' fault} h := by
    rw [Demand.runAll_append] at h
    rcases bind_eq_error.mp h with first | ⟨_, t, first, rest⟩
    · obtain ⟨left, first⟩ := hx.failed first
      exact ⟨left, bind_of_error first⟩
    · obtain ⟨left, rest⟩ := hy.failed rest
      exact ⟨left, (bind_of_ok (hx.done first)).trans rest⟩

theorem Asks.silent {x : OutletM Unit}
    (hx : ∀ s, x { sink := s, buffer := b } = .ok () { sink := s, buffer := b' }) :
    Asks x b [] b' where
  done {s _} h := by
    cases h
    exact hx s
  failed h := by cases h

theorem asks_onSink (d : Demand) : Asks (onSink d.run) b [d] b where
  done {s s'} h := by
    obtain ⟨_, t, run, rest⟩ := bind_eq_ok.mp h
    cases rest
    simp only [onSink, run]
  failed {s s' fault} h := by
    rcases bind_eq_error.mp h with run | ⟨_, t, -, rest⟩
    · exact ⟨b, by simp only [onSink, run]⟩
    · cases rest

theorem asks_handOver : Asks handOver b [.write b.toList] #[] where
  done {s s'} h := by
    have write := (asks_onSink (b := b) (.write b.toList)).done h
    exact (bind_of_ok write :)
  failed {s s' fault} h := by
    obtain ⟨left, write⟩ := (asks_onSink (b := b) (.write b.toList)).failed h
    exact ⟨left, (bind_of_error write :)⟩

theorem asks_handOverFull_of_lt (h : b.size < capacity) : Asks handOverFull b [] b :=
  Asks.silent fun s => handOverFull_of_lt (o := { sink := s, buffer := b }) h

theorem asks_handOverFull_of_le (h : capacity ≤ b.size) :
    Asks handOverFull b [.write b.toList] #[] := by
  have full (s : Sink) : handOverFull { sink := s, buffer := b } =
      handOver { sink := s, buffer := b } := by
    unfold handOverFull
    rw [get_bind, if_pos h]
  exact ⟨fun {s _} run => (full s).trans (asks_handOver.done run),
    fun {s _ _} run => (full s).symm ▸ asks_handOver.failed run⟩

theorem asks_push {ds : List Demand} (room : b.size < capacity)
    (stored : Asks handOverFull (b.push c) ds b') : Asks (push c) b ds b' := by
  have store : Asks (modify fun o => { o with buffer := o.buffer.push c } : OutletM PUnit) b []
      (b.push c) := Asks.silent fun _ => rfl
  exact (asks_handOverFull_of_lt room).bind (store.bind stored)

/-- Two flushes ask for the rest once, for the second one finds nothing. -/
theorem asks_flush_flush : Asks (do flush; flush) b [.write b.toList, .flush, .flush] #[] := by
  have again : Asks handOver #[] [] #[] := by
    refine Asks.silent fun s => ?_
    have nothing : onSink (Sink.write []) { sink := s, buffer := #[] } =
        .ok () { sink := s, buffer := #[] } := by
      simp only [onSink, Sink.write_nil]
    exact (bind_of_ok nothing :)
  have pass : Asks (onSink Sink.flush) #[] [.flush] #[] := asks_onSink .flush
  have first : Asks flush b [.write b.toList, .flush] #[] := asks_handOver.bind pass
  have second : Asks flush #[] [.flush] #[] := again.bind pass
  exact first.bind second

theorem asks_deliver (bytes : List UInt8) (room : b.size < capacity) :
    Asks (deliver bytes) b (demands (b.toList ++ bytes)) #[] := by
  unfold deliver
  induction bytes generalizing b with
  | nil =>
      have short : ¬ capacity ≤ b.toList.length := Nat.not_le.mpr room
      rw [List.append_nil, demands, if_neg short]
      exact asks_flush_flush
  | cons c bytes ih =>
      have byte : put (c :: bytes) = (do push c; put bytes) := rfl
      have parts : b.toList ++ c :: bytes = (b.push c).toList ++ bytes := by
        rw [Array.toList_push, List.append_assoc, List.singleton_append]
      rw [byte, bind_assoc, parts]
      by_cases more : (b.push c).size < capacity
      · exact (asks_push room (asks_handOverFull_of_lt more)).bind (ih more)
      · have full : (b.push c).toList.length = capacity := by
          rw [Array.length_toList]
          rw [Array.size_push] at more ⊢
          omega
        have long : capacity ≤ ((b.push c).toList ++ bytes).length := by
          rw [List.length_append]
          omega
        have block : ((b.push c).toList ++ bytes).take capacity = (b.push c).toList := by
          rw [← full, List.take_left]
        have rest : ((b.push c).toList ++ bytes).drop capacity = bytes := by
          rw [← full, List.drop_left]
        have handed := asks_push room (asks_handOverFull_of_le (Nat.not_lt.mp more))
        have later := ih (b := #[]) (Nat.succ_pos 1023)
        rw [demands, if_pos long, block, rest]
        exact handed.bind later

end

theorem forwards_deliver (bytes : List UInt8) : Forwards (deliver bytes) bytes := by
  have delivered := (forwards_put bytes).bind fun _ => forwards_flush.bind fun _ => forwards_flush
  rwa [List.append_nil, List.append_nil] at delivered

theorem received_of_deliver {bytes : List UInt8} {sink : Sink} {o : Outlet}
    (h : deliver bytes { sink } = .ok () o) : o.sink.received = sink.received ++ bytes := by
  obtain ⟨_, t, put, flushes⟩ := bind_eq_ok.mp h
  obtain ⟨_, u, first, second⟩ := bind_eq_ok.mp flushes
  have start : ({ sink } : Outlet).total = sink.received := List.append_nil _
  have whole := (total_of_flush first).1.trans (ensures_put bytes _ _ t start put)
  exact (ensures_flush u _ o whole second).1

/-- A delivery fails for the reason of the first attempt that fails, and it succeeds if none does. -/
theorem error?_deliver (bytes : List UInt8) (sink : Sink) :
    error? (deliver bytes { sink }) = (sink.attempts (demands bytes)).findSome? Attempt.fault? := by
  have asks : Asks (deliver bytes) #[] (demands bytes) #[] := asks_deliver bytes (Nat.succ_pos 1023)
  rw [← Sink.error?_runAll]
  cases run : Demand.runAll (demands bytes) sink with
  | ok _ s =>
      have done := asks.done run
      exact congrArg error? done
  | error fault s =>
      obtain ⟨left, failed⟩ := asks.failed run
      exact congrArg error? failed

end Outlet

end TypedJson
