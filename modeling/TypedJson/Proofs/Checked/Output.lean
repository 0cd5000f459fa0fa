import TypedJson.Proofs.Checked.Operation
import TypedJson.Proofs.Output.Total

/-!
# Checked output

Bytes are copied into the buffer in runs, as many at a time as it has room for. Each copy is checked
against the ends of the buffer and of the bytes. However the sink behaves, no check fails and the
loop over the runs ends.
-/

set_option autoImplicit false
set_option relaxedAutoImplicit false

namespace TypedJson

open Operation
open CheckedM (demand plain)

namespace Outlet

def Within (o : Outlet) : Prop :=
  o.buffer.size ≤ capacity

namespace Checked

/-- Copies as many bytes as the buffer has room for, and hands a full buffer over. The answer is the
number of bytes copied by then. -/
def round (bytes : Array UInt8) (pos : Nat) : CheckedM DataFault Outlet Nat := do
  let o ← get
  demand (o.buffer.size ≤ capacity)
  demand (pos ≤ bytes.size)
  let count := min (capacity - o.buffer.size) (bytes.size - pos)
  demand (o.buffer.size + count ≤ capacity)
  demand (pos + count ≤ bytes.size)
  set { o with buffer := o.buffer ++ bytes.extract pos (pos + count) }
  if capacity ≤ o.buffer.size + count then plain handOver
  pure (pos + count)

def put (bytes : Array UInt8) (pos : Nat) : CheckedM DataFault Outlet Unit :=
  CheckedM.loop (fun pos => do
    if pos < bytes.size then
      let pos ← round bytes pos
      pure (.inl pos)
    else pure (.inr ())) pos

def flush : CheckedM DataFault Outlet Unit := do
  demand ((← get).buffer.size ≤ capacity)
  plain Outlet.flush

end Checked

variable {o o' : Outlet} {bytes : Array UInt8} {pos : Nat}

theorem buffer_of_handOver : Ensures (fun _ => True) handOver fun _ o => o.buffer = #[] := by
  intro o _ o' _ h
  exact (ensures_handOver o _ o' rfl h).2

theorem buffer_of_failed_handOver {fault : DataFault} (h : handOver o = .error fault o') :
    o'.buffer = o.buffer := by
  unfold handOver at h
  rw [get_bind] at h
  rcases bind_eq_error.mp h with failed | ⟨_, _, _, emptied⟩
  · exact (onSink_eq_error failed).2
  · cases emptied

theorem put_cons (b : UInt8) (rest : List UInt8) :
    Outlet.put (b :: rest) = (do
      handOverFull
      modify fun o => { o with buffer := o.buffer.push b }
      handOverFull
      Outlet.put rest) := by
  change (do push b; Outlet.put rest) = _
  simp only [push, bind_assoc]

theorem put_of_full {rest : List UInt8} (full : capacity ≤ o.buffer.size) (some : rest ≠ []) :
    Outlet.put rest o = (do handOver; Outlet.put rest) o := by
  obtain ⟨b, rest, rfl⟩ := List.exists_cons_of_ne_nil some
  have found := handOverFull_of_le full
  cases emptied : handOver o with
  | ok _ o₁ =>
      have room : o₁.buffer.size < capacity := by
        rw [buffer_of_handOver _ _ _ trivial emptied]
        exact Nat.zero_lt_succ _
      rw [bind_of_ok emptied, put_cons, bind_of_ok (found.trans emptied),
        bind_of_ok (handOverFull_of_lt room)]
  | error fault o₁ => rw [put_cons, bind_of_error (found.trans emptied), bind_of_error emptied]

theorem put_of_le {rest : List UInt8} (within : o.Within) (some : rest ≠ [])
    (long : capacity ≤ o.buffer.size + rest.length) :
    Outlet.put rest o = (do handOver; Outlet.put (rest.drop (capacity - o.buffer.size)))
      { o with buffer := o.buffer ++ (rest.take (capacity - o.buffer.size)).toArray } := by
  unfold Within at within
  cases room : capacity - o.buffer.size with
  | zero =>
      have same : o.buffer ++ (rest.take 0).toArray = o.buffer := by simp
      rw [same, List.drop_zero]
      exact put_of_full (by omega) some
  | succ n =>
      have inside : n < rest.length := by omega
      have parts : rest.take (n + 1) = rest.take n ++ [rest[n]] :=
        List.take_succ_eq_append_getElem inside
      have fill := put_of_fill (o := o) (rest.take n) rest[n]
        (by rw [List.length_take]; omega)
      rw [← parts] at fill
      have whole := put_append (rest.take (n + 1)) (rest.drop (n + 1))
      rw [List.take_append_drop] at whole
      rw [whole]
      cases emptied : handOver { o with buffer := o.buffer ++ (rest.take (n + 1)).toArray } with
      | ok _ o₁ => rw [bind_of_ok (fill.trans emptied), bind_of_ok emptied]
      | error fault o₁ => rw [bind_of_error (fill.trans emptied), bind_of_error emptied]

theorem within_of_handOver (within : o.Within) : (final (handOver o)).Within := by
  unfold Within at within ⊢
  cases emptied : handOver o with
  | ok _ o₁ =>
      rw [final, buffer_of_handOver _ _ _ trivial emptied]
      exact Nat.zero_le _
  | error fault o₁ =>
      rw [final, buffer_of_failed_handOver emptied]
      exact within

theorem extract_eq_take (bytes : Array UInt8) (pos count : Nat) :
    bytes.extract pos (pos + count) = ((bytes.toList.drop pos).take count).toArray := by
  apply Array.toList_inj.mp
  simp

namespace Checked

theorem round_eq (within : o.Within) (inside : pos < bytes.size) :
    let count := min (capacity - o.buffer.size) (bytes.size - pos)
    let o' := { o with buffer := o.buffer ++ ((bytes.toList.drop pos).take count).toArray }
    round bytes pos o =
      if capacity ≤ o.buffer.size + count then (do plain handOver; pure (pos + count)) o'
      else some (.ok (pos + count), o') := by
  intro count o'
  unfold Within at within
  have copied : o.buffer.size + count ≤ capacity := by omega
  have taken : pos + count ≤ bytes.size := by omega
  unfold round
  rw [CheckedM.get_bind, CheckedM.demand_bind within, CheckedM.demand_bind (Nat.le_of_lt inside),
    CheckedM.demand_bind copied, CheckedM.demand_bind taken, extract_eq_take]
  change (if capacity ≤ o.buffer.size + count then (do plain handOver; pure (pos + count))
    else pure (pos + count) : CheckedM DataFault Outlet Nat) o' = _
  split <;> rfl

/-- However the sink behaves, a round ends without a failed check: it copies a byte at least, or it
empties a buffer found full, or it fails. -/
theorem round_progress (within : o.Within) (inside : pos < bytes.size) :
    (∃ pos' o', round bytes pos o = some (.ok pos', o') ∧ o'.Within ∧ pos' ≤ bytes.size ∧
      (pos < pos' ∨ pos' = pos ∧ o.buffer.size = capacity ∧ o'.buffer = #[])) ∨
    ∃ fault o', round bytes pos o = some (.error (.error fault), o') ∧ o'.Within := by
  have run := round_eq within inside
  dsimp only at run
  have size : o.buffer.size ≤ capacity := within
  generalize hc : min (capacity - o.buffer.size) (bytes.size - pos) = count at run
  generalize ho : { o with buffer := o.buffer ++ ((bytes.toList.drop pos).take count).toArray } = o'
    at run
  have grown : o'.buffer.size = o.buffer.size + count := by
    rw [← ho]
    simp
    omega
  have within' : o'.Within := by
    unfold Within
    omega
  by_cases full : capacity ≤ o.buffer.size + count
  · rw [if_pos full] at run
    have kept := within_of_handOver within'
    cases emptied : handOver o' with
    | ok _ o₁ =>
        rw [emptied] at kept
        have round := run.trans (CheckedM.bind_of_ok (CheckedM.plain_of_ok emptied))
        refine .inl ⟨pos + count, o₁, round, kept, by omega, ?_⟩
        rcases Nat.eq_zero_or_pos count with none | some
        · exact .inr ⟨by omega, by omega, buffer_of_handOver _ _ _ trivial emptied⟩
        · exact .inl (by omega)
    | error fault o₁ =>
        rw [emptied] at kept
        have round := run.trans (CheckedM.bind_of_stop (CheckedM.plain_of_error emptied))
        exact .inr ⟨fault, o₁, round, kept⟩
  · rw [if_neg full] at run
    exact .inl ⟨pos + count, o', run, within', by omega, .inl (by omega)⟩

theorem put_done (behind : bytes.size ≤ pos) (o : Outlet) : put bytes pos o = some (.ok (), o) := by
  refine CheckedM.loop_of_inr ?_
  rw [if_neg (Nat.not_lt.mpr behind)]
  rfl

theorem put_step (inside : pos < bytes.size) :
    put bytes pos = (do let pos ← round bytes pos; put bytes pos) := by
  rw [put, CheckedM.loop_step, if_pos inside, bind_assoc]
  rfl

/-- Bytes are put out with the checks as without: no check fails, and the rounds come to an end. A
round leaves fewer bytes to copy, or an empty buffer in place of a full one. -/
theorem realized_put (within : o.Within) :
    Realized (fun _ s t => s = t ∧ t.Within) (fun s t => s = t ∧ t.Within) (put bytes pos o)
      (Outlet.put (bytes.toList.drop pos) o) := by
  induction left : bytes.size - pos + (if capacity ≤ o.buffer.size then 1 else 0)
    using Nat.strongRecOn generalizing o pos with
  | _ n ih =>
  by_cases inside : pos < bytes.size
  case neg =>
    have nothing : bytes.toList.drop pos = [] := List.drop_eq_nil_of_le (Nat.not_lt.mp inside)
    rw [put_done (Nat.not_lt.mp inside), nothing]
    exact .ok ⟨rfl, within⟩
  have run := round_eq within inside
  have size : o.buffer.size ≤ capacity := within
  have length : (bytes.toList.drop pos).length = bytes.size - pos := by simp
  dsimp only at run
  generalize hc : min (capacity - o.buffer.size) (bytes.size - pos) = count at run
  generalize ho : { o with buffer := o.buffer ++ ((bytes.toList.drop pos).take count).toArray } = o'
    at run
  have within' : o'.Within := by
    rw [← ho, Within]
    simp
    omega
  rw [put_step inside]
  by_cases full : capacity ≤ o.buffer.size + count
  · rw [if_pos full] at run
    obtain rfl : count = capacity - o.buffer.size := by omega
    have more : bytes.toList.drop pos ≠ [] := List.ne_nil_of_length_pos (by omega)
    rw [put_of_le within more (by omega), List.drop_drop, ho]
    have kept := within_of_handOver within'
    cases emptied : handOver o' with
    | ok _ o₁ =>
        rw [emptied] at kept
        have empty : o₁.buffer.size = 0 := by
          rw [buffer_of_handOver _ _ _ trivial emptied, Array.size_empty]
        have room : ¬ capacity ≤ o₁.buffer.size := by
          rw [empty]
          exact Nat.not_le.mpr (Nat.zero_lt_succ _)
        have round := run.trans (CheckedM.bind_of_ok (CheckedM.plain_of_ok emptied))
        rw [bind_of_ok emptied, CheckedM.bind_of_ok round]
        refine ih _ ?_ kept rfl
        rw [if_neg room]
        split at left <;> omega
    | error fault o₁ =>
        rw [emptied] at kept
        have round := run.trans (CheckedM.bind_of_stop (CheckedM.plain_of_error emptied))
        rw [bind_of_error emptied, CheckedM.bind_of_stop round]
        exact .error ⟨rfl, kept⟩
  · rw [if_neg full] at run
    obtain rfl : count = bytes.size - pos := by omega
    have whole : (bytes.toList.drop pos).take (bytes.size - pos) = bytes.toList.drop pos :=
      List.take_of_length_le (Nat.le_of_eq length)
    rw [whole] at ho
    rw [CheckedM.bind_of_ok run, put_done (by omega), put_of_lt (by omega), ho]
    exact .ok ⟨rfl, within'⟩

theorem safe_put (bytes : List UInt8) :
    Safe Within (put bytes.toArray 0) (Outlet.put bytes) Within Within :=
  Safe.of_forall fun _ within => realized_put within

theorem within_of_flush (within : o.Within) : (final (Outlet.flush o)).Within := by
  have kept := within_of_handOver within
  unfold Outlet.flush
  cases emptied : handOver o with
  | ok _ o₁ =>
      rw [emptied] at kept
      rw [bind_of_ok emptied]
      cases flushed : onSink Sink.flush o₁ with
      | ok _ o₂ =>
          rw [final, Within, (onSink_eq_ok flushed).2]
          exact kept
      | error fault o₂ =>
          rw [final, Within, (onSink_eq_error flushed).2]
          exact kept
  | error fault o₁ =>
      rw [emptied] at kept
      rw [bind_of_error emptied]
      exact kept

theorem safe_flush : Safe Within flush Outlet.flush Within Within :=
  Safe.demand_get (fun _ within => within) (Safe.plain fun _ within => within_of_flush within)

end Checked

end Outlet

end TypedJson
