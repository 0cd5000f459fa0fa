import TypedJson.Proofs.Writer.Session

set_option autoImplicit false
set_option relaxedAutoImplicit false

namespace TypedJson

open Operation

instance : DecidablePred WriteError.IsRefusal
  | .unavailable _ => .isFalse id
  | .misplaced _ _ | .nonFiniteNumber _ | .invalidNumber _ | .closed => .isTrue trivial

namespace Writer

variable {w v : Writer} {q : Request} {requests : List Request}

/-- What has come of a request, if it has been refused. -/
def IsRefused : EStateM.Result WriteError Writer Unit → Prop
  | .ok _ _ => False
  | .error e _ => e.IsRefusal

instance : DecidablePred IsRefused
  | .ok _ _ => .isFalse id
  | .error e _ => inferInstanceAs (Decidable e.IsRefusal)

/-- What comes of each request of a session, with the state behind it. -/
def outcomes : Writer → List Request → List (EStateM.Result WriteError Writer Unit)
  | _, [] => []
  | w, q :: requests => q.run w :: (final (q.run w)).outcomes requests

/-- The requests of a session that have not been refused. -/
def kept : Writer → List Request → List Request
  | _, [] => []
  | w, q :: requests =>
      let rest := (final (q.run w)).kept requests
      if IsRefused (q.run w) then rest else q :: rest

theorem state_of_refused {e : WriteError} (h : q.run w = .error e v) (refusal : e.IsRefusal) :
    v = w := by
  have outcome := q.outcome w
  rw [h] at outcome
  cases outcome with
  | refused => rfl
  | broken => exact refusal.elim
  | unflushed => exact refusal.elim

theorem final_of_refused (h : IsRefused (q.run w)) : final (q.run w) = w := by
  cases run : q.run w with
  | ok _ v =>
      rw [run] at h
      exact h.elim
  | error e v =>
      rw [run] at h
      exact state_of_refused run h

theorem after_kept : w.after (w.kept requests) = w.after requests := by
  induction requests generalizing w with
  | nil => rfl
  | cons q requests ih =>
      rw [kept, after]
      by_cases refused : IsRefused (q.run w)
      · rw [if_pos refused, final_of_refused refused]
        exact ih
      · rw [if_neg refused, after]
        exact ih

theorem outcomes_kept :
    w.outcomes (w.kept requests) = (w.outcomes requests).filter fun r => ¬ IsRefused r := by
  induction requests generalizing w with
  | nil => rfl
  | cons q requests ih =>
      rw [kept, outcomes]
      by_cases refused : IsRefused (q.run w)
      · rw [if_pos refused, List.filter_cons_of_neg (by simpa using refused),
          final_of_refused refused]
        exact ih
      · rw [if_neg refused, outcomes, List.filter_cons_of_pos (by simpa using refused)]
        exact congrArg _ ih

/-- In every state, whatever the sink has done and will do, a request that the writer refuses leaves
the state as it was. Hence leaving out the refused requests of a session changes nothing about the
others: the same comes of them, and the sink receives the same bytes. -/
theorem unchanged_of_refused :
    (∀ (w v : Writer) (q : Request) (e : WriteError), q.run w = .error e v → e.IsRefusal →
      v = w) ∧
    ∀ (w : Writer) (requests : List Request),
      w.outcomes (w.kept requests) = (w.outcomes requests).filter (fun r => ¬ IsRefused r) ∧
        w.after (w.kept requests) = w.after requests :=
  ⟨fun _ _ _ _ h refusal => state_of_refused h refusal,
    fun _ _ => ⟨outcomes_kept, after_kept⟩⟩

/-- A second name in the place of a value, and a name at the end of a document. -/
theorem unchanged_of_refused_names :
    ∃ w v requests, requests = [.call .beginObject, .call (.name "a"), .call (.name "b"),
        .call .null, .call .endObject, .close, .call (.name "c")] ∧
      w = (new {}).after (requests.take 2) ∧
      (Request.call (.name "b")).run w = .error (.misplaced .name .expectingMemberValue) v ∧
      v = w ∧
      (new {}).kept requests = [.call .beginObject, .call (.name "a"), .call .null,
        .call .endObject, .close] ∧
      ((new {}).after ((new {}).kept requests)).outlet.sink.received =
        ((new {}).after requests).outlet.sink.received := by
  let requests : List Request := [.call .beginObject, .call (.name "a"), .call (.name "b"),
    .call .null, .call .endObject, .close, .call (.name "c")]
  let w := (new {}).after (requests.take 2)
  have refused : error? ((Request.call (.name "b")).run w) =
      some (.misplaced .name .expectingMemberValue) := by
    decide +kernel
  have kept : (new {}).kept requests = [.call .beginObject, .call (.name "a"), .call .null,
      .call .endObject, .close] := by
    decide +kernel
  obtain ⟨v, run⟩ := error?_eq_some refused
  have whole := (unchanged_of_refused.2 (new {}) requests).2
  exact ⟨w, v, requests, rfl, rfl, run, unchanged_of_refused.1 w v _ _ run trivial, kept,
    congrArg (fun w => w.outlet.sink.received) whole⟩

end Writer

end TypedJson
