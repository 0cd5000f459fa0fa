import TypedJson.Proofs.Reader.Scalars
import TypedJson.Proofs.Reader.Session

set_option autoImplicit false
set_option relaxedAutoImplicit false

namespace TypedJson

open Operation
open Reader (Consumes)

/-- The reader comes from one state to the other by taking these units, by looking ahead in between,
and by switching leniency, to lenient only where that is allowed. -/
inductive Reader.Passes (lenient : Bool) : List Event → Reader → Reader → Prop where
  | nil {r : Reader} : Passes lenient [] r r
  | look {l : Lexeme} {evs : List Event} {r r₁ r' : Reader} :
      ReadM.peekLexeme r = .ok l r₁ → Passes lenient evs r₁ r' → Passes lenient evs r r'
  | take {e : Event} {evs : List Event} {r r₁ r' : Reader} :
      ReadM.nextEvent r = .ok (some e) r₁ → Passes lenient evs r₁ r' →
      Passes lenient (e :: evs) r r'
  | switch {b : Bool} {evs : List Event} {r r₁ r' : Reader} :
      (b = true → lenient = true) → ReadM.setLenient b r = .ok () r₁ →
      Passes lenient evs r₁ r' → Passes lenient evs r r'

namespace Reader

variable {lenient : Bool} {r r₁ r' r'' : Reader} {l : Lexeme} {evs evs' : List Event}

theorem Passes.append (h : Passes lenient evs r r') (h' : Passes lenient evs' r' r'') :
    Passes lenient (evs ++ evs') r r'' := by
  induction h with
  | nil => exact h'
  | look seen _ ih => exact .look seen (ih h')
  | take step _ ih => exact .take step (ih h')
  | switch allowed switched _ ih => exact .switch allowed switched (ih h')

theorem Passes.of_look (h : ReadM.peekLexeme r = .ok l r') : Passes lenient [] r r' :=
  .look h .nil

theorem Consumes.passes (h : Consumes evs r r') : Passes lenient evs r r' := by
  induction h with
  | nil => exact .nil
  | cons step _ ih => exact .take step ih

end Reader

namespace ReadM

open Reader (Passes)

variable {α : Type} {lenient : Bool} {r r' : Reader} {a : α}

theorem consumes_of_skipWithin {rounds depth : Nat} (h : skipWithin rounds depth r = .ok () r') :
    ∃ evs, Consumes evs r r' := by
  induction rounds generalizing depth r with
  | zero =>
      cases h
      exact ⟨[], .nil⟩
  | succ rounds ih =>
      obtain ⟨next, r₁, round, rest⟩ := bind_eq_ok.mp h
      obtain ⟨e, step, -⟩ := event_of_skipRound round
      cases next with
      | none =>
          cases rest
          exact ⟨[e], .single step⟩
      | some depth =>
          obtain ⟨evs, consumes⟩ := ih rest
          exact ⟨e :: evs, .cons step consumes⟩

theorem passes_of_peek {t : Token} (h : peek r = .ok t r') : Passes lenient [] r r' := by
  obtain ⟨l, r₁, look, rest⟩ := bind_eq_ok.mp h
  cases rest
  exact .of_look look

theorem passes_of_hasNext {b : Bool} (h : hasNext r = .ok b r') : Passes lenient [] r r' := by
  obtain ⟨l, r₁, look, rest⟩ := bind_eq_ok.mp h
  have seen : Passes lenient [] r r₁ := .of_look look
  cases l with
  | _ =>
      cases rest
      exact seen

theorem passes_of_finish (h : finish r = .ok () r') : Passes lenient [] r r' := by
  obtain ⟨l, look, -⟩ := expect_eq_ok h
  exact .of_look look

theorem passes_of_nextScalar {type : ScalarType} {x : Scalar}
    (h : nextScalar type r = .ok x r') : ∃ evs, Passes lenient evs r r' := by
  obtain ⟨⟨t, consumes⟩, -⟩ := nextScalar_eq_ok h
  exact ⟨t.events, consumes.passes⟩

theorem passes_of_orNull {read : ReadM α} {x : Option α}
    (hr : ∀ r a r', read r = .ok a r' → ∃ evs, Passes lenient evs r r')
    (h : orNull read r = .ok x r') : ∃ evs, Passes lenient evs r r' := by
  obtain ⟨t, r₁, looking, rest⟩ := bind_eq_ok.mp h
  have seen : Passes lenient [] r r₁ := passes_of_peek looking
  split at rest
  · obtain ⟨_, r₂, taken, ⟨⟩⟩ := bind_eq_ok.mp rest
    have unit := event_of_nextNull taken
    exact ⟨[.null], seen.append (Consumes.single unit).passes⟩
  · obtain ⟨a, r₂, run, ⟨⟩⟩ := bind_eq_ok.mp rest
    obtain ⟨evs, passes⟩ := hr r₁ a _ run
    exact ⟨evs, seen.append passes⟩

end ReadM

open Reader (Passes)

variable {lenient : Bool} {r r' : Reader}

theorem Call.passes {c : Call} {a : Answer} (allowed : c = .setLenient true → lenient = true)
    (h : c.run r = .ok a r') : ∃ evs, Passes lenient evs r r' := by
  cases c with
  | peek =>
      obtain ⟨t, r₁, run, ⟨⟩⟩ := bind_eq_ok.mp h
      exact ⟨[], ReadM.passes_of_peek run⟩
  | hasNext =>
      obtain ⟨b, r₁, run, ⟨⟩⟩ := bind_eq_ok.mp h
      exact ⟨[], ReadM.passes_of_hasNext run⟩
  | beginObject =>
      obtain ⟨_, r₁, run, ⟨⟩⟩ := bind_eq_ok.mp h
      exact ⟨_, (Consumes.single (ReadM.event_of_beginObject run)).passes⟩
  | endObject =>
      obtain ⟨_, r₁, run, ⟨⟩⟩ := bind_eq_ok.mp h
      exact ⟨_, (Consumes.single (ReadM.event_of_endObject run)).passes⟩
  | beginArray =>
      obtain ⟨_, r₁, run, ⟨⟩⟩ := bind_eq_ok.mp h
      exact ⟨_, (Consumes.single (ReadM.event_of_beginArray run)).passes⟩
  | endArray =>
      obtain ⟨_, r₁, run, ⟨⟩⟩ := bind_eq_ok.mp h
      exact ⟨_, (Consumes.single (ReadM.event_of_endArray run)).passes⟩
  | nextName =>
      obtain ⟨s, r₁, run, ⟨⟩⟩ := bind_eq_ok.mp h
      exact ⟨_, (Consumes.single (ReadM.event_of_nextName run)).passes⟩
  | nextString | nextNumberText =>
      obtain ⟨s, r₁, run, ⟨⟩⟩ := bind_eq_ok.mp h
      obtain ⟨t, consumes⟩ := ReadM.tree_of_textOrLiteral run
      exact ⟨t.events, consumes.passes⟩
  | nextBool =>
      obtain ⟨b, r₁, run, ⟨⟩⟩ := bind_eq_ok.mp h
      obtain ⟨t, consumes⟩ := ReadM.tree_of_nextBool run
      exact ⟨t.events, consumes.passes⟩
  | nextNull =>
      obtain ⟨_, r₁, run, ⟨⟩⟩ := bind_eq_ok.mp h
      exact ⟨_, (Consumes.single (ReadM.event_of_nextNull run)).passes⟩
  | skipValue =>
      obtain ⟨_, r₁, run, ⟨⟩⟩ := bind_eq_ok.mp h
      obtain ⟨evs, consumes⟩ := ReadM.consumes_of_skipWithin run
      exact ⟨evs, consumes.passes⟩
  | nextScalar type =>
      obtain ⟨x, r₁, run, ⟨⟩⟩ := bind_eq_ok.mp h
      exact ReadM.passes_of_nextScalar run
  | nextBoxed type =>
      obtain ⟨x, r₁, run, ⟨⟩⟩ := bind_eq_ok.mp h
      exact ReadM.passes_of_orNull (fun _ _ _ => ReadM.passes_of_nextScalar) run
  | setLenient b =>
      obtain ⟨_, r₁, run, ⟨⟩⟩ := bind_eq_ok.mp h
      refine ⟨[], .switch ?_ run .nil⟩
      rintro rfl
      exact allowed rfl
  | isLenient | path | position =>
      cases h
      exact ⟨[], .nil⟩
  | finish =>
      obtain ⟨_, r₁, run, ⟨⟩⟩ := bind_eq_ok.mp h
      exact ⟨[], ReadM.passes_of_finish run⟩

namespace Reader

/-- Whether every call of a session has succeeded. -/
def AllSucceed (seen : List Observation) : Prop :=
  ∀ o ∈ seen, o.result.isOk = true

instance (seen : List Observation) : Decidable (AllSucceed seen) :=
  inferInstanceAs (Decidable (∀ o ∈ seen, o.result.isOk = true))

theorem run_of_isOk {c : Call} (h : (r.call c).1.result.isOk = true) :
    ∃ a, c.run r = .ok a (r.call c).2 := by
  unfold call at h ⊢
  cases run : c.run r with
  | ok a r₁ => exact ⟨a, rfl⟩
  | error e r₁ =>
      rw [run] at h
      cases h

/-- A session of calls that succeed passes the units that its calls pass. -/
theorem passes_of_session {calls : List Call} (allowed : .setLenient true ∈ calls → lenient = true)
    (succeed : AllSucceed (r.session calls).1) :
    ∃ evs, Passes lenient evs r (r.session calls).2 := by
  induction calls generalizing r with
  | nil => exact ⟨[], .nil⟩
  | cons c calls ih =>
      obtain ⟨first, rest⟩ := List.forall_mem_cons.mp succeed
      obtain ⟨a, run⟩ := run_of_isOk first
      have own : c = .setLenient true → lenient = true := by
        rintro rfl
        exact allowed List.mem_cons_self
      have later : .setLenient true ∈ calls → lenient = true := by
        intro member
        exact allowed (List.mem_cons_of_mem _ member)
      obtain ⟨evs, passes⟩ := Call.passes own run
      obtain ⟨evs', behind⟩ := ih later rest
      exact ⟨evs ++ evs', passes.append behind⟩

end Reader

end TypedJson
