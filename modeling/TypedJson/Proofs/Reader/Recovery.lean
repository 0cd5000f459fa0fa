import TypedJson.Proofs.Reader.Faults
import TypedJson.Proofs.Reader.Numbers
import TypedJson.Proofs.Reader.Passage

/-!
# Going on after errors

An operation fails in one of three ways. The next unit is not the one asked for: then it has been
looked at, and nothing more. A number is not one of the type asked for: then it has been consumed,
and nothing more. Or the text or the data are at fault, or the nesting is too deep.
-/

set_option autoImplicit false
set_option relaxedAutoImplicit false

namespace TypedJson

open Operation
open Grammar (Place)
open Reader (Consumes)

namespace ReadError

/-- Whether an error says that the next unit is of another kind than the one asked for. -/
def IsStructural : ReadError → Prop
  | .unexpected _ _ _ => True
  | .malformed _ _ | .outOfRange _ _ _ | .invalidNumber _ _ _ | .unavailable _ _ => False

variable {e : ReadError}

theorem isAboutValue_iff : e.IsAboutValue ↔ e.IsStructural ∨ e.IsConversion := by
  cases e <;> simp [IsAboutValue, IsStructural, IsConversion]

theorem IsStructural.not_isConversion (h : e.IsStructural) : ¬ e.IsConversion := by
  cases e with
  | unexpected expected actual at_ => exact id
  | _ => exact h.elim

end ReadError

namespace Reader

variable {r r₁ r' : Reader} {l : Lexeme} {e : ReadError} {s : String}

/-- What the reader has looked ahead to is a unit that the grammar position admits. -/
def Apt (r : Reader) : Prop :=
  ∀ l, r.lookahead = some l → ∃ places, Place.Shows l places r.places

theorem apt_of_unseen (unseen : r.lookahead = none) : r.Apt := by
  intro l seen
  cases unseen.symm.trans seen

theorem Apt.shows (apt : r.Apt) (look : ReadM.peekLexeme r = .ok l r') :
    ∃ places, Place.Shows l places r'.places := by
  obtain ⟨seen, rfl⟩ | ⟨-, q, next, rfl⟩ := ReadM.peekLexeme_eq_ok look
  · exact apt l seen
  · exact ⟨r.places, (ReadM.shows_of_nextLexeme next).1⟩

theorem Apt.peekLexeme (apt : r.Apt) (look : ReadM.peekLexeme r = .ok l r') : r'.Apt := by
  intro l' seen
  cases (ReadM.lookahead_of_peek look).symm.trans seen
  exact apt.shows look

theorem lookahead_endScalar (r : Reader) : r.endScalar.lookahead = none := by
  unfold endScalar endValue
  split <;> rfl

/-- The ways in which an operation fails: behind a look at the next unit, behind the value that
comes next, or with nothing looked ahead to. -/
inductive Fails (r : Reader) : ReadError → Reader → Prop where
  | unexpected {e : ReadError} {l : Lexeme} {r' : Reader} :
      e.IsStructural → ReadM.peekLexeme r = .ok l r' → Fails r e r'
  | unconverted {e : ReadError} {l : Lexeme} {s : String} {r₁ : Reader} :
      e.IsConversion → ReadM.peekLexeme r = .ok l r₁ → ReadM.textOrLiteral? l = some s →
      Fails r e r₁.endScalar
  | broken {e : ReadError} {r' : Reader} : ¬ e.IsAboutValue → r'.lookahead = none → Fails r e r'

theorem Fails.apt (apt : r.Apt) (h : r.Fails e r') : r'.Apt := by
  cases h with
  | unexpected _ look => exact apt.peekLexeme look
  | unconverted => exact apt_of_unseen (lookahead_endScalar _)
  | broken _ unseen => exact apt_of_unseen unseen

theorem Fails.peeked (h : r.Fails e r') (structural : e.IsStructural) :
    ∃ l, ReadM.peekLexeme r = .ok l r' := by
  cases h with
  | unexpected _ look => exact ⟨_, look⟩
  | unconverted conversion => exact absurd conversion structural.not_isConversion
  | broken other => exact absurd (ReadError.isAboutValue_iff.mpr (.inl structural)) other

theorem Fails.consumed (h : r.Fails e r') (conversion : e.IsConversion) :
    ∃ s, Consumes [.string s] r r' ∨ Consumes [.number s] r r' := by
  cases h with
  | unexpected structural => exact absurd conversion structural.not_isConversion
  | @unconverted l s r₁ _ look content =>
      refine ⟨s, ?_⟩
      cases l with
      | string =>
          cases content
          exact .inl (.single (ReadM.nextEvent_of_peek look (by simp [HasRoom])))
      | number =>
          cases content
          exact .inr (.single (ReadM.nextEvent_of_peek look (by simp [HasRoom])))
      | _ => cases content
  | broken other => exact absurd (ReadError.isAboutValue_iff.mpr (.inr conversion)) other

theorem Fails.of_peeked (look : ReadM.peekLexeme r = .ok l r₁) (h : r₁.Fails e r') :
    r.Fails e r' := by
  have again : ReadM.peekLexeme r₁ = .ok l r₁ :=
    ReadM.peekLexeme_of_some (ReadM.lookahead_of_peek look)
  cases h with
  | unexpected structural look' =>
      cases again.symm.trans look'
      exact .unexpected structural look
  | unconverted conversion look' content =>
      cases again.symm.trans look'
      exact .unconverted conversion look content
  | broken other unseen => exact .broken other unseen

end Reader

namespace ReadM

open Reader (Fails Apt)

variable {α β : Type} {r r₁ r' : Reader} {l : Lexeme} {e : ReadError} {depth : Nat}

/-! Where looking for the next unit fails. -/

theorem fails_of_peekLexeme (h : peekLexeme r = .error e r') : r.Fails e r' := by
  obtain ⟨unseen, next⟩ := peekLexeme_eq_error h
  obtain ⟨_, _, q, lexed, same⟩ := nextLexeme_eq_error next
  obtain ⟨fault, c, rfl, -, -⟩ := lex_eq_error lexed
  exact .broken (not_isAboutValue_of_peekLexeme h) (same.trans unseen)

/-! How each operation fails. -/

/-- From a state in which the grammar admits what has been looked ahead to, the operation fails in
one of the three ways. -/
def Recovers (x : ReadM α) : Prop :=
  ∀ r e r', r.Apt → x r = .error e r' → r.Fails e r'

theorem Recovers.before {x : ReadM α} {f : α → ReadM β} (hx : Recovers x)
    (succeeds : ∀ a r, ∃ b r', f a r = .ok b r') : Recovers (x >>= f) := by
  intro r e r' apt h
  obtain first | ⟨a, r₁, -, second⟩ := bind_eq_error.mp h
  · exact hx r e r' apt first
  · obtain ⟨b, r₂, run⟩ := succeeds a r₁
    cases run.symm.trans second

theorem Recovers.peeked {f : Lexeme → ReadM α}
    (hf : ∀ l r e r', peekLexeme r = .ok l r → r.Apt → f l r = .error e r' → r.Fails e r') :
    Recovers (peekLexeme >>= f) := by
  intro r e r' apt h
  obtain looking | ⟨l, r₁, look, rest⟩ := bind_eq_error.mp h
  · exact fails_of_peekLexeme looking
  · have again : peekLexeme r₁ = .ok l r₁ := peekLexeme_of_some (lookahead_of_peek look)
    exact (hf l r₁ e r' again (apt.peekLexeme look) rest).of_peeked look

theorem recovers_peekLexeme : Recovers peekLexeme :=
  fun _ _ _ _ h => fails_of_peekLexeme h

theorem recovers_peek : Recovers peek :=
  recovers_peekLexeme.before fun _ _ => ⟨_, _, rfl⟩

theorem recovers_hasNext : Recovers hasNext :=
  recovers_peekLexeme.before fun l _ => by cases l <;> exact ⟨_, _, rfl⟩

theorem recovers_expect {expected : Expectation} {select : Lexeme → Option α} :
    Recovers (expect expected select) := by
  refine .peeked fun l r e r' look _ h => ?_
  cases selected : select l with
  | some a =>
      rw [selected] at h
      cases h
  | none =>
      rw [selected] at h
      cases h
      exact .unexpected trivial look

theorem recovers_take {l : Lexeme} : Recovers (take l) :=
  recovers_expect.before fun _ _ => ⟨_, _, rfl⟩

theorem state_of_failed_enter {c : Container} (h : enter c r = .error e r') : r' = r := by
  cases room : r.room with
  | zero =>
      rw [enter_of_zero room] at h
      cases h
      rfl
  | succ n =>
      rw [enter_of_succ room] at h
      cases h

/-- Behind the opening bracket only the nesting limit can be in the way. -/
theorem recovers_opening {l : Lexeme} {c : Container} :
    Recovers (do take l; enter c : ReadM Unit) := by
  intro r e r' apt h
  obtain taking | ⟨_, r₁, taken, entering⟩ := bind_eq_error.mp h
  · exact recovers_take r e r' apt taking
  · refine .broken (not_isAboutValue_of_enter entering) ?_
    obtain ⟨r₂, -, rfl⟩ := take_eq_ok taken
    rw [state_of_failed_enter entering]

theorem recovers_takeScalar {expected : Token} {select : Lexeme → Option α} :
    Recovers (takeScalar expected select) :=
  recovers_expect.before fun _ _ => ⟨_, _, rfl⟩

theorem recovers_nextName : Recovers nextName :=
  recovers_expect.before fun _ _ => ⟨_, _, rfl⟩

theorem recovers_nextNull : Recovers nextNull :=
  recovers_take.before fun _ _ => ⟨_, _, rfl⟩

theorem recovers_number {f : String → ReadM α} (judges : ∀ s, Judges (f s)) :
    Recovers (nextNumberText >>= f) := by
  intro r e r' apt h
  obtain taking | ⟨s, r₁, taken, converting⟩ := bind_eq_error.mp h
  · exact recovers_takeScalar r e r' apt taking
  · obtain ⟨l, r₂, look, content, rfl⟩ := takeScalar_eq_ok taken
    obtain ⟨conversion, rfl, -⟩ := (judges s).of_error converting
    exact .unconverted conversion look content

theorem recovers_nextDouble : Recovers nextDouble := by
  intro r e r' apt h
  have run := (get_bind _ r).symm.trans h
  exact recovers_number (fun _ => judges_convert) r e r' apt run

theorem recovers_nextScalar {type : ScalarType} : Recovers (nextScalar type) := by
  cases type with
  | integer type =>
      have number : Recovers (nextInteger type) := recovers_number fun _ => judges_toInteger
      exact number.before fun _ _ => ⟨_, _, rfl⟩
  | single =>
      have narrowed : Recovers nextSingle := recovers_nextDouble.before fun _ _ => ⟨_, _, rfl⟩
      exact narrowed.before fun _ _ => ⟨_, _, rfl⟩
  | double => exact recovers_nextDouble.before fun _ _ => ⟨_, _, rfl⟩
  | boolean => exact recovers_takeScalar.before fun _ _ => ⟨_, _, rfl⟩
  | text => exact recovers_takeScalar.before fun _ _ => ⟨_, _, rfl⟩

theorem recovers_orNull {x : ReadM α} (hx : Recovers x) : Recovers (orNull x) := by
  intro r e r' apt h
  obtain looking | ⟨t, r₁, looked, rest⟩ := bind_eq_error.mp h
  · exact recovers_peek r e r' apt looking
  · obtain ⟨l, r₂, look, ⟨⟩⟩ := bind_eq_ok.mp looked
    have seen := apt.peekLexeme look
    refine Fails.of_peeked look ?_
    split at rest
    · have null : Recovers (do nextNull; pure none : ReadM (Option α)) :=
        recovers_nextNull.before fun _ _ => ⟨_, _, rfl⟩
      exact null _ e r' seen rest
    · have value : Recovers (do pure (some (← x)) : ReadM (Option α)) :=
        hx.before fun _ _ => ⟨_, _, rfl⟩
      exact value _ e r' seen rest

/-! Skipping: only in front of the value can the next unit be a wrong one. -/

theorem recovers_skipRound : Recovers (skipRound depth) := by
  refine .peeked fun l r e r' look apt h => ?_
  cases l with
  | beginObject =>
      have opening : Recovers (do beginObject; pure (some (depth + 1)) : ReadM (Option Nat)) :=
        recovers_opening.before fun _ _ => ⟨_, _, rfl⟩
      exact opening r e r' apt h
  | beginArray =>
      have opening : Recovers (do beginArray; pure (some (depth + 1)) : ReadM (Option Nat)) :=
        recovers_opening.before fun _ _ => ⟨_, _, rfl⟩
      exact opening r e r' apt h
  | endObject =>
      cases depth with
      | zero =>
          cases h
          exact .unexpected trivial look
      | succ depth => cases (bind_of_ok (endObject_of_peek look)).symm.trans h
  | endArray =>
      cases depth with
      | zero =>
          cases h
          exact .unexpected trivial look
      | succ depth => cases (bind_of_ok (endArray_of_peek look)).symm.trans h
  | name s => cases (bind_of_ok (nextName_of_peek look)).symm.trans h
  | string | number | boolean | null => cases h
  | endDocument =>
      cases h
      exact .unexpected trivial look

/-- Whatever the round in which skipping breaks off, nothing has been looked ahead to. -/
theorem unseen_of_skipWithin {rounds : Nat} (apt : r.Apt)
    (h : skipWithin rounds depth r = .error e r') (broken : ¬ e.IsAboutValue) :
    r'.lookahead = none := by
  induction rounds generalizing r depth with
  | zero => cases h
  | succ rounds ih =>
      obtain failed | ⟨next, r₁, round, rest⟩ := bind_eq_error.mp h
      · cases recovers_skipRound r e r' apt failed with
        | unexpected structural =>
            exact absurd (ReadError.isAboutValue_iff.mpr (.inl structural)) broken
        | unconverted conversion =>
            exact absurd (ReadError.isAboutValue_iff.mpr (.inr conversion)) broken
        | broken _ unseen => exact unseen
      · obtain ⟨unit, step, -⟩ := event_of_skipRound round
        have behind := Reader.apt_of_unseen (Consumes.single step).behind.1
        cases next with
        | none => cases rest
        | some depth => exact ih behind rest

theorem places_of_name {s : String} (apt : r.Apt) (look : peekLexeme r = .ok (.name s) r') :
    ∃ places, r'.places = .memberValue :: places := by
  obtain ⟨places, shows⟩ := apt.shows look
  exact shows.of_name

theorem not_isAboutValue_behind {rounds : Nat} {unit : Event} (apt : r.Apt)
    (step : nextEvent r = .ok (some unit) r₁) (opens : unit.closes = false)
    (next : unit.depthBehind 0 = some depth) (h : skipWithin rounds depth r₁ = .error e r') :
    ¬ e.IsAboutValue := by
  obtain ⟨unseen, -⟩ := (Consumes.single step).behind
  obtain ⟨l, r₂, look, event, -, rfl⟩ := nextEvent_eq_ok step
  have behind := Reader.places_behind r₂ l
  cases l with
  | beginObject =>
      cases event
      cases next
      have split : (r₂.behind .beginObject).places = [.firstMember] ++ r₂.places := behind
      exact not_isAboutValue_of_skipWithin unseen split nofun nofun h
  | beginArray =>
      cases event
      cases next
      have split : (r₂.behind .beginArray).places = [.firstItem] ++ r₂.places := behind
      exact not_isAboutValue_of_skipWithin unseen split nofun nofun h
  | name s =>
      cases event
      cases next
      obtain ⟨places, named⟩ := places_of_name apt look
      have split : (r₂.behind (.name s)).places = [] ++ .memberValue :: places :=
        behind.trans named
      exact not_isAboutValue_of_skipWithin unseen split (fun _ => ⟨places, rfl⟩) nofun h
  | endObject | endArray =>
      cases event
      cases opens
  | string | number | boolean | null =>
      cases event
      cases next
  | endDocument => cases event

theorem recovers_skipWithin {rounds : Nat} : Recovers (skipWithin rounds 0) := by
  intro r e r' apt h
  cases rounds with
  | zero => cases h
  | succ rounds =>
      obtain failed | ⟨next, r₁, round, rest⟩ := bind_eq_error.mp h
      · exact recovers_skipRound r e r' apt failed
      · obtain ⟨unit, step, inside⟩ := event_of_skipRound round
        cases round.symm.trans (skipRound_of_event step inside)
        have behind := Reader.apt_of_unseen (Consumes.single step).behind.1
        cases next : unit.depthBehind 0 with
        | none =>
            rw [next] at rest
            cases rest
        | some depth =>
            rw [next] at rest
            have opens : unit.closes = false := by
              by_contra closes
              exact inside (by simpa using closes) rfl
            have broken := not_isAboutValue_behind apt step opens next rest
            exact .broken broken (unseen_of_skipWithin behind rest broken)

end ReadM

open Reader (Passes)

variable {r r' : Reader} {e : ReadError}

/-- Every call fails in one of the three ways. -/
theorem Call.recovers (c : Call) : ReadM.Recovers c.run := by
  have answer {α : Type} {x : ReadM α} (hx : ReadM.Recovers x) (f : α → Answer) :
      ReadM.Recovers (do pure (f (← x))) := hx.before fun _ _ => ⟨_, _, rfl⟩
  cases c with
  | peek => exact answer ReadM.recovers_peek _
  | hasNext => exact answer ReadM.recovers_hasNext _
  | beginObject | beginArray => exact answer ReadM.recovers_opening _
  | endObject | endArray =>
      exact answer (ReadM.recovers_take.before fun _ _ => ⟨_, _, rfl⟩) _
  | nextName => exact answer ReadM.recovers_nextName _
  | nextString | nextNumberText | nextBool => exact answer ReadM.recovers_takeScalar _
  | nextNull => exact answer ReadM.recovers_nextNull _
  | skipValue =>
      intro r e r' apt h
      obtain failed | ⟨_, _, -, ⟨⟩⟩ := bind_eq_error.mp h
      exact ReadM.recovers_skipWithin r e r' apt failed
  | nextScalar type => exact answer ReadM.recovers_nextScalar _
  | nextBoxed type => exact answer (ReadM.recovers_orNull ReadM.recovers_nextScalar) _
  | finish => exact answer ReadM.recovers_expect _
  | isLenient | setLenient | path | position =>
      intro r e r' _ h
      cases h

namespace Reader

theorem Apt.passes {lenient : Bool} {evs : List Event} (apt : r.Apt)
    (h : Passes lenient evs r r') : r'.Apt := by
  induction h with
  | nil => exact apt
  | look seen _ ih => exact ih (apt.peekLexeme seen)
  | take step _ ih => exact ih (apt_of_unseen (Consumes.single step).behind.1)
  | switch _ switched _ ih =>
      cases switched
      exact ih apt

/-- The grammar admits what has been looked ahead to, behind calls that succeed and behind calls
that fail. -/
theorem Apt.call (apt : r.Apt) (c : Call) : (r.call c).2.Apt := by
  unfold Reader.call
  cases run : c.run r with
  | ok a r₁ =>
      have allowed : c = .setLenient true → true = true := fun _ => rfl
      obtain ⟨evs, passes⟩ := Call.passes allowed run
      exact apt.passes passes
  | error e r₁ => exact (c.recovers r e r₁ apt run).apt apt

theorem Apt.session (apt : r.Apt) (calls : List Call) : (r.session calls).2.Apt := by
  induction calls generalizing r with
  | nil => exact apt
  | cons c calls ih => exact ih (apt.call c)

theorem path?_of_peekLexeme {l : Lexeme} (look : ReadM.peekLexeme r = .ok l r') :
    r'.path? = r.path? := by
  have steps : r'.containers.map Container.step = r.containers.map Container.step :=
    steps_of_peekLexeme look
  rw [path?, path?, settings_of_peekLexeme look, List.map_reverse, List.map_reverse, steps]

theorem length_of_peekLexeme {l : Lexeme} (look : ReadM.peekLexeme r = .ok l r') :
    r'.containers.length = r.containers.length := by
  have steps : r'.steps = r.steps := steps_of_peekLexeme look
  have lengths := congrArg List.length steps
  rwa [Reader.steps, Reader.steps, List.length_map, List.length_map] at lengths

/-- Whatever calls have come before, with whatever success: a call that finds another unit than it
asks for leaves the state behind a look at that unit, so that all later calls go as behind such a
look; and a call that cannot convert a number leaves the state behind the skipped number. -/
theorem recovers_of_session {source : Source} {settings : ReaderSettings} {calls : List Call}
    {c : Call} (reached : r = ((new source settings).session calls).2)
    (failed : c.run r = .error e r') :
    (e.IsStructural →
      (∃ t, ReadM.peek r = .ok t r' ∧ ReadM.peek r' = .ok t r') ∧
        r'.path? = r.path? ∧ r'.containers.length = r.containers.length ∧
        ReadM.nextEvent r' = ReadM.nextEvent r ∧
        ∀ later, (r.call c).2.session later = (r.call .peek).2.session later) ∧
    (e.IsConversion → ReadM.skipValue r = .ok () r' ∧
      ∃ s, Consumes [.string s] r r' ∨ Consumes [.number s] r r') := by
  have apt : r.Apt := by
    rw [reached]
    exact Apt.session (apt_of_unseen rfl) calls
  have fails := c.recovers r e r' apt failed
  constructor
  · intro structural
    obtain ⟨l, look⟩ := fails.peeked structural
    have again : ReadM.peekLexeme r' = .ok l r' :=
      ReadM.peekLexeme_of_some (ReadM.lookahead_of_peek look)
    refine ⟨⟨l.token, ReadM.peek_of_peek look, ReadM.peek_of_peek again⟩,
      path?_of_peekLexeme look, length_of_peekLexeme look,
      (ReadM.nextEvent_of_peeked look).symm, ?_⟩
    intro later
    have called : (r.call c).2 = r' := by rw [call, failed]
    have peeked : (r.call .peek).2 = r' := by
      have run : Call.peek.run r = .ok (.token l.token) r' := bind_of_ok (ReadM.peek_of_peek look)
      rw [call, run]
    rw [called, peeked]
  · intro conversion
    obtain ⟨s, text | literal⟩ := fails.consumed conversion
    · have value : Consumes (Tree.string s).events r r' := by
        rw [Tree.events]
        exact text
      exact ⟨ReadM.skipValue_of_consumes value, s, .inl text⟩
    · have value : Consumes (Tree.number s).events r r' := by
        rw [Tree.events]
        exact literal
      exact ⟨ReadM.skipValue_of_consumes value, s, .inr literal⟩

/-- A truth value and then a number are read as a signed byte, which neither is. -/
theorem recovers_of_session_mixedItems :
    ∃ source byte r e r₁ r₂ e₂ r₃,
      source = ⟨[.data 0x5B (Utf8.encode "true,300]".toList)], .endOfData⟩ ∧
      byte = .nextScalar (.integer .int8) ∧
      r = ((new source).session [.beginArray]).2 ∧ byte.run r = .error e r₁ ∧ e.IsStructural ∧
      ReadM.peek r = .ok .boolean r₁ ∧ r₁.path? = some [.item 0] ∧
      r₂ = ((new source).session [.beginArray, byte, .nextBool]).2 ∧
      byte.run r₂ = .error e₂ r₃ ∧ e₂.IsConversion ∧ ReadM.skipValue r₂ = .ok () r₃ := by
  let source : Source := ⟨[.data 0x5B (Utf8.encode "true,300]".toList)], .endOfData⟩
  let byte : Call := .nextScalar (.integer .int8)
  let r := ((new source).session [.beginArray]).2
  let r₂ := ((new source).session [.beginArray, byte, .nextBool]).2
  have kind : error? (byte.run r) = some (.unexpected (.token .number) .boolean
      ⟨some [.item 0], some ⟨0, 5⟩, some 5⟩) := by
    decide +kernel
  have range : error? (byte.run r₂) = some (.outOfRange "300" "i8"
      ⟨some [.item 2], some ⟨0, 9⟩, some 9⟩) := by
    decide +kernel
  have item : r.path? = some [.item 0] := by decide +kernel
  have boolean : answer? (ReadM.peek r) = some .boolean := by decide +kernel
  obtain ⟨r₁, run⟩ := error?_eq_some kind
  obtain ⟨r₃, run₂⟩ := error?_eq_some range
  have reached : r = ((new source {}).session [.beginArray]).2 := rfl
  have reached₂ : r₂ = ((new source {}).session [.beginArray, byte, .nextBool]).2 := rfl
  obtain ⟨⟨t, look, -⟩, path, -⟩ := (recovers_of_session reached run).1 trivial
  obtain ⟨skipped, -⟩ := (recovers_of_session reached₂ run₂).2 trivial
  rw [look] at boolean
  cases boolean
  exact ⟨source, byte, r, _, r₁, r₂, _, r₃, rfl, rfl, rfl, run, trivial, look, path.trans item, rfl,
    run₂, trivial, skipped⟩

end Reader

end TypedJson
