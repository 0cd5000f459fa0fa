import TypedJson.Proofs.Reader.Scalars
import TypedJson.Proofs.Reader.Steps

set_option autoImplicit false
set_option relaxedAutoImplicit false

namespace TypedJson

open Operation
open Grammar (Place)
open Reader (Consumes)

/-- The member names of a path, from the outermost inward. -/
def PathStep.names (path : List PathStep) : List String :=
  path.filterMap fun
    | .item _ => none
    | .member name => some name

def Reader.names (r : Reader) : List String :=
  PathStep.names r.steps.reverse

namespace ReadError

/-- Whether an error is about a value: it is of another kind, out of range, or no number. -/
def IsAboutValue : ReadError → Prop
  | .unexpected _ _ _ | .outOfRange _ _ _ | .invalidNumber _ _ _ => True
  | .malformed _ _ | .unavailable _ _ => False

def Locates (names : List String) (e : ReadError) : Prop :=
  e.IsAboutValue → ∃ path, e.location.path = some path ∧ PathStep.names path = names

variable {names : List String} {e : ReadError}

theorem not_isAboutValue_ofFault (fault : LexFault) (l : Location) :
    ¬ (ofFault fault l).IsAboutValue := by
  cases fault with
  | text fault => exact id
  | data fault => exact id

theorem Locates.of_not (h : ¬ e.IsAboutValue) : e.Locates names := by
  intro about
  exact absurd about h

theorem Locates.here {r : Reader} (tracked : r.settings.trackPath = true)
    (at_ : e.location = r.location) : e.Locates r.names := by
  intro _
  exact ⟨r.steps.reverse, by rw [at_]; exact Reader.path?_of_tracked tracked, rfl⟩

end ReadError

namespace Reader

variable {r r' : Reader} {l : Lexeme} {t : Tree}

theorem names_of_steps (h : r'.steps = r.steps) : r'.names = r.names := by
  rw [names, names, h]

theorem names_of_counted (h : r'.steps = PathStep.counted r.steps) : r'.names = r.names := by
  rw [names, names, h]
  cases r.steps with
  | nil => rfl
  | cons step outer =>
      cases step with
      | item index => simp [PathStep.counted, PathStep.names, List.filterMap_append]
      | member name => rfl

theorem names_of_item {index : Nat} (h : r'.steps = .item index :: r.steps) :
    r'.names = r.names := by
  rw [names, names, h]
  simp [PathStep.names, List.filterMap_append]

theorem names_of_member {name : String} {outer : List PathStep}
    (h : r.steps = .member name :: outer) :
    r.names = PathStep.names outer.reverse ++ [name] := by
  rw [names, h]
  simp [PathStep.names, List.filterMap_append]

structure Keeps (r r' : Reader) : Prop where
  names : r'.names = r.names
  settings : r'.settings = r.settings

theorem Keeps.refl (r : Reader) : Keeps r r :=
  ⟨rfl, rfl⟩

theorem keeps_of_peekLexeme (h : ReadM.peekLexeme r = .ok l r') : Keeps r r' :=
  ⟨names_of_steps (steps_of_peekLexeme h), settings_of_peekLexeme h⟩

theorem keeps_of_tree (h : Consumes t.events r r') : Keeps r r' := by
  refine ⟨names_of_counted (steps_of_tree h), ?_⟩
  obtain ⟨e, evs, head, -⟩ := t.events_head
  rw [head] at h
  exact h.behind.2

end Reader

namespace ReadM

variable {α β : Type} {r r' : Reader} {l : Lexeme} {e : ReadError} {a : α}

/-! Errors that are about no value. -/

theorem not_isAboutValue_of_peekLexeme (h : peekLexeme r = .error e r') :
    ¬ e.IsAboutValue := by
  obtain ⟨_, _, _, lexed, -⟩ := nextLexeme_eq_error (peekLexeme_eq_error h).2
  obtain ⟨fault, c, -, rfl, -⟩ := lex_eq_error lexed
  exact ReadError.not_isAboutValue_ofFault _ _

theorem not_isAboutValue_of_enter {c : Container} (h : enter c r = .error e r') :
    ¬ e.IsAboutValue := by
  cases room : r.room with
  | zero =>
      rw [enter_of_zero room] at h
      cases h
      exact id
  | succ n =>
      rw [enter_of_succ room] at h
      cases h

/-! Where errors about values are located. -/

/-- Whenever the operation fails with paths tracked, an error about a value is located where the
path has the names of before. -/
def Located (x : ReadM α) : Prop :=
  ∀ r e r', r.settings.trackPath = true → x r = .error e r' → e.Locates r.names

def Keeping (x : ReadM α) : Prop :=
  ∀ r a r', x r = .ok a r' → r.Keeps r'

theorem located_pure : Located (pure a : ReadM α) := by
  intro r e r' _ h
  cases h

theorem located_fail {error : Location → ReadError} (at_ : ∀ l, (error l).location = l) :
    Located (fail error : ReadM α) := by
  intro r e r' tracked h
  cases h
  exact .here tracked (at_ r.location)

theorem Located.bind {x : ReadM α} {f : α → ReadM β} (hx : Located x) (keeps : Keeping x)
    (hf : ∀ a, Located (f a)) : Located (x >>= f) := by
  intro r e r' tracked h
  obtain first | ⟨a, r₁, run, second⟩ := bind_eq_error.mp h
  · exact hx r e r' tracked first
  · obtain ⟨names, settings⟩ := keeps r a r₁ run
    have located := hf a r₁ e r' (by rw [settings]; exact tracked) second
    rw [names] at located
    exact located

theorem Located.before {x : ReadM α} {f : α → ReadM β} (hx : Located x)
    (succeeds : ∀ a r, ∃ b r', f a r = .ok b r') : Located (x >>= f) := by
  intro r e r' tracked h
  obtain first | ⟨a, r₁, -, second⟩ := bind_eq_error.mp h
  · exact hx r e r' tracked first
  · obtain ⟨b, r₂, run⟩ := succeeds a r₁
    cases run.symm.trans second

theorem located_peekLexeme : Located peekLexeme := by
  intro r e r' _ h
  exact .of_not (not_isAboutValue_of_peekLexeme h)

theorem keeping_peekLexeme : Keeping peekLexeme :=
  fun _ _ _ h => Reader.keeps_of_peekLexeme h

theorem located_peek : Located peek :=
  located_peekLexeme.before fun _ _ => ⟨_, _, rfl⟩

theorem located_expect {expected : Expectation} {select : Lexeme → Option α} :
    Located (expect expected select) := by
  refine located_peekLexeme.bind keeping_peekLexeme ?_
  intro l
  cases select l with
  | some a => exact located_pure
  | none => exact located_fail fun _ => rfl

theorem located_finish : Located finish :=
  located_expect

theorem located_take {l : Lexeme} : Located (take l) :=
  located_expect.before fun _ _ => ⟨_, _, rfl⟩

theorem keeping_take {l : Lexeme} : Keeping (take l) := by
  intro r _ r' h
  obtain ⟨r₁, look, rfl⟩ := take_eq_ok h
  obtain ⟨names, settings⟩ := Reader.keeps_of_peekLexeme look
  exact ⟨names, settings⟩

theorem located_enter {c : Container} : Located (enter c) := by
  intro r e r' _ h
  exact .of_not (not_isAboutValue_of_enter h)

theorem located_beginObject : Located beginObject :=
  located_take.bind keeping_take fun _ => located_enter

theorem located_beginArray : Located beginArray :=
  located_take.bind keeping_take fun _ => located_enter

theorem located_nextNull : Located nextNull :=
  located_take.before fun _ _ => ⟨_, _, rfl⟩

theorem located_takeScalar {expected : Token} {select : Lexeme → Option α} :
    Located (takeScalar expected select) :=
  located_expect.before fun _ _ => ⟨_, _, rfl⟩

theorem keeping_nextNumberText : Keeping nextNumberText := by
  intro r text r' h
  obtain ⟨t, consumes⟩ := tree_of_textOrLiteral h
  exact Reader.keeps_of_tree consumes

theorem located_convert {text target : String} {result : Except Number.ConversionFault α} :
    Located (convert text target result) := by
  cases result with
  | ok a => exact located_pure
  | error fault =>
      cases fault with
      | format => exact located_fail fun _ => rfl
      | range => exact located_fail fun _ => rfl

theorem keeping_convert {text target : String} {result : Except Number.ConversionFault α} :
    Keeping (convert text target result) := by
  intro r a r' h
  obtain ⟨-, rfl⟩ := convert_eq_ok h
  exact .refl _

theorem located_nextInteger {type : Number.IntegerType} : Located (nextInteger type) := by
  refine located_takeScalar.bind keeping_nextNumberText ?_
  intro text
  refine located_convert.bind keeping_convert ?_
  intro n
  cases type.admits n with
  | true => exact located_pure
  | false => exact located_fail fun _ => rfl

theorem located_nextDouble : Located nextDouble := by
  intro r e r' tracked h
  have run := (get_bind _ r).symm.trans h
  exact located_takeScalar.bind keeping_nextNumberText (fun _ => located_convert) r e r' tracked run

theorem located_nextScalar {type : ScalarType} : Located (nextScalar type) := by
  cases type with
  | integer type => exact located_nextInteger.before fun _ _ => ⟨_, _, rfl⟩
  | single =>
      have narrowed : Located nextSingle := located_nextDouble.before fun _ _ => ⟨_, _, rfl⟩
      exact narrowed.before fun _ _ => ⟨_, _, rfl⟩
  | double => exact located_nextDouble.before fun _ _ => ⟨_, _, rfl⟩
  | boolean => exact located_takeScalar.before fun _ _ => ⟨_, _, rfl⟩
  | text => exact located_takeScalar.before fun _ _ => ⟨_, _, rfl⟩

/-! Skipping the value of a member. -/

theorem not_isAboutValue_of_beginObject (look : peekLexeme r = .ok .beginObject r)
    (h : beginObject r = .error e r') : ¬ e.IsAboutValue := by
  by_cases full : r.room = 0
  · cases (beginObject_of_full look full).symm.trans h
    exact id
  · cases (beginObject_of_peek look full).symm.trans h

theorem not_isAboutValue_of_beginArray (look : peekLexeme r = .ok .beginArray r)
    (h : beginArray r = .error e r') : ¬ e.IsAboutValue := by
  by_cases full : r.room = 0
  · cases (beginArray_of_full look full).symm.trans h
    exact id
  · cases (beginArray_of_peek look full).symm.trans h

variable {inner outer : List Place}

theorem skippable_of_shows {after : List Place} (shows : Place.Shows l (inner ++ outer) after)
    (start : inner = [] → ∃ places, outer = .memberValue :: places) :
    l ≠ .endDocument ∧ (l = .endObject ∨ l = .endArray → inner ≠ []) := by
  cases inner with
  | nil =>
      obtain ⟨places, rfl⟩ := start rfl
      obtain ⟨-, value⟩ := shows
      constructor
      · rintro rfl
        cases value
      · rintro (rfl | rfl)
        · cases value
        · cases value
  | cons place inner => exact ⟨shows.ne_endDocument, fun _ => List.cons_ne_nil _ _⟩

/-- Where a value is skipped, a round fails only for the text, the data or the nesting limit. -/
theorem not_isAboutValue_of_skipRound (unseen : r.lookahead = none)
    (split : r.places = inner ++ outer)
    (start : inner = [] → ∃ places, outer = .memberValue :: places)
    (h : skipRound inner.length r = .error e r') : ¬ e.IsAboutValue := by
  obtain look | ⟨l, r₁, look, rest⟩ := bind_eq_error.mp h
  · exact not_isAboutValue_of_peekLexeme look
  have again : peekLexeme r₁ = .ok l r₁ := peekLexeme_of_some (lookahead_of_peek look)
  have shows : Place.Shows l (inner ++ outer) r₁.places := by
    rw [peekLexeme_of_none unseen] at look
    obtain ⟨_, r₂, next, behind⟩ := bind_eq_ok.mp look
    cases behind
    rw [← split]
    exact (shows_of_nextLexeme next).1
  obtain ⟨goesOn, within⟩ := skippable_of_shows shows start
  cases l with
  | beginObject =>
      obtain failed | ⟨_, _, -, ⟨⟩⟩ := bind_eq_error.mp rest
      exact not_isAboutValue_of_beginObject again failed
  | beginArray =>
      obtain failed | ⟨_, _, -, ⟨⟩⟩ := bind_eq_error.mp rest
      exact not_isAboutValue_of_beginArray again failed
  | endObject =>
      obtain ⟨place, places, rfl⟩ := List.exists_cons_of_ne_nil (within (.inl rfl))
      cases (bind_of_ok (endObject_of_peek again)).symm.trans rest
  | endArray =>
      obtain ⟨place, places, rfl⟩ := List.exists_cons_of_ne_nil (within (.inr rfl))
      cases (bind_of_ok (endArray_of_peek again)).symm.trans rest
  | name s => cases (bind_of_ok (nextName_of_peek again)).symm.trans rest
  | string | number | boolean | null => cases rest
  | endDocument => exact absurd rfl goesOn

theorem not_isAboutValue_of_skipWithin {rounds : Nat} (unseen : r.lookahead = none)
    (split : r.places = inner ++ outer)
    (start : inner = [] → ∃ places, outer = .memberValue :: places)
    (settled : Place.Settled inner.tail) (h : skipWithin rounds inner.length r = .error e r') :
    ¬ e.IsAboutValue := by
  induction rounds generalizing r inner outer with
  | zero => cases h
  | succ rounds ih =>
      obtain failed | ⟨a, r₁, round, rest⟩ := bind_eq_error.mp h
      · exact not_isAboutValue_of_skipRound unseen split start failed
      · obtain ⟨unit, step, inside⟩ := event_of_skipRound round
        have advances := advances_of_nextEvent unseen split start settled step
        cases round.symm.trans (skipRound_of_event step inside)
        obtain ⟨seen, -⟩ := (Consumes.single step).behind
        cases behind : unit.depthBehind inner.length with
        | none =>
            rw [behind] at rest
            cases rest
        | some depth =>
            rw [behind] at advances rest
            obtain ⟨inner', outer', split', rfl, nonempty, settled', -⟩ := advances
            exact ih seen split' (fun none => absurd none nonempty) settled' rest

end ReadM

end TypedJson
