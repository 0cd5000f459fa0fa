import TypedJson.Reader.Scalar
import TypedJson.Reader.Events
import TypedJson.Proofs.Operation

set_option autoImplicit false
set_option relaxedAutoImplicit false

namespace TypedJson

open Operation

namespace ReadM

variable {r : Reader} {containers : List Container}

theorem lex_of_ok {α : Type} {x : LexM α} {a : α} {c : Cursor} (h : x r.cursor = .ok a c) :
    lex x r = .ok a { r with cursor := c } := by
  simp only [lex, h]

theorem lex_eq_ok {α : Type} {x : LexM α} {r' : Reader} {a : α} (h : lex x r = .ok a r') :
    ∃ c, r' = { r with cursor := c } ∧ x r.cursor = .ok a c := by
  simp only [lex] at h
  split at h
  · rename_i c hc
    cases h
    exact ⟨c, rfl, hc⟩
  · cases h

theorem lex_eq_error {α : Type} {x : LexM α} {r' : Reader} {e : ReadError}
    (h : lex x r = .error e r') :
    ∃ fault c, r' = { r with cursor := c } ∧ e = .ofFault fault r'.location ∧
      x r.cursor = .error fault c := by
  simp only [lex] at h
  split at h
  · cases h
  · rename_i fault c hc
    cases h
    exact ⟨fault, c, rfl, rfl, hc⟩

theorem nextLexeme_firstItem {index : Nat} (h : r.containers = .array false index :: containers) :
    nextLexeme r = firstItem r.settings.lenient (r.setContainer (.array true index)) := by
  unfold nextLexeme
  rw [get_bind]
  simp only [h]
  rfl

theorem nextLexeme_nextItem {index : Nat} (h : r.containers = .array true index :: containers) :
    nextLexeme r = nextItem r.settings.lenient r := by
  unfold nextLexeme
  rw [get_bind]
  simp only [h]

theorem nextLexeme_memberValue {member : Option String}
    (h : r.containers = .object .named member :: containers) :
    nextLexeme r = memberValue r.settings.lenient (r.setContainer (.object .nonEmpty member)) := by
  unfold nextLexeme
  rw [get_bind]
  simp only [h]
  rfl

def member (lenient first : Bool) (last : Option String) : ReadM Lexeme := do
  match ← findMember lenient first with
  | none => pure .endObject
  | some b =>
      modify fun r => r.setContainer (.object .named last)
      lex (LexM.name lenient b)

theorem nextLexeme_member {phase : ObjectPhase} {last : Option String} (hp : phase ≠ .named)
    (h : r.containers = .object phase last :: containers) :
    nextLexeme r = member r.settings.lenient (phase = .empty) last r := by
  unfold nextLexeme
  rw [get_bind]
  cases phase with
  | named => exact absurd rfl hp
  | empty =>
      simp only [h]
      rfl
  | nonEmpty =>
      simp only [h]
      rfl

theorem nextLexeme_topValue (h : r.containers = []) (hs : r.documentStarted = false) :
    nextLexeme r = topValue r.settings.lenient { r with documentStarted := true } := by
  unfold nextLexeme
  rw [get_bind]
  simp only [h, hs]
  rfl

theorem nextLexeme_afterTopValue (h : r.containers = []) (hs : r.documentStarted = true) :
    nextLexeme r = afterTopValue r.settings.lenient r := by
  unfold nextLexeme
  rw [get_bind]
  simp only [h, hs]
  rfl

/-- The operation that looks for the next unit in each grammar position, and the state that it runs
from: that of the reader, with the position moved on. -/
inductive Lookup (r : Reader) : ReadM Lexeme → Reader → Prop
  | topValue (outside : r.containers = []) (fresh : r.documentStarted = false) :
      Lookup r (topValue r.settings.lenient) { r with documentStarted := true }
  | afterTopValue (outside : r.containers = []) (started : r.documentStarted = true) :
      Lookup r (afterTopValue r.settings.lenient) r
  | firstItem {index : Nat} {outer : List Container}
      (within : r.containers = .array false index :: outer) :
      Lookup r (firstItem r.settings.lenient) (r.setContainer (.array true index))
  | nextItem {index : Nat} {outer : List Container}
      (within : r.containers = .array true index :: outer) :
      Lookup r (nextItem r.settings.lenient) r
  | memberValue {last : Option String} {outer : List Container}
      (within : r.containers = .object .named last :: outer) :
      Lookup r (memberValue r.settings.lenient) (r.setContainer (.object .nonEmpty last))
  | member {phase : ObjectPhase} {last : Option String} {outer : List Container}
      (unnamed : phase ≠ .named) (within : r.containers = .object phase last :: outer) :
      Lookup r (member r.settings.lenient (phase = .empty) last) r

/-- The next unit is looked for by one of these operations, so that what holds behind each of them
holds behind the search. -/
theorem exists_lookup (r : Reader) : ∃ x q, Lookup r x q ∧ nextLexeme r = x q := by
  cases containers : r.containers with
  | nil =>
      cases started : r.documentStarted with
      | false => exact ⟨_, _, .topValue containers started, nextLexeme_topValue containers started⟩
      | true =>
          exact ⟨_, _, .afterTopValue containers started,
            nextLexeme_afterTopValue containers started⟩
  | cons container outer =>
      cases container with
      | array started index =>
          cases started with
          | false => exact ⟨_, _, .firstItem containers, nextLexeme_firstItem containers⟩
          | true => exact ⟨_, _, .nextItem containers, nextLexeme_nextItem containers⟩
      | object phase last =>
          by_cases named : phase = .named
          · subst named
            exact ⟨_, _, .memberValue containers, nextLexeme_memberValue containers⟩
          · exact ⟨_, _, .member named containers, nextLexeme_member named containers⟩

theorem nextLexeme_eq_error {r' : Reader} {e : ReadError} (h : nextLexeme r = .error e r') :
    ∃ (α : Type) (x : LexM α) (q : Reader), lex x q = .error e r' ∧ q.lookahead = r.lookahead := by
  obtain ⟨x, q, look, run⟩ := exists_lookup r
  rw [run] at h
  cases look with
  | topValue | afterTopValue | firstItem | nextItem | memberValue => exact ⟨_, _, _, h, rfl⟩
  | member =>
      obtain finding | ⟨found, r₁, finding, rest⟩ := bind_eq_error.mp h
      · exact ⟨_, _, _, finding, rfl⟩
      · obtain ⟨c, rfl, -⟩ := lex_eq_ok finding
        cases found with
        | none => cases rest
        | some b =>
            obtain ⟨⟨⟩⟩ | ⟨_, _, ⟨⟩, naming⟩ := bind_eq_error.mp rest
            exact ⟨_, _, _, naming, rfl⟩

theorem peekLexeme_of_some {l : Lexeme} (h : r.lookahead = some l) : peekLexeme r = .ok l r := by
  unfold peekLexeme
  rw [get_bind]
  simp only [h]
  rfl

theorem peekLexeme_of_none (h : r.lookahead = none) :
    peekLexeme r =
      (do let l ← nextLexeme
          modify fun r => { r with lookahead := some l }
          pure l : ReadM Lexeme) r := by
  unfold peekLexeme
  rw [get_bind]
  simp only [h]

theorem nextLexeme_of_peek {r' : Reader} {l : Lexeme} (unseen : r.lookahead = none)
    (h : peekLexeme r = .ok l r') :
    ∃ q, nextLexeme r = .ok l q ∧ r' = { q with lookahead := some l } := by
  rw [peekLexeme_of_none unseen] at h
  obtain ⟨l', q, next, rest⟩ := bind_eq_ok.mp h
  cases rest
  exact ⟨q, next, rfl⟩

theorem peekLexeme_eq_ok {r' : Reader} {l : Lexeme} (h : peekLexeme r = .ok l r') :
    r.lookahead = some l ∧ r' = r ∨
      r.lookahead = none ∧ ∃ q, nextLexeme r = .ok l q ∧ r' = { q with lookahead := some l } := by
  cases lookahead : r.lookahead with
  | some seen =>
      rw [peekLexeme_of_some lookahead] at h
      cases h
      exact .inl ⟨rfl, rfl⟩
  | none => exact .inr ⟨rfl, nextLexeme_of_peek lookahead h⟩

theorem peekLexeme_eq_error {r' : Reader} {e : ReadError} (h : peekLexeme r = .error e r') :
    r.lookahead = none ∧ nextLexeme r = .error e r' := by
  cases lookahead : r.lookahead with
  | some seen =>
      rw [peekLexeme_of_some lookahead] at h
      cases h
  | none =>
      rw [peekLexeme_of_none lookahead] at h
      obtain next | ⟨_, _, -, rest⟩ := bind_eq_error.mp h
      · exact ⟨rfl, next⟩
      · cases rest

theorem enter_of_zero {c : Container} (h : r.room = 0) :
    enter c r = fail (.malformed .maxNestingDepthExceeded) r := by
  unfold enter
  rw [get_bind]
  simp only [h]

theorem enter_of_succ {c : Container} {room : Nat} (h : r.room = room + 1) :
    enter c r = .ok () { r with containers := c :: r.containers, room } := by
  unfold enter
  rw [get_bind]
  simp only [h]
  rfl

end ReadM

def Lexeme.event? : Lexeme → Option Event
  | .beginObject => some .beginObject
  | .endObject => some .endObject
  | .beginArray => some .beginArray
  | .endArray => some .endArray
  | .name s => some (.name s)
  | .string s => some (.string s)
  | .number s => some (.number s)
  | .boolean b => some (.boolean b)
  | .null => some .null
  | .endDocument => none

theorem Lexeme.event?_inj {l l' : Lexeme} (h : l.event? = l'.event?) : l = l' := by
  cases l <;> cases l' <;> simp_all [event?]

namespace Reader

def behind (r : Reader) : Lexeme → Reader
  | .beginObject =>
      { r with lookahead := none, containers := .object .empty none :: r.containers,
               room := r.room - 1 }
  | .beginArray =>
      { r with lookahead := none, containers := .array false 0 :: r.containers, room := r.room - 1 }
  | .endObject | .endArray => { r with lookahead := none }.endContainer
  | .name s => { r with lookahead := none }.nameMember s
  | .string _ | .number _ | .boolean _ | .null => r.endScalar
  | .endDocument => r

def HasRoom (r : Reader) (l : Lexeme) : Prop :=
  l = .beginObject ∨ l = .beginArray → r.room ≠ 0

end Reader

namespace ReadM

/-! What an operation does with the unit that it finds. -/

section

variable {r r' : Reader} {l : Lexeme}

theorem lookahead_of_peek (h : peekLexeme r = .ok l r') : r'.lookahead = some l := by
  obtain ⟨seen, rfl⟩ | ⟨-, q, -, rfl⟩ := peekLexeme_eq_ok h
  · exact seen
  · rfl

theorem peek_of_peek (h : peekLexeme r = .ok l r') : peek r = .ok l.token r' :=
  bind_of_ok h

theorem expect_of_peek {α : Type} {e : Expectation} {select : Lexeme → Option α} {a : α}
    (h : peekLexeme r = .ok l r') (hs : select l = some a) : expect e select r = .ok a r' := by
  unfold expect
  rw [bind_of_ok h, hs]
  rfl

theorem take_of_peek (h : peekLexeme r = .ok l r') :
    take l r = .ok () { r' with lookahead := none } := by
  unfold take
  rw [bind_of_ok (expect_of_peek h (if_pos rfl))]
  rfl

theorem takeScalar_of_peek {α : Type} {t : Token} {select : Lexeme → Option α} {a : α}
    (h : peekLexeme r = .ok l r') (hs : select l = some a) :
    takeScalar t select r = .ok a r'.endScalar := by
  unfold takeScalar
  rw [bind_of_ok (expect_of_peek h hs)]
  rfl

private theorem enter_of_room {c : Container} (h : r.room ≠ 0) :
    enter c r = .ok () { r with containers := c :: r.containers, room := r.room - 1 } :=
  enter_of_succ (by omega)

theorem beginObject_of_peek (h : peekLexeme r = .ok .beginObject r') (room : r'.room ≠ 0) :
    beginObject r = .ok () (r'.behind .beginObject) :=
  (bind_of_ok (take_of_peek h)).trans (enter_of_room room)

theorem beginArray_of_peek (h : peekLexeme r = .ok .beginArray r') (room : r'.room ≠ 0) :
    beginArray r = .ok () (r'.behind .beginArray) :=
  (bind_of_ok (take_of_peek h)).trans (enter_of_room room)

theorem beginObject_of_full (h : peekLexeme r = .ok .beginObject r') (full : r'.room = 0) :
    beginObject r = fail (.malformed .maxNestingDepthExceeded) { r' with lookahead := none } :=
  (bind_of_ok (take_of_peek h)).trans (enter_of_zero (r := { r' with lookahead := none }) full)

theorem beginArray_of_full (h : peekLexeme r = .ok .beginArray r') (full : r'.room = 0) :
    beginArray r = fail (.malformed .maxNestingDepthExceeded) { r' with lookahead := none } :=
  (bind_of_ok (take_of_peek h)).trans (enter_of_zero (r := { r' with lookahead := none }) full)

theorem endObject_of_peek (h : peekLexeme r = .ok .endObject r') :
    endObject r = .ok () (r'.behind .endObject) :=
  bind_of_ok (take_of_peek h)

theorem endArray_of_peek (h : peekLexeme r = .ok .endArray r') :
    endArray r = .ok () (r'.behind .endArray) :=
  bind_of_ok (take_of_peek h)

theorem nextName_of_peek {s : String} (h : peekLexeme r = .ok (.name s) r') :
    nextName r = .ok s (r'.behind (.name s)) :=
  bind_of_ok (expect_of_peek h rfl)

theorem nextNull_of_peek (h : peekLexeme r = .ok .null r') :
    nextNull r = .ok () (r'.behind .null) :=
  bind_of_ok (take_of_peek h)

theorem nextEvent_of_peek (h : peekLexeme r = .ok l r') (room : r'.HasRoom l) :
    nextEvent r = .ok l.event? (r'.behind l) := by
  have again := peekLexeme_of_some (lookahead_of_peek h)
  refine (bind_of_ok (peek_of_peek h)).trans ?_
  cases l with
  | beginObject => exact bind_of_ok (beginObject_of_peek again (room (.inl rfl)))
  | endObject => exact bind_of_ok (endObject_of_peek again)
  | beginArray => exact bind_of_ok (beginArray_of_peek again (room (.inr rfl)))
  | endArray => exact bind_of_ok (endArray_of_peek again)
  | name s => exact bind_of_ok (nextName_of_peek again)
  | string s => exact bind_of_ok (takeScalar_of_peek again rfl)
  | number s => exact bind_of_ok (takeScalar_of_peek again rfl)
  | boolean b => exact bind_of_ok (takeScalar_of_peek again rfl)
  | null => exact bind_of_ok (nextNull_of_peek again)
  | endDocument => rfl

theorem hasRoom_of_nextEvent {a : Option Event} {r'' : Reader} (h : peekLexeme r = .ok l r')
    (he : nextEvent r = .ok a r'') : r'.HasRoom l := by
  have again := peekLexeme_of_some (lookahead_of_peek h)
  have he := (bind_of_ok (peek_of_peek h)).symm.trans he
  rintro (rfl | rfl) full
  · obtain ⟨_, _, hb, -⟩ := bind_eq_ok.mp he
    cases (beginObject_of_full again full).symm.trans hb
  · obtain ⟨_, _, hb, -⟩ := bind_eq_ok.mp he
    cases (beginArray_of_full again full).symm.trans hb

theorem nextEvent_eq_ok {a : Option Event} (h : nextEvent r = .ok a r') :
    ∃ l r₁, peekLexeme r = .ok l r₁ ∧ l.event? = a ∧ r₁.HasRoom l ∧ r' = r₁.behind l := by
  obtain ⟨t, _, looking, -⟩ := bind_eq_ok.mp h
  obtain ⟨l, r₁, look, -⟩ := bind_eq_ok.mp looking
  have room : r₁.HasRoom l := hasRoom_of_nextEvent look h
  cases (nextEvent_of_peek look room).symm.trans h
  exact ⟨l, r₁, look, rfl, room, rfl⟩

end

end ReadM

namespace Reader

variable (r : Reader) (c : Cursor)

theorem endValue_withCursor :
    { r with cursor := c }.endValue = { r.endValue with cursor := c } := by
  obtain ⟨cursor, lookahead, started, containers, room, settings⟩ := r
  cases containers with
  | nil => rfl
  | cons container containers => cases container <;> rfl

@[simp] theorem endValue_cursor : r.endValue.cursor = r.cursor := by
  unfold endValue
  split <;> rfl

theorem nameMember_withCursor (name : String) :
    { r with cursor := c }.nameMember name = { r.nameMember name with cursor := c } := by
  obtain ⟨cursor, lookahead, started, containers, room, settings⟩ := r
  cases containers with
  | nil => rfl
  | cons container containers => cases container <;> rfl

@[simp] theorem nameMember_cursor (name : String) : (r.nameMember name).cursor = r.cursor := by
  unfold nameMember
  split <;> rfl

end Reader

end TypedJson
