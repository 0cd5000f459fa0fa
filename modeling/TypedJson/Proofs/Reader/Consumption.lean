import TypedJson.Proofs.Grammar.Tree
import TypedJson.Proofs.Reader.Progress

/-!
# What an operation consumes

The units that lie between two states of a reader. Whatever an operation answers, the unit that it
has consumed is the one that the plain loop would have taken, and both leave the same state. Where
the units are those of a value, skipping the value comes to the same.
-/

set_option autoImplicit false
set_option relaxedAutoImplicit false

namespace TypedJson

open Operation

/-- The reader comes from one state to the other by taking these units one by one. -/
inductive Reader.Consumes : List Event → Reader → Reader → Prop where
  | nil {r : Reader} : Consumes [] r r
  | cons {e : Event} {evs : List Event} {r r₁ r' : Reader} :
      ReadM.nextEvent r = .ok (some e) r₁ → Consumes evs r₁ r' → Consumes (e :: evs) r r'

namespace ReadM

open Reader (Consumes)

variable {α : Type} {r r₁ r' : Reader} {l : Lexeme} {e : Event} {evs evs' : List Event}

/-! The unit behind an operation that succeeds. -/

theorem expect_eq_ok {expected : Expectation} {select : Lexeme → Option α} {a : α}
    (h : expect expected select r = .ok a r') : ∃ l, peekLexeme r = .ok l r' ∧ select l = some a := by
  obtain ⟨l, r₁, look, rest⟩ := bind_eq_ok.mp h
  cases selected : select l with
  | none =>
      simp only [selected] at rest
      cases rest
  | some b =>
      simp only [selected] at rest
      cases rest
      exact ⟨l, look, selected⟩

theorem take_eq_ok (h : take l r = .ok () r') :
    ∃ r₁, peekLexeme r = .ok l r₁ ∧ r' = { r₁ with lookahead := none } := by
  obtain ⟨_, r₁, found, rest⟩ := bind_eq_ok.mp h
  obtain ⟨actual, look, same⟩ := expect_eq_ok found
  cases rest
  by_cases found : actual = l
  · exact ⟨r₁, found ▸ look, rfl⟩
  · rw [if_neg found] at same
    cases same

theorem event_of_beginObject (h : beginObject r = .ok () r') :
    nextEvent r = .ok (some .beginObject) r' := by
  obtain ⟨_, r₁, taken, -⟩ := bind_eq_ok.mp h
  obtain ⟨r₂, look, -⟩ := take_eq_ok taken
  have room : r₂.room ≠ 0 := by
    intro full
    cases (beginObject_of_full look full).symm.trans h
  cases (beginObject_of_peek look room).symm.trans h
  exact nextEvent_of_peek look fun _ => room

theorem event_of_beginArray (h : beginArray r = .ok () r') :
    nextEvent r = .ok (some .beginArray) r' := by
  obtain ⟨_, r₁, taken, -⟩ := bind_eq_ok.mp h
  obtain ⟨r₂, look, -⟩ := take_eq_ok taken
  have room : r₂.room ≠ 0 := by
    intro full
    cases (beginArray_of_full look full).symm.trans h
  cases (beginArray_of_peek look room).symm.trans h
  exact nextEvent_of_peek look fun _ => room

private theorem event_of_take {f : Reader → Reader} (flat : ∀ r : Reader, r.HasRoom l)
    (behind : ∀ r : Reader, r.behind l = f { r with lookahead := none })
    (h : (do take l; modify f : ReadM PUnit) r = .ok () r') : nextEvent r = .ok l.event? r' := by
  obtain ⟨_, r₁, taken, rest⟩ := bind_eq_ok.mp h
  obtain ⟨r₂, look, rfl⟩ := take_eq_ok taken
  cases rest
  rw [← behind r₂]
  exact nextEvent_of_peek look (flat r₂)

theorem event_of_endObject (h : endObject r = .ok () r') :
    nextEvent r = .ok (some .endObject) r' :=
  event_of_take (fun _ => by simp [Reader.HasRoom]) (fun _ => rfl) h

theorem event_of_endArray (h : endArray r = .ok () r') :
    nextEvent r = .ok (some .endArray) r' :=
  event_of_take (fun _ => by simp [Reader.HasRoom]) (fun _ => rfl) h

theorem event_of_nextNull (h : nextNull r = .ok () r') :
    nextEvent r = .ok (some .null) r' :=
  event_of_take (fun _ => by simp [Reader.HasRoom]) (fun _ => rfl) h

theorem event_of_nextName {name : String} (h : nextName r = .ok name r') :
    nextEvent r = .ok (some (.name name)) r' := by
  obtain ⟨_, r₁, found, -⟩ := bind_eq_ok.mp h
  obtain ⟨l, look, selected⟩ := expect_eq_ok found
  cases l with
  | name s =>
      cases (nextName_of_peek look).symm.trans h
      exact nextEvent_of_peek look (by simp [Reader.HasRoom])
  | _ => cases selected

/-! Taking the unit that comes next. -/

theorem beginObject_of_event (h : nextEvent r = .ok (some .beginObject) r') :
    beginObject r = .ok () r' := by
  obtain ⟨l, r₁, look, event, room, rfl⟩ := nextEvent_eq_ok h
  obtain rfl : l = .beginObject := Lexeme.event?_inj event
  exact beginObject_of_peek look (room (.inl rfl))

theorem beginArray_of_event (h : nextEvent r = .ok (some .beginArray) r') :
    beginArray r = .ok () r' := by
  obtain ⟨l, r₁, look, event, room, rfl⟩ := nextEvent_eq_ok h
  obtain rfl : l = .beginArray := Lexeme.event?_inj event
  exact beginArray_of_peek look (room (.inr rfl))

theorem endObject_of_event (h : nextEvent r = .ok (some .endObject) r') :
    endObject r = .ok () r' := by
  obtain ⟨l, r₁, look, event, -, rfl⟩ := nextEvent_eq_ok h
  obtain rfl : l = .endObject := Lexeme.event?_inj event
  exact endObject_of_peek look

theorem endArray_of_event (h : nextEvent r = .ok (some .endArray) r') :
    endArray r = .ok () r' := by
  obtain ⟨l, r₁, look, event, -, rfl⟩ := nextEvent_eq_ok h
  obtain rfl : l = .endArray := Lexeme.event?_inj event
  exact endArray_of_peek look

theorem nextName_of_event {name : String} (h : nextEvent r = .ok (some (.name name)) r') :
    nextName r = .ok name r' := by
  obtain ⟨l, r₁, look, event, -, rfl⟩ := nextEvent_eq_ok h
  obtain rfl : l = .name name := Lexeme.event?_inj event
  exact nextName_of_peek look

theorem nextNull_of_event (h : nextEvent r = .ok (some .null) r') :
    nextNull r = .ok () r' := by
  obtain ⟨l, r₁, look, event, -, rfl⟩ := nextEvent_eq_ok h
  obtain rfl : l = .null := Lexeme.event?_inj event
  exact nextNull_of_peek look

theorem takeScalar_eq_ok {expected : Token} {select : Lexeme → Option α} {a : α}
    (h : takeScalar expected select r = .ok a r') :
    ∃ l r₁, peekLexeme r = .ok l r₁ ∧ select l = some a ∧ r' = r₁.endScalar := by
  obtain ⟨b, r₁, found, rest⟩ := bind_eq_ok.mp h
  obtain ⟨l, look, selected⟩ := expect_eq_ok found
  cases rest
  exact ⟨l, r₁, look, selected, rfl⟩

theorem tree_of_textOrLiteral {expected : Token} {s : String}
    (h : takeScalar expected textOrLiteral? r = .ok s r') :
    ∃ t : Tree, Consumes t.events r r' := by
  obtain ⟨l, r₁, look, selected, rfl⟩ := takeScalar_eq_ok h
  cases l with
  | string s =>
      refine ⟨.string s, ?_⟩
      rw [Tree.events]
      exact .cons (nextEvent_of_peek look (by simp [Reader.HasRoom])) .nil
  | number s =>
      refine ⟨.number s, ?_⟩
      rw [Tree.events]
      exact .cons (nextEvent_of_peek look (by simp [Reader.HasRoom])) .nil
  | _ => cases selected

theorem tree_of_nextBool {b : Bool} (h : nextBool r = .ok b r') :
    ∃ t : Tree, Consumes t.events r r' := by
  obtain ⟨l, r₁, look, selected, rfl⟩ := takeScalar_eq_ok h
  cases l with
  | boolean b =>
      refine ⟨.boolean b, ?_⟩
      rw [Tree.events]
      exact .cons (nextEvent_of_peek look (by simp [Reader.HasRoom])) .nil
  | _ => cases selected

theorem nextEvent_of_peeked (h : peekLexeme r = .ok l r₁) : nextEvent r = nextEvent r₁ := by
  have again : peekLexeme r₁ = .ok l r₁ := peekLexeme_of_some (lookahead_of_peek h)
  unfold nextEvent
  rw [bind_of_ok (peek_of_peek h), bind_of_ok (peek_of_peek again)]

end ReadM

namespace Reader

variable {r r₁ r' r'' : Reader} {l : Lexeme} {e : Event} {evs evs' : List Event}

theorem Consumes.append (h : Consumes evs r r') (h' : Consumes evs' r' r'') :
    Consumes (evs ++ evs') r r'' := by
  induction h with
  | nil => exact h'
  | cons step _ ih => exact .cons step (ih h')

theorem Consumes.single (h : ReadM.nextEvent r = .ok (some e) r') : Consumes [e] r r' :=
  .cons h .nil

theorem consumes_append_iff :
    Consumes (evs ++ evs') r r'' ↔ ∃ r', Consumes evs r r' ∧ Consumes evs' r' r'' := by
  constructor
  · intro h
    induction evs generalizing r with
    | nil => exact ⟨r, .nil, h⟩
    | cons e evs ih =>
        cases h with
        | cons step rest =>
            obtain ⟨r', front, behind⟩ := ih rest
            exact ⟨r', .cons step front, behind⟩
  · rintro ⟨r', front, behind⟩
    exact front.append behind

theorem Consumes.of_peeked (look : ReadM.peekLexeme r = .ok l r₁)
    (h : Consumes (e :: evs) r₁ r') : Consumes (e :: evs) r r' := by
  cases h with
  | cons step rest => exact .cons ((ReadM.nextEvent_of_peeked look).trans step) rest

theorem Consumes.unitsLeft_le (h : Consumes evs r r') : r'.unitsLeft ≤ r.unitsLeft := by
  induction h with
  | nil => exact Nat.le_refl _
  | cons step _ ih =>
      have less := ReadM.ensures_nextEvent _ _ _ _ (Nat.le_refl _) step rfl
      omega

theorem Consumes.unitsLeft_lt (h : Consumes (e :: evs) r r') : r'.unitsLeft < r.unitsLeft := by
  cases h with
  | cons step rest =>
      have less := ReadM.ensures_nextEvent _ _ _ _ (Nat.le_refl _) step rfl
      have later := rest.unitsLeft_le
      omega

theorem eventsWithin_of_consumes {fuel : Nat} (h : Consumes evs r r₁)
    (last : ReadM.nextEvent r₁ = .ok none r') (enough : evs.length < fuel) :
    eventsWithin fuel r = ((evs, none), r') := by
  induction h generalizing fuel with
  | nil =>
      obtain ⟨fuel, rfl⟩ := Nat.exists_eq_succ_of_ne_zero (Nat.ne_of_gt enough)
      simp only [eventsWithin, last]
  | cons step _ ih =>
      obtain ⟨fuel, rfl⟩ := Nat.exists_eq_succ_of_ne_zero (Nat.ne_of_gt (Nat.zero_lt_of_lt enough))
      simp only [eventsWithin, step, ih last (Nat.lt_of_succ_lt_succ enough)]

/-- The plain loop hands out the units that lie in front of the end of the document. -/
theorem events_of_consumes (h : Consumes evs r r₁) (last : ReadM.nextEvent r₁ = .ok none r') :
    r.events = ((evs, none), r') := by
  have enough : r.unitsLeft < max (r.unitsLeft + 1) (evs.length + 1) := by omega
  rw [events, eventsWithin_congr (Nat.lt_succ_self _) enough]
  exact eventsWithin_of_consumes h last (by omega)

end Reader

/-- The depth within a skipped value behind a unit; `none` if the unit completes the value. -/
def Event.depthBehind (depth : Nat) : Event → Option Nat
  | .beginObject | .beginArray => some (depth + 1)
  | .endObject | .endArray => if depth = 1 then none else some (depth - 1)
  | .name _ => some depth
  | _ => if depth = 0 then none else some depth

namespace ReadM

open Reader (Consumes)
open TypedJson.Tree (itemEvents memberEvents)

variable {r r₁ r' : Reader} {l : Lexeme} {e : Event} {depth : Nat}

/-! Skipping, round by round and then tree by tree. -/

/-- A round of skipping takes the next unit, unless it ends the container around the value. -/
theorem skipRound_of_event (h : nextEvent r = .ok (some e) r')
    (inside : e.closes = true → depth ≠ 0) :
    skipRound depth r = .ok (e.depthBehind depth) r' := by
  obtain ⟨l, r₁, look, event, room, rfl⟩ := nextEvent_eq_ok h
  have again : peekLexeme r₁ = .ok l r₁ := peekLexeme_of_some (lookahead_of_peek look)
  unfold skipRound
  rw [bind_of_ok look]
  cases l with
  | beginObject =>
      cases event
      exact bind_of_ok (beginObject_of_peek again (room (.inl rfl)))
  | beginArray =>
      cases event
      exact bind_of_ok (beginArray_of_peek again (room (.inr rfl)))
  | endObject =>
      cases event
      obtain ⟨outer, rfl⟩ := Nat.exists_eq_succ_of_ne_zero (inside rfl)
      refine (bind_of_ok (endObject_of_peek again)).trans ?_
      simp [Event.depthBehind]
      rfl
  | endArray =>
      cases event
      obtain ⟨outer, rfl⟩ := Nat.exists_eq_succ_of_ne_zero (inside rfl)
      refine (bind_of_ok (endArray_of_peek again)).trans ?_
      simp [Event.depthBehind]
      rfl
  | name s =>
      cases event
      exact bind_of_ok (nextName_of_peek again)
  | string | number | boolean | null =>
      cases event
      rfl
  | endDocument => cases event

theorem event_of_skipRound {a : Option Nat} (h : skipRound depth r = .ok a r') :
    ∃ e, nextEvent r = .ok (some e) r' ∧ (e.closes = true → depth ≠ 0) := by
  obtain ⟨l, r₁, look, rest⟩ := bind_eq_ok.mp h
  rw [nextEvent_of_peeked look]
  have again : peekLexeme r₁ = .ok l r₁ := peekLexeme_of_some (lookahead_of_peek look)
  have flat (scalar : l ≠ .beginObject ∧ l ≠ .beginArray) : r₁.HasRoom l := by
    rintro (rfl | rfl)
    · exact absurd rfl scalar.1
    · exact absurd rfl scalar.2
  cases l with
  | beginObject =>
      obtain ⟨_, _, begun, ⟨⟩⟩ := bind_eq_ok.mp rest
      exact ⟨.beginObject, event_of_beginObject begun, nofun⟩
  | beginArray =>
      obtain ⟨_, _, begun, ⟨⟩⟩ := bind_eq_ok.mp rest
      exact ⟨.beginArray, event_of_beginArray begun, nofun⟩
  | endObject =>
      cases depth with
      | zero => cases rest
      | succ depth =>
          obtain ⟨_, _, ended, ⟨⟩⟩ := bind_eq_ok.mp rest
          exact ⟨.endObject, event_of_endObject ended, nofun⟩
  | endArray =>
      cases depth with
      | zero => cases rest
      | succ depth =>
          obtain ⟨_, _, ended, ⟨⟩⟩ := bind_eq_ok.mp rest
          exact ⟨.endArray, event_of_endArray ended, nofun⟩
  | name s =>
      obtain ⟨_, _, named, ⟨⟩⟩ := bind_eq_ok.mp rest
      exact ⟨.name _, event_of_nextName named, nofun⟩
  | string | number | boolean | null =>
      cases rest
      exact ⟨_, nextEvent_of_peek again (flat ⟨nofun, nofun⟩), nofun⟩
  | endDocument => cases rest

/-- Goes on skipping at a depth within the skipped value, with rounds enough; nothing is left to do
if the value is complete. -/
def resume : Option Nat → ReadM Unit
  | none => pure ()
  | some depth => do skipWithin ((← get).unitsLeft + 1) depth

theorem resume_of_event (h : nextEvent r = .ok (some e) r')
    (inside : e.closes = true → depth ≠ 0) :
    resume (some depth) r = resume (e.depthBehind depth) r' := by
  have less := ensures_nextEvent r.unitsLeft r _ r' (Nat.le_refl _) h rfl
  change skipWithin (r.unitsLeft + 1) depth r = _
  unfold skipWithin
  rw [bind_of_ok (skipRound_of_event h inside)]
  cases e.depthBehind depth with
  | none => rfl
  | some d => exact skipWithin_congr less (Nat.lt_succ_self _)

mutual

theorem resume_of_value {r r' : Reader} {depth : Nat} (t : Tree) (h : Consumes t.events r r') :
    resume (some depth) r = resume (if depth = 0 then none else some depth) r' := by
  cases t with
  | object members =>
      rw [Tree.events] at h
      cases h with
      | cons step rest =>
          rw [resume_of_event step nofun]
          exact resume_of_members members rest
  | array items =>
      rw [Tree.events] at h
      cases h with
      | cons step rest =>
          rw [resume_of_event step nofun]
          exact resume_of_items items rest
  | string | number | boolean | null =>
      rw [Tree.events] at h
      cases h with
      | cons step rest =>
          cases rest
          exact resume_of_event step nofun

theorem resume_of_items {r r' : Reader} {depth : Nat} (items : List Tree)
    (h : Consumes (itemEvents items) r r') :
    resume (some (depth + 1)) r = resume (if depth = 0 then none else some depth) r' := by
  cases items with
  | nil =>
      rw [itemEvents] at h
      cases h with
      | cons step rest =>
          cases rest
          rw [resume_of_event step fun _ => Nat.succ_ne_zero depth]
          simp [Event.depthBehind]
  | cons item items =>
      rw [itemEvents] at h
      obtain ⟨r₁, first, rest⟩ := Reader.consumes_append_iff.mp h
      rw [resume_of_value item first, if_neg (Nat.succ_ne_zero depth)]
      exact resume_of_items items rest

theorem resume_of_members {r r' : Reader} {depth : Nat} (members : List (String × Tree))
    (h : Consumes (memberEvents members) r r') :
    resume (some (depth + 1)) r = resume (if depth = 0 then none else some depth) r' := by
  cases members with
  | nil =>
      rw [memberEvents] at h
      cases h with
      | cons step rest =>
          cases rest
          rw [resume_of_event step fun _ => Nat.succ_ne_zero depth]
          simp [Event.depthBehind]
  | cons member members =>
      obtain ⟨name, value⟩ := member
      rw [memberEvents] at h
      cases h with
      | cons step rest =>
          obtain ⟨r₁, first, rest⟩ := Reader.consumes_append_iff.mp rest
          rw [resume_of_event step nofun]
          change resume (some (depth + 1)) _ = _
          rw [resume_of_value value first, if_neg (Nat.succ_ne_zero depth)]
          exact resume_of_members members rest

end

/-- Where the units of a value come next, skipping it comes to the state behind them. -/
theorem skipValue_of_consumes {t : Tree} (h : Consumes t.events r r') :
    skipValue r = .ok () r' :=
  resume_of_value t h

end ReadM

end TypedJson
