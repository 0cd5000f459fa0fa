import TypedJson.Proofs.Lexing.Lenient
import TypedJson.Proofs.Number.Numeral
import TypedJson.Proofs.Reader.Expects
import TypedJson.Proofs.Reader.Session

set_option autoImplicit false
set_option relaxedAutoImplicit false

namespace TypedJson

open Operation

/-- Outside of the words for non-finite numbers and of overflow, leniency makes no difference to a
double. -/
theorem Number.toDouble_of_strict {s : String} {x : Double} (h : toDouble false s = .ok x) :
    toDouble true s = .ok x := by
  unfold toDouble at h ⊢
  rw [if_neg (by simp)] at h
  by_cases literal : isLiteral s.toList = true
  · have word : ¬ (true = true ∧ s ∈ nonFiniteWords) := fun word => not_word literal word.2
    rw [if_neg (not_not_intro literal)] at h
    rw [if_neg word, if_neg (not_not_intro literal)]
    dsimp only at h ⊢
    rw [if_neg (by simp)]
    split at h
    · cases h
    · exact h
  · rw [if_pos (by simpa using literal)] at h
    cases h

namespace Reader

variable {r : Reader}

/-- The reader does not accept deviations from the grammar. -/
def IsStrict (r : Reader) : Prop :=
  r.settings.lenient = false

/-- The same reader, which accepts deviations. -/
def relaxed (r : Reader) : Reader :=
  { r with settings := { r.settings with lenient := true } }

theorem IsStrict.endValue (h : r.IsStrict) : r.endValue.IsStrict := by
  rw [IsStrict, (endValue_fields r).2.2.2]
  exact h

theorem IsStrict.nameMember (h : r.IsStrict) (name : String) : (r.nameMember name).IsStrict := by
  rw [IsStrict, (nameMember_fields r name).2.2.2]
  exact h

theorem endValue_relaxed (r : Reader) : r.relaxed.endValue = r.endValue.relaxed := by
  obtain ⟨cursor, lookahead, started, containers, room, settings⟩ := r
  cases containers with
  | nil => rfl
  | cons container containers => cases container <;> rfl

theorem nameMember_relaxed (r : Reader) (name : String) :
    r.relaxed.nameMember name = (r.nameMember name).relaxed := by
  obtain ⟨cursor, lookahead, started, containers, room, settings⟩ := r
  cases containers with
  | nil => rfl
  | cons container containers => cases container <;> rfl

end Reader

namespace ReadM

variable {α β : Type} {x : ReadM α}

/-- What succeeds on a strict reader succeeds on the lenient one, to the same effect. -/
abbrev Carried (x y : ReadM α) (doomed : α → Prop := fun _ => False) : Prop :=
  Carries Reader.IsStrict Reader.relaxed x y doomed

/-- The operation looks at leniency, if at all, in a way that makes no difference to its success. -/
abbrev Tolerant (x : ReadM α) : Prop :=
  Carried x x

theorem carried_fail {y : ReadM α} {doomed : α → Prop} (error : Location → ReadError) :
    Carried (fail error) y doomed :=
  Carries.of_yields_doomed (Yields.bind fun _ => Yields.throw)

theorem carried_lex {x y : LexM α} {doomed : α → Prop} (h : LexM.Extends x y doomed) :
    Carried (lex x) (lex y) doomed := by
  intro r a r' strict run safe
  obtain ⟨c, rfl, lexed⟩ := lex_eq_ok run
  obtain ⟨-, lexed⟩ := h r.cursor a c trivial lexed safe
  have relaxed : y r.relaxed.cursor = .ok a c := lexed
  refine ⟨strict, ?_⟩
  simp only [lex, relaxed]
  rfl

/-! Finding and lexing the next unit. -/

theorem carried_nextItem : Carried (nextItem false) (nextItem true) := by
  refine carried_lex (LexM.extends_behind_blank (fun b => ?_) Yields.throw)
  split
  · exact LexM.extends_refl _
  · split
    · refine (LexM.extends_refl _).bind fun _ =>
        LexM.extends_behind_blank (fun b => ?_) Yields.throw
      split
      · exact LexM.extends_fail .trailingCommaNotEnabled
      · exact LexM.extends_value b
    · exact LexM.extends_refl _

theorem carried_firstItem : Carried (firstItem false) (firstItem true) := by
  refine carried_lex (LexM.extends_behind_blank (fun b => ?_) Yields.throw)
  split
  · exact LexM.extends_refl _
  · exact LexM.extends_value b

/-- A strict reader may take a `#` for the beginning of a member name. -/
theorem carried_findMember (first : Bool) :
    Carried (findMember false first) (findMember true first) fun a => a = some Ascii.hash := by
  have behindComma (b : UInt8) : LexM.Extends
      (if b = Ascii.closeBrace then LexM.fail .trailingCommaNotEnabled else pure (some b))
      (if b = Ascii.closeBrace then do LexM.advance; pure none else pure (some b))
      fun a => a = some Ascii.hash := by
    split
    · exact LexM.extends_fail _
    · exact Carries.pure _
  refine carried_lex (LexM.extends_skipBlankToByte.bind_doomed (fun b _ => ?_) ?_)
  · split
    · exact (LexM.extends_refl LexM.advance).bind fun _ => Carries.pure none
    · split
      · exact Carries.pure _
      · split
        · refine (LexM.extends_refl LexM.advance).bind fun _ =>
            LexM.extends_skipBlankToByte.bind_doomed (fun b _ => behindComma b) ?_
          rintro _ rfl
          exact Yields.pure rfl
        · exact LexM.extends_fail _
  · rintro _ rfl
    cases first with
    | false => exact Yields.throw
    | true => exact Yields.pure rfl

theorem carried_memberValue : Carried (memberValue false) (memberValue true) := by
  refine carried_lex (LexM.extends_behind_blank (fun b => ?_) Yields.throw)
  split
  · exact (LexM.extends_refl _).bind fun _ =>
      LexM.extends_behind_blank LexM.extends_value Yields.throw
  · exact LexM.extends_refl _

theorem carried_topValue : Carried (topValue false) (topValue true) :=
  carried_lex (LexM.extends_behind_blank LexM.extends_value Yields.throw)

theorem carried_afterTopValue : Carried (afterTopValue false) (afterTopValue true) := by
  refine carried_lex (LexM.extends_skipBlank.bind_doomed (fun a _ => ?_) ?_)
  · cases a with
    | none => exact Carries.pure _
    | some b => exact LexM.extends_fail .trailingData
  · rintro _ rfl
    exact Yields.throw

theorem carried_member (first : Bool) (last : Option String) :
    Carried (member false first last) (member true first last) := by
  refine (carried_findMember first).bind_doomed (fun a _ => ?_) ?_
  · cases a with
    | none => exact Carries.pure _
    | some b =>
        have named : Tolerant (modify fun r => r.setContainer (.object .named last)) :=
          Carries.modify (fun _ strict => strict) fun _ => rfl
        exact named.bind fun _ => carried_lex (LexM.extends_name b)
  · rintro _ rfl
    refine Yields.bind fun _ r l r' run => ?_
    obtain ⟨c, -, lexed⟩ := lex_eq_ok run
    exact (LexM.yields_name_hash (Q := fun _ => False) _ _ _ lexed :)

theorem tolerant_nextLexeme : Tolerant nextLexeme := by
  intro r l r' strict run safe
  -- the state in which a unit is lexed is that of the reader with its position moved on
  have via {x : Bool → ReadM Lexeme} {t : Reader} (carried : Carried (x false) (x true))
      (here : nextLexeme r = x r.settings.lenient t) (moved : t.IsStrict)
      (there : nextLexeme r.relaxed = x true t.relaxed) :
      r'.IsStrict ∧ nextLexeme r.relaxed = .ok l r'.relaxed := by
    rw [here, strict] at run
    rw [there]
    exact carried t l r' moved run safe
  obtain ⟨x, q, look, here⟩ := exists_lookup r
  cases look with
  | topValue outside fresh =>
      exact via carried_topValue here strict (nextLexeme_topValue (r := r.relaxed) outside fresh)
  | afterTopValue outside started =>
      exact via carried_afterTopValue here strict
        (nextLexeme_afterTopValue (r := r.relaxed) outside started)
  | firstItem within =>
      exact via carried_firstItem here strict (nextLexeme_firstItem (r := r.relaxed) within)
  | nextItem within =>
      exact via carried_nextItem here strict (nextLexeme_nextItem (r := r.relaxed) within)
  | memberValue within =>
      exact via carried_memberValue here strict (nextLexeme_memberValue (r := r.relaxed) within)
  | @member phase last _ unnamed within =>
      exact via (x := fun lenient => member lenient (phase = .empty) last) (carried_member _ _) here
        strict (nextLexeme_member (r := r.relaxed) unnamed within)

theorem tolerant_pure (a : α) : Tolerant (pure a) :=
  Carries.pure a

theorem Tolerant.map (h : Tolerant x) (f : α → β) : Tolerant (do pure (f (← x))) :=
  h.bind fun _ => Carries.pure _

theorem tolerant_peekLexeme : Tolerant peekLexeme := by
  refine Carries.of_agree fun r _ => ?_
  cases look : r.lookahead with
  | some l =>
      have look' : r.relaxed.lookahead = some l := look
      exact ⟨_, _, tolerant_pure l, peekLexeme_of_some look, peekLexeme_of_some look'⟩
  | none =>
      have look' : r.relaxed.lookahead = none := look
      have kept (l : Lexeme) : Tolerant (modify fun r => { r with lookahead := some l }) :=
        Carries.modify (fun _ strict => strict) fun _ => rfl
      refine ⟨_, _, ?_, peekLexeme_of_none look, peekLexeme_of_none look'⟩
      exact tolerant_nextLexeme.bind fun l => (kept l).bind fun _ => Carries.pure l

theorem tolerant_peek : Tolerant peek :=
  tolerant_peekLexeme.map Lexeme.token

theorem tolerant_hasNext : Tolerant hasNext := by
  refine tolerant_peekLexeme.bind fun l => ?_
  cases l <;> exact Carries.pure _

/-! Consuming the next unit. -/

theorem tolerant_expect (expected : Expectation) (select : Lexeme → Option α) :
    Tolerant (expect expected select) := by
  refine tolerant_peekLexeme.bind fun l => ?_
  cases select l with
  | some a => exact Carries.pure a
  | none => exact carried_fail _

theorem tolerant_take (l : Lexeme) : Tolerant (take l) :=
  (tolerant_expect _ _).bind fun _ => Carries.modify (fun _ strict => strict) fun _ => rfl

theorem tolerant_enter (container : Container) : Tolerant (enter container) := by
  refine Carries.of_agree fun r _ => ?_
  cases room : r.room with
  | zero =>
      have room' : r.relaxed.room = 0 := room
      exact ⟨_, _, carried_fail _, enter_of_zero room, enter_of_zero room'⟩
  | succ n =>
      have room' : r.relaxed.room = n + 1 := room
      have entered : Tolerant
          (modify fun r => { r with containers := container :: r.containers, room := n }) :=
        Carries.modify (fun _ strict => strict) fun _ => rfl
      exact ⟨_, _, entered, enter_of_succ room, enter_of_succ room'⟩

theorem tolerant_endValue : Tolerant (modify Reader.endValue) :=
  Carries.modify (fun _ strict => strict.endValue) Reader.endValue_relaxed

theorem tolerant_endScalar : Tolerant (modify Reader.endScalar) :=
  Carries.modify
    (fun r strict => Reader.IsStrict.endValue (r := { r with lookahead := none }) strict)
    fun r => Reader.endValue_relaxed { r with lookahead := none }

theorem tolerant_endContainer : Tolerant (modify Reader.endContainer) :=
  Carries.modify
    (fun r strict => Reader.IsStrict.endValue
      (r := { r with containers := r.containers.tail, room := r.room + 1 }) strict)
    fun r => Reader.endValue_relaxed { r with containers := r.containers.tail, room := r.room + 1 }

theorem tolerant_beginObject : Tolerant beginObject :=
  (tolerant_take _).bind fun _ => tolerant_enter _

theorem tolerant_endObject : Tolerant endObject :=
  (tolerant_take _).bind fun _ => tolerant_endContainer

theorem tolerant_beginArray : Tolerant beginArray :=
  (tolerant_take _).bind fun _ => tolerant_enter _

theorem tolerant_endArray : Tolerant endArray :=
  (tolerant_take _).bind fun _ => tolerant_endContainer

theorem tolerant_nextName : Tolerant nextName := by
  refine (tolerant_expect _ _).bind fun name => Carries.bind ?_ fun _ => Carries.pure name
  apply Carries.modify
  · exact fun r strict =>
      Reader.IsStrict.nameMember (r := { r with lookahead := none }) strict name
  · exact fun r => Reader.nameMember_relaxed { r with lookahead := none } name

theorem tolerant_takeScalar (expected : Token) (select : Lexeme → Option α) :
    Tolerant (takeScalar expected select) :=
  (tolerant_expect _ _).bind fun a => tolerant_endScalar.bind fun _ => Carries.pure a

theorem tolerant_nextNull : Tolerant nextNull :=
  (tolerant_take _).bind fun _ => tolerant_endValue

theorem tolerant_skipRound (depth : Nat) : Tolerant (skipRound depth) := by
  refine tolerant_peekLexeme.bind fun l => ?_
  split
  · exact tolerant_beginObject.bind fun _ => Carries.pure _
  · exact tolerant_beginArray.bind fun _ => Carries.pure _
  · exact tolerant_endObject.bind fun _ => Carries.pure _
  · exact tolerant_endArray.bind fun _ => Carries.pure _
  · exact tolerant_nextName.bind fun _ => Carries.pure _
  · exact tolerant_endScalar.bind fun _ => Carries.pure _
  · exact tolerant_endScalar.bind fun _ => Carries.pure _
  · exact tolerant_endScalar.bind fun _ => Carries.pure _
  · exact tolerant_endScalar.bind fun _ => Carries.pure _
  · exact carried_fail _

theorem tolerant_skipWithin (fuel depth : Nat) : Tolerant (skipWithin fuel depth) := by
  induction fuel generalizing depth with
  | zero => exact Carries.pure ()
  | succ fuel ih =>
      refine (tolerant_skipRound depth).bind fun a => ?_
      cases a with
      | none => exact Carries.pure ()
      | some d => exact ih d

theorem tolerant_skipValue : Tolerant skipValue :=
  Carries.of_agree fun r _ => ⟨_, _, tolerant_skipWithin (r.unitsLeft + 1) 0, rfl, rfl⟩

theorem tolerant_finish : Tolerant finish :=
  tolerant_expect _ _

theorem tolerant_nextEvent : Tolerant nextEvent := by
  refine tolerant_peek.bind fun t => ?_
  cases t with
  | beginObject => exact tolerant_beginObject.bind fun _ => Carries.pure _
  | endObject => exact tolerant_endObject.bind fun _ => Carries.pure _
  | beginArray => exact tolerant_beginArray.bind fun _ => Carries.pure _
  | endArray => exact tolerant_endArray.bind fun _ => Carries.pure _
  | name => exact tolerant_nextName.map _
  | string => exact (tolerant_takeScalar _ _).map _
  | number => exact (tolerant_takeScalar _ _).map _
  | boolean => exact (tolerant_takeScalar _ _).map _
  | null => exact tolerant_nextNull.bind fun _ => Carries.pure _
  | endDocument => exact Carries.pure none

/-! Typed reading of scalars. -/

theorem carried_convert {text target : String} {c c' : Except Number.ConversionFault α}
    (h : ∀ a, c = .ok a → c' = .ok a) :
    Carried (convert text target c) (convert text target c') := by
  rcases c with (_ | _) | a
  · exact carried_fail _
  · exact carried_fail _
  · rw [h a rfl]
    exact Carries.pure a

theorem tolerant_nextInteger (type : Number.IntegerType) : Tolerant (nextInteger type) := by
  refine (tolerant_takeScalar _ _).bind fun text => (carried_convert fun _ h => h).bind fun n => ?_
  split
  · exact Carries.pure n
  · exact carried_fail _

theorem tolerant_nextDouble : Tolerant nextDouble := by
  have body : Carried
      (do let text ← nextNumberText
          convert text Number.doubleName (Number.toDouble false text))
      (do let text ← nextNumberText
          convert text Number.doubleName (Number.toDouble true text)) :=
    (tolerant_takeScalar _ _).bind fun _ => carried_convert fun _ h => Number.toDouble_of_strict h
  refine Carries.of_agree fun r strict => ⟨_, _, body, ?_, rfl⟩
  have strict : r.settings.lenient = false := strict
  unfold nextDouble
  rw [get_bind, strict]

theorem tolerant_nextScalar (type : ScalarType) : Tolerant (nextScalar type) := by
  cases type with
  | integer type => exact (tolerant_nextInteger type).map _
  | single => exact (tolerant_nextDouble.map _).map _
  | double => exact tolerant_nextDouble.map _
  | boolean => exact (tolerant_takeScalar _ _).map _
  | text => exact (tolerant_takeScalar _ _).map _

theorem tolerant_orNull (h : Tolerant x) : Tolerant (orNull x) := by
  refine tolerant_peek.bind fun t => ?_
  split
  · exact tolerant_nextNull.bind fun _ => Carries.pure _
  · exact h.map some

end ReadM

def Call.IgnoresLeniency : Call → Prop
  | .isLenient | .setLenient _ => False
  | _ => True

theorem Call.tolerant_run {c : Call} (h : c.IgnoresLeniency) : ReadM.Tolerant c.run := by
  cases c with
  | peek => exact ReadM.tolerant_peek.map _
  | hasNext => exact ReadM.tolerant_hasNext.map _
  | beginObject => exact ReadM.tolerant_beginObject.map _
  | endObject => exact ReadM.tolerant_endObject.map _
  | beginArray => exact ReadM.tolerant_beginArray.map _
  | endArray => exact ReadM.tolerant_endArray.map _
  | nextName => exact ReadM.tolerant_nextName.map _
  | nextString => exact (ReadM.tolerant_takeScalar _ _).map _
  | nextNumberText => exact (ReadM.tolerant_takeScalar _ _).map _
  | nextBool => exact (ReadM.tolerant_takeScalar _ _).map _
  | nextNull => exact ReadM.tolerant_nextNull.map _
  | skipValue => exact ReadM.tolerant_skipValue.map _
  | nextScalar type => exact (ReadM.tolerant_nextScalar type).map _
  | nextBoxed type => exact (ReadM.tolerant_orNull (ReadM.tolerant_nextScalar type)).map _
  | isLenient | setLenient => exact h.elim
  | path => exact Carries.of_agree fun r _ => ⟨_, _, Carries.pure (.text r.path), rfl, rfl⟩
  | position => exact Carries.of_agree fun r _ => ⟨_, _, Carries.pure (.place r.location), rfl, rfl⟩
  | finish => exact ReadM.tolerant_finish.map _

namespace Reader

theorem eventsWithin_relaxed {fuel : Nat} {r : Reader} {evs : List Event}
    (strict : r.IsStrict) (h : (eventsWithin fuel r).1 = (evs, none)) :
    (eventsWithin fuel r.relaxed).1 = (evs, none) := by
  induction fuel generalizing r evs with
  | zero => exact h
  | succ fuel ih =>
      unfold eventsWithin at h ⊢
      cases run : ReadM.nextEvent r with
      | ok next r' =>
          obtain ⟨strict', relaxed⟩ := ReadM.tolerant_nextEvent r next r' strict run id
          rw [run] at h
          rw [relaxed]
          cases next with
          | none => exact h
          | some e =>
              obtain ⟨⟨⟨evs', error⟩, r''⟩, rest⟩ : ∃ x, eventsWithin fuel r' = x := ⟨_, rfl⟩
              simp only [rest] at h
              cases h
              have kept : (eventsWithin fuel r'.relaxed).1 = (evs', none) :=
                ih strict' (by rw [rest])
              simp only [kept]
      | error e r' =>
          rw [run] at h
          cases h

/-- The plain loop over a strict reader that ends well hands out the same over the lenient one. -/
theorem events_relaxed {r : Reader} {evs : List Event} (strict : r.IsStrict)
    (h : r.events.1 = (evs, none)) : r.relaxed.events.1 = (evs, none) :=
  eventsWithin_relaxed strict h

end Reader

end TypedJson
