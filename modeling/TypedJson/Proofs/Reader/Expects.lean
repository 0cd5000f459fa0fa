import TypedJson.Proofs.Reader.Position
import TypedJson.Reader.Events

set_option autoImplicit false
set_option relaxedAutoImplicit false

namespace TypedJson

open Operation
open Utf8 (encode)
open Grammar (Place Numerals Follow ValueThen Behind)

def Container.place : Container → Place
  | .array false _ => .firstItem
  | .array true _ => .nextItem
  | .object .empty _ => .firstMember
  | .object .named _ => .memberValue
  | .object .nonEmpty _ => .nextMember

theorem Container.place_of_unnamed {phase : ObjectPhase} (unnamed : phase ≠ .named)
    (last : Option String) :
    (Container.object phase last).place = ReadM.memberPlace (phase = .empty) := by
  cases phase with
  | named => exact absurd rfl unnamed
  | empty | nonEmpty => rfl

namespace Reader

/-- The grammar positions inside the open containers, the innermost first. -/
def places (r : Reader) : List Place :=
  r.containers.map Container.place

theorem places_endValue (r : Reader) : r.endValue.places = r.places := by
  obtain ⟨c, lookahead, started, containers, room, settings⟩ := r
  cases containers with
  | nil => rfl
  | cons container containers =>
      cases container with
      | array started index => cases started <;> rfl
      | object phase name => rfl

theorem places_nameMember (r : Reader) (name : String) : (r.nameMember name).places = r.places := by
  obtain ⟨c, lookahead, started, containers, room, settings⟩ := r
  cases containers with
  | nil => rfl
  | cons container containers =>
      cases container with
      | array started index => rfl
      | object phase name => cases phase <;> rfl

/-- The bytes left are those of a document from the position of the reader on, with these units. The
reader stands in front of the document, between two units, or in front of one that it has seen. -/
inductive Expects (N : List Char → Prop) (settings : ReaderSettings) : List Event → Reader → Prop
  | start {c : Cursor} {w : List Char} {bs : List UInt8} {room : Nat} {evs : List Event} :
      Grammar.Blank w → ValueThen N [] room bs evs → c.Over (encode w ++ bs) →
      Expects N settings evs ⟨c, none, false, [], room, settings⟩
  | between {r : Reader} {bs : List UInt8} {evs : List Event} :
      Follow N r.places r.room bs evs → r.cursor.Over bs → r.lookahead = none →
      r.documentStarted = true → r.settings = settings → Expects N settings evs r
  | ahead {r : Reader} {l : Lexeme} {bs : List UInt8} {evs : List Event} :
      Behind N r.places r.room bs evs l → r.cursor.Over bs → r.lookahead = some l →
      r.documentStarted = true → r.settings = settings → Expects N settings evs r

end Reader

namespace ReadM

open Reader (Expects)

variable {N : List Char → Prop} {settings : ReaderSettings} {evs : List Event} {r r' : Reader}
variable {l : Lexeme}

/-! Looking ahead. -/

private def seen (r : Reader) (l : Lexeme) : Reader :=
  { r with lookahead := some l }

private theorem attains_nextLexeme (hN : Numerals settings.lenient N) (h : Expects N settings evs r)
    (hl : r.lookahead = none) :
    ∃ l r', nextLexeme r = .ok l r' ∧ Expects N settings evs (seen r' l) := by
  cases h with
  | start hw value hc =>
      obtain ⟨l, rest, hx, behind⟩ := lexes_topValue hN hw value
      obtain ⟨c, hx, hc⟩ := hx ⟨_, none, true, [], _, settings⟩ hc
      exact ⟨l, _, (nextLexeme_topValue rfl rfl).trans hx, .ahead behind hc rfl rfl rfl⟩
  | ahead _ _ some => rw [hl] at some; cases some
  | @between _ bs _ hf hc _ hs hr =>
      obtain ⟨c, lookahead, started, containers, room, settings⟩ := r
      cases hl
      cases hs
      cases hr
      obtain ⟨x, q, look, run⟩ := exists_lookup ⟨c, none, true, containers, room, settings⟩
      cases look with
      | topValue _ fresh => cases fresh
      | afterTopValue outside =>
          cases outside
          obtain ⟨hx, behind⟩ := lexes_afterTopValue hf
          obtain ⟨c, hx, hc⟩ := hx _ hc
          exact ⟨_, _, run.trans hx, .ahead behind hc rfl rfl rfl⟩
      | @firstItem index outer within =>
          cases within
          obtain ⟨l, rest, hx, behind⟩ := lexes_firstItem hN hf
          obtain ⟨c, hx, hc⟩ := hx ⟨_, none, true, .array true index :: outer, _, _⟩ hc
          exact ⟨_, _, run.trans hx, .ahead behind hc rfl rfl rfl⟩
      | nextItem within =>
          cases within
          obtain ⟨l, rest, hx, behind⟩ := lexes_nextItem hN hf
          obtain ⟨c, hx, hc⟩ := hx _ hc
          exact ⟨_, _, run.trans hx, .ahead behind hc rfl rfl rfl⟩
      | @memberValue last outer within =>
          cases within
          obtain ⟨l, rest, hx, behind⟩ := lexes_memberValue hN hf
          obtain ⟨c, hx, hc⟩ := hx ⟨_, none, true, .object .nonEmpty last :: outer, _, _⟩ hc
          exact ⟨_, _, run.trans hx, .ahead behind hc rfl rfl rfl⟩
      | @member phase last outer unnamed within =>
          cases within
          rw [Reader.places, List.map_cons, Container.place_of_unnamed unnamed last] at hf
          obtain ⟨c, rest, held, ⟨hx, evs', he, behind⟩ | ⟨s, hx, behind⟩⟩ :=
            member_of_follow settings.lenient last
              (r := ⟨_, none, true, .object phase last :: outer, _, settings⟩) hc hf
          · exact ⟨_, _, run.trans hx, .ahead (l := .endObject) ⟨evs', he, behind⟩ held rfl rfl rfl⟩
          · exact ⟨_, _, run.trans hx, .ahead behind held rfl rfl rfl⟩

/-- Whatever the grammar expects can be looked ahead to. -/
theorem attains_peekLexeme (hN : Numerals settings.lenient N) :
    Attains (Expects N settings evs) peekLexeme fun l r =>
      Expects N settings evs r ∧ r.lookahead = some l := by
  intro r h
  obtain ⟨lookahead, hl⟩ : ∃ lookahead, r.lookahead = lookahead := ⟨_, rfl⟩
  cases lookahead with
  | some l => exact ⟨l, r, peekLexeme_of_some hl, h, hl⟩
  | none =>
      obtain ⟨l, r', hx, h⟩ := attains_nextLexeme hN h hl
      exact ⟨l, _, (peekLexeme_of_none hl).trans (bind_of_ok hx), h, rfl⟩

end ReadM

namespace Reader

variable {N : List Char → Prop} {settings : ReaderSettings} {evs : List Event} {r r' : Reader}
variable {l : Lexeme} {e : Event} {bs : List UInt8}

/-! The unit looked ahead to, and what is behind it. -/

theorem endValue_fields (r : Reader) :
    r.endValue.lookahead = r.lookahead ∧ r.endValue.documentStarted = r.documentStarted ∧
      r.endValue.room = r.room ∧ r.endValue.settings = r.settings := by
  unfold endValue
  split <;> exact ⟨rfl, rfl, rfl, rfl⟩

theorem nameMember_fields (r : Reader) (name : String) :
    (r.nameMember name).lookahead = r.lookahead ∧
      (r.nameMember name).documentStarted = r.documentStarted ∧
      (r.nameMember name).room = r.room ∧ (r.nameMember name).settings = r.settings := by
  unfold nameMember
  split <;> exact ⟨rfl, rfl, rfl, rfl⟩

theorem behind_fields (hl : l.event? = some e) :
    (r.behind l).cursor = r.cursor ∧ (r.behind l).lookahead = none ∧
      (r.behind l).documentStarted = r.documentStarted ∧ (r.behind l).settings = r.settings := by
  have value (r : Reader) := endValue_fields r
  have name (r : Reader) := nameMember_fields r
  cases l with
  | beginObject => exact ⟨rfl, rfl, rfl, rfl⟩
  | beginArray => exact ⟨rfl, rfl, rfl, rfl⟩
  | endDocument => cases hl
  | name s => simp [behind, name]
  | _ => simp [behind, endContainer, endScalar, value]

private theorem places_leave : (r.behind .endObject).places = r.places.tail ∧
    (r.behind .endArray).places = r.places.tail := by
  constructor <;> exact (places_endValue _).trans List.map_tail

private theorem room_leave :
    (r.behind .endObject).room = r.room + 1 ∧ (r.behind .endArray).room = r.room + 1 := by
  constructor <;> exact (endValue_fields _).2.2.1

theorem behind_iff (room : r.HasRoom l) (hl : l.event? = some e) :
    Behind N r.places r.room bs (e :: evs) l ↔
      Follow N (r.behind l).places (r.behind l).room bs evs := by
  -- a unit that begins and ends nothing leaves the position as it is
  have flat {r' : Reader} (hp : r'.places = r.places) (hr : r'.room = r.room) :
      (∃ evs', e :: evs = e :: evs' ∧ Follow N r.places r.room bs evs') ↔
        Follow N r'.places r'.room bs evs := by
    rw [hp, hr]
    constructor
    · rintro ⟨_, ⟨⟩, hf⟩
      exact hf
    · exact fun hf => ⟨evs, rfl, hf⟩
  have leave {r' : Reader} (hp : r'.places = r.places.tail) (hr : r'.room = r.room + 1) :
      (∃ evs', e :: evs = e :: evs' ∧ Follow N r.places.tail (r.room + 1) bs evs') ↔
        Follow N r'.places r'.room bs evs := by
    rw [hp, hr]
    constructor
    · rintro ⟨_, ⟨⟩, hf⟩
      exact hf
    · exact fun hf => ⟨evs, rfl, hf⟩
  have enter {place : Place} (hroom : r.room ≠ 0) :
      (∃ inner evs', r.room = inner + 1 ∧ e :: evs = e :: evs' ∧
          Follow N (place :: r.places) inner bs evs') ↔
        Follow N (place :: r.places) (r.room - 1) bs evs := by
    constructor
    · rintro ⟨inner, _, hr, ⟨⟩, hf⟩
      rwa [hr, Nat.add_sub_cancel]
    · exact fun hf => ⟨r.room - 1, evs, by omega, rfl, hf⟩
  cases l with
  | beginObject =>
      cases hl
      exact enter (room (.inl rfl))
  | beginArray =>
      cases hl
      exact enter (room (.inr rfl))
  | endObject =>
      cases hl
      exact leave places_leave.1 room_leave.1
  | endArray =>
      cases hl
      exact leave places_leave.2 room_leave.2
  | name s =>
      cases hl
      exact flat (places_nameMember _ _) (nameMember_fields _ _).2.2.1
  | endDocument => cases hl
  | _ =>
      cases hl
      exact flat (places_endValue _) (endValue_fields _).2.2.1

theorem hasRoom_of_behind (h : Behind N r.places r.room bs evs l) : r.HasRoom l := by
  rintro (rfl | rfl) full
  · obtain ⟨_, _, room, -⟩ := h
    omega
  · obtain ⟨_, _, room, -⟩ := h
    omega

theorem event_of_behind {places : List Place} {room : Nat} (h : Behind N places room bs evs l) :
    l.event? = evs.head? := by
  cases l with
  | beginObject => obtain ⟨_, _, -, rfl, -⟩ := h; rfl
  | beginArray => obtain ⟨_, _, -, rfl, -⟩ := h; rfl
  | endDocument => obtain ⟨rfl, -⟩ := h; rfl
  | _ => obtain ⟨_, rfl, -⟩ := h; rfl

theorem Expects.follow (h : Expects N settings evs r) (hl : r.lookahead = none)
    (hs : r.documentStarted = true) : ∃ bs, r.cursor.Over bs ∧ Follow N r.places r.room bs evs := by
  cases h with
  | start => cases hs
  | between hf hc => exact ⟨_, hc, hf⟩
  | ahead _ _ some => cases hl.symm.trans some

theorem Expects.behind (h : Expects N settings evs r) (hl : r.lookahead = some l) :
    l.event? = evs.head? ∧ r.HasRoom l ∧ Expects N settings evs.tail (r.behind l) := by
  cases h with
  | start => cases hl
  | between _ _ none => rw [hl] at none; cases none
  | @ahead _ l' _ _ hb hc some hs hr =>
      obtain rfl : l' = l := Option.some.inj (some.symm.trans hl)
      have event := event_of_behind hb
      have room := hasRoom_of_behind hb
      refine ⟨event, room, ?_⟩
      cases evs with
      | nil =>
          obtain rfl : l' = .endDocument := Lexeme.event?_inj event
          exact .ahead hb hc hl hs hr
      | cons e evs =>
          obtain ⟨cursor, none, started, kept⟩ := behind_fields (r := r) event
          refine .between ((behind_iff room event).mp hb) ?_ none (started.trans hs) (kept.trans hr)
          rwa [cursor]

end Reader

namespace ReadM

open Reader (Expects)

variable {N : List Char → Prop} {settings : ReaderSettings} {evs : List Event} {r r' : Reader}
variable {l : Lexeme} {e : Event} {bs : List UInt8} {α : Type}

/-! Consuming what is expected. -/

section

variable (hN : Numerals settings.lenient N)
include hN

theorem attains_of_peek {x : ReadM α} {a : α} (event : l.event? = some e)
    (hx : ∀ r r', peekLexeme r = .ok l r' → r'.HasRoom l → x r = .ok a (r'.behind l)) :
    Attains (Expects N settings (e :: evs)) x fun a' r => a' = a ∧ Expects N settings evs r := by
  intro r h
  obtain ⟨l', r', hp, h, hl⟩ := attains_peekLexeme hN r h
  obtain ⟨event', room, h⟩ := h.behind hl
  obtain rfl : l' = l := Lexeme.event?_inj (event'.trans event.symm)
  exact ⟨a, _, hx r r' hp room, rfl, h⟩

theorem attains_beginObject :
    Attains (Expects N settings (.beginObject :: evs)) beginObject fun _ r =>
      Expects N settings evs r :=
  (attains_of_peek hN (l := .beginObject) rfl fun _ _ h room =>
    beginObject_of_peek h (room (.inl rfl))).weaken (fun _ h => h) fun _ _ h => h.2

theorem attains_beginArray :
    Attains (Expects N settings (.beginArray :: evs)) beginArray fun _ r =>
      Expects N settings evs r :=
  (attains_of_peek hN (l := .beginArray) rfl fun _ _ h room =>
    beginArray_of_peek h (room (.inr rfl))).weaken (fun _ h => h) fun _ _ h => h.2

theorem attains_endObject :
    Attains (Expects N settings (.endObject :: evs)) endObject fun _ r =>
      Expects N settings evs r :=
  (attains_of_peek hN (l := .endObject) rfl fun _ _ h _ =>
    endObject_of_peek h).weaken (fun _ h => h) fun _ _ h => h.2

theorem attains_endArray :
    Attains (Expects N settings (.endArray :: evs)) endArray fun _ r =>
      Expects N settings evs r :=
  (attains_of_peek hN (l := .endArray) rfl fun _ _ h _ =>
    endArray_of_peek h).weaken (fun _ h => h) fun _ _ h => h.2

theorem attains_nextName {s : String} :
    Attains (Expects N settings (.name s :: evs)) nextName fun a r =>
      a = s ∧ Expects N settings evs r :=
  attains_of_peek hN (l := .name s) rfl fun _ _ h _ => nextName_of_peek h

theorem attains_nextString {s : String} :
    Attains (Expects N settings (.string s :: evs)) nextString fun a r =>
      a = s ∧ Expects N settings evs r :=
  attains_of_peek hN (l := .string s) rfl fun _ _ h _ => takeScalar_of_peek h rfl

theorem attains_nextNumberText {s : String} :
    Attains (Expects N settings (.number s :: evs)) nextNumberText fun a r =>
      a = s ∧ Expects N settings evs r :=
  attains_of_peek hN (l := .number s) rfl fun _ _ h _ => takeScalar_of_peek h rfl

theorem attains_nextBool {b : Bool} :
    Attains (Expects N settings (.boolean b :: evs)) nextBool fun a r =>
      a = b ∧ Expects N settings evs r :=
  attains_of_peek hN (l := .boolean b) rfl fun _ _ h _ => takeScalar_of_peek h rfl

theorem attains_nextNull :
    Attains (Expects N settings (.null :: evs)) nextNull fun _ r => Expects N settings evs r :=
  (attains_of_peek hN (l := .null) rfl fun _ _ h _ =>
    nextNull_of_peek h).weaken (fun _ h => h) fun _ _ h => h.2

theorem attains_nextEvent :
    Attains (Expects N settings evs) nextEvent fun a r =>
      a = evs.head? ∧ Expects N settings evs.tail r ∧
        (a = none → r.lookahead = some .endDocument) := by
  intro r h
  obtain ⟨l, r', hp, h, hl⟩ := attains_peekLexeme hN r h
  obtain ⟨event, room, h⟩ := h.behind hl
  refine ⟨l.event?, _, nextEvent_of_peek hp room, event, h, fun none => ?_⟩
  obtain rfl : l = .endDocument := Lexeme.event?_inj none
  exact hl

end

/-! What a strict reader consumes is expected. -/

private theorem expects_of_nextLexeme (strict : r.settings.lenient = false) (hc : r.cursor.Over bs)
    (hl : r.lookahead = none) (hs : r.documentStarted = false → r.containers = [])
    (h : nextLexeme r = .ok l r') :
    r'.documentStarted = true ∧ r'.settings = r.settings ∧ ∃ rest, r'.cursor.Over rest ∧
      (l = .endDocument → Expects Grammar.Number r.settings [] r) ∧
      (l ≠ .endDocument → ∀ evs, Behind Grammar.Number r'.places r'.room rest evs l →
        Expects Grammar.Number r.settings evs r) := by
  obtain ⟨c, lookahead, started, containers, room, settings⟩ := r
  cases hl
  have begun {container : Container} {outer : List Container}
      (within : containers = container :: outer) : started = true := by
    cases started with
    | true => rfl
    | false => cases (hs rfl).symm.trans within
  obtain ⟨x, q, look, run⟩ := exists_lookup ⟨c, none, started, containers, room, settings⟩
  rw [run] at h
  cases look with
  | topValue outside fresh =>
      cases outside
      rw [strict] at h
      obtain ⟨c', rfl, rest, ho, hl, follow⟩ :=
        follow_of_topValue (r := ⟨c, none, true, [], room, settings⟩) hc h
      refine ⟨rfl, rfl, rest, ho, fun h => absurd h hl, fun _ evs behind => ?_⟩
      obtain ⟨w, bs, hw, rfl, value⟩ := follow _ _ evs behind
      cases fresh
      exact .start hw value hc
  | afterTopValue outside started =>
      cases outside
      cases started
      rw [strict] at h
      obtain ⟨c', rfl, ho, rfl, follow⟩ := follow_of_afterTopValue hc h
      exact ⟨rfl, rfl, [], ho, fun _ => .between follow hc rfl rfl rfl, fun h => absurd rfl h⟩
  | @firstItem index outer within =>
      obtain rfl := begun within
      cases within
      rw [strict] at h
      obtain ⟨c', rfl, rest, ho, hl, follow⟩ := follow_of_firstItem
        (r := ⟨c, none, true, .array true index :: outer, room, settings⟩) hc h
      exact ⟨rfl, rfl, rest, ho, fun h => absurd h hl, fun _ evs behind =>
        .between (follow _ _ evs behind) hc rfl rfl rfl⟩
  | nextItem within =>
      obtain rfl := begun within
      cases within
      rw [strict] at h
      obtain ⟨c', rfl, rest, ho, hl, follow⟩ := follow_of_nextItem hc h
      exact ⟨rfl, rfl, rest, ho, fun h => absurd h hl, fun _ evs behind =>
        .between (follow _ _ evs behind) hc rfl rfl rfl⟩
  | @memberValue last outer within =>
      obtain rfl := begun within
      cases within
      rw [strict] at h
      obtain ⟨c', rfl, rest, ho, hl, follow⟩ := follow_of_memberValue
        (r := ⟨c, none, true, .object .nonEmpty last :: outer, room, settings⟩) hc h
      exact ⟨rfl, rfl, rest, ho, fun h => absurd h hl, fun _ evs behind =>
        .between (follow _ _ evs behind) hc rfl rfl rfl⟩
  | @member phase last outer unnamed within =>
      obtain rfl := begun within
      cases within
      rw [strict] at h
      obtain ⟨c', rest, ho, ⟨hl, follow⟩, hr⟩ := follow_of_member hc h
      have between (evs : List Event) (hf : Follow Grammar.Number
          (memberPlace (phase = .empty) :: outer.map Container.place) room bs evs) :
          Expects Grammar.Number settings evs
            ⟨c, none, true, .object phase last :: outer, room, settings⟩ := by
        rw [← Container.place_of_unnamed unnamed last] at hf
        exact .between hf hc rfl rfl rfl
      obtain ⟨rfl, rfl⟩ | ⟨s, rfl, rfl⟩ := hr
      · exact ⟨rfl, rfl, rest, ho, nofun, fun _ evs behind => between evs (follow _ _ evs behind)⟩
      · exact ⟨rfl, rfl, rest, ho, nofun, fun _ evs behind => between evs (follow _ _ evs behind)⟩

structure Between (r : Reader) : Prop where
  at_hand : ∃ bs, r.cursor.Over bs
  unseen : r.lookahead = none
  top : r.documentStarted = false → r.containers = []

private theorem seen_of_nextEvent (hl : r.lookahead = none) {a : Option Event}
    (h : nextEvent r = .ok a r') :
    ∃ l r₁, nextLexeme r = .ok l r₁ ∧ l.event? = a ∧ (seen r₁ l).HasRoom l ∧
      r' = (seen r₁ l).behind l := by
  obtain ⟨l, _, hp, event, room, rfl⟩ := nextEvent_eq_ok h
  obtain ⟨r₂, hx, rfl⟩ := nextLexeme_of_peek hl hp
  exact ⟨l, r₂, hx, event, room, rfl⟩

theorem expects_of_lastEvent (strict : r.settings.lenient = false) (hr : Between r)
    (h : nextEvent r = .ok none r') :
    Expects Grammar.Number r.settings [] r ∧ r'.lookahead = some .endDocument := by
  obtain ⟨⟨bs, hc⟩, hl, hs⟩ := hr
  obtain ⟨l, r₁, hx, event, -, rfl⟩ := seen_of_nextEvent hl h
  obtain rfl : l = .endDocument := Lexeme.event?_inj event
  obtain ⟨-, -, -, -, ends, -⟩ := expects_of_nextLexeme strict hc hl hs hx
  exact ⟨ends rfl, rfl⟩

/-- What the plain loop takes is expected in front of what is expected behind it. -/
theorem expects_of_nextEvent (strict : r.settings.lenient = false) (hr : Between r)
    (h : nextEvent r = .ok (some e) r') :
    Between r' ∧ r'.settings = r.settings ∧ ∀ evs, Expects Grammar.Number r.settings evs r' →
      Expects Grammar.Number r.settings (e :: evs) r := by
  obtain ⟨⟨bs, hc⟩, hl, hs⟩ := hr
  obtain ⟨l, r₁, hx, event, room, rfl⟩ := seen_of_nextEvent hl h
  obtain ⟨started, kept, rest, held, -, follow⟩ := expects_of_nextLexeme strict hc hl hs hx
  have inside : l ≠ .endDocument := by
    rintro rfl
    cases event
  obtain ⟨cursor, none, started', kept'⟩ := Reader.behind_fields (r := seen r₁ l) event
  refine ⟨⟨⟨rest, cursor ▸ held⟩, none, fun h => ?_⟩, kept'.trans kept, fun evs he => ?_⟩
  · cases (started'.trans started).symm.trans h
  · obtain ⟨bs', hc', hf⟩ := he.follow none (started'.trans started)
    rw [cursor] at hc'
    obtain rfl := held.unique hc'
    exact follow inside (e :: evs) ((Reader.behind_iff room event).mpr hf)

end ReadM

end TypedJson
