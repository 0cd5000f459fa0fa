import TypedJson.Proofs.Reader.Layout
import TypedJson.Proofs.Reader.Skipping

set_option autoImplicit false
set_option relaxedAutoImplicit false

namespace TypedJson

open Operation
open Grammar (Piece Place Trailing)

def Container.looked (l : Lexeme) : Container → Container
  | .array _ index => .array true index
  | .object .named member => .object .nonEmpty member
  | .object phase member =>
      match l with
      | .name _ => .object .named member
      | _ => .object phase member

namespace ReadM

variable {lenient : Bool} {behind : List UInt8} {pieces rest : List Piece} {l : Lexeme}
variable {r r' : Reader} {container : Container} {outer : List Container}

/-! Within a container. -/

/-- The unit that the grammar position takes is the next one, whatever the gaps contain. -/
theorem nextLexeme_of_takes (within : r.containers = container :: outer)
    (kept : r.settings.lenient = lenient) (takes : container.place.Takes lenient pieces l rest)
    (lays : r.cursor.Lays lenient behind pieces) :
    ∃ c, nextLexeme r = .ok l { r with cursor := c, containers := container.looked l :: outer } ∧
      c.Lays lenient behind rest := by
  obtain ⟨cursor, lookahead, started, containers, room, settings⟩ := r
  cases within
  cases kept
  cases container with
  | array begun index =>
      cases begun with
      | false =>
          obtain ⟨c, run, behind⟩ := firstItem_of_takes takes
            ⟨cursor, lookahead, started, .array true index :: outer, room, settings⟩ lays
          exact ⟨c, (nextLexeme_firstItem rfl).trans run, behind⟩
      | true =>
          obtain ⟨c, run, behind⟩ := nextItem_of_takes takes
            ⟨cursor, lookahead, started, .array true index :: outer, room, settings⟩ lays
          exact ⟨c, (nextLexeme_nextItem rfl).trans run, behind⟩
  | object phase last =>
      cases phase with
      | named =>
          obtain ⟨c, run, behind⟩ := memberValue_of_takes takes
            ⟨cursor, lookahead, started, .object .nonEmpty last :: outer, room, settings⟩ lays
          exact ⟨c, (nextLexeme_memberValue rfl).trans run, behind⟩
      | empty =>
          rw [nextLexeme_member (by decide) rfl]
          cases takes with
          | member => exact member_of_name true last .member lays
          | noMember => exact member_of_end true last .noMember _ lays
      | nonEmpty =>
          rw [nextLexeme_member (by decide) rfl]
          cases takes with
          | nextMember => exact member_of_name false last .nextMember lays
          | lastMember => exact member_of_end false last .lastMember _ lays
          | trailingMember allowed =>
              exact member_of_end false last (.trailingMember allowed) _ lays

/-- Outside of all containers, a lenient reader takes one value after the other. -/
theorem nextLexeme_of_unit {s : List Char} (outside : r.containers = [])
    (kept : r.settings.lenient = true) (lays : r.cursor.Lays true behind (.unit l s :: rest)) :
    ∃ c, nextLexeme r = .ok l { r with cursor := c, documentStarted := true } ∧
      c.Lays true behind rest := by
  obtain ⟨cursor, lookahead, started, containers, room, settings⟩ := r
  cases outside
  cases started with
  | false =>
      rw [nextLexeme_topValue rfl rfl, kept]
      exact topValue_of_unit ⟨cursor, lookahead, true, [], room, settings⟩ lays
  | true =>
      rw [nextLexeme_afterTopValue rfl rfl, kept]
      exact afterTopValue_of_unit ⟨cursor, lookahead, true, [], room, settings⟩ lays

/-- What a strict reader finds next is what the grammar position takes. -/
theorem takes_of_nextLexeme (within : r.containers = container :: outer)
    (strict : r.settings.lenient = false) (lays : r.cursor.Lays false [] pieces)
    (h : nextLexeme r = .ok l r') : ∃ rest, container.place.Takes false pieces l rest := by
  obtain ⟨x, q, look, run⟩ := exists_lookup r
  rw [run] at h
  cases look with
  | topValue outside | afterTopValue outside => cases within.symm.trans outside
  | @firstItem index _ within' =>
      cases within.symm.trans within'
      rw [strict] at h
      exact takes_of_firstItem (r := r.setContainer (.array true index)) lays h
  | nextItem within' =>
      cases within.symm.trans within'
      rw [strict] at h
      exact takes_of_nextItem lays h
  | @memberValue last _ within' =>
      cases within.symm.trans within'
      rw [strict] at h
      exact takes_of_memberValue (r := r.setContainer (.object .nonEmpty last)) lays h
  | @member _ last _ unnamed within' =>
      cases within.symm.trans within'
      rw [strict] at h
      rw [Container.place_of_unnamed unnamed last]
      exact takes_of_member lays h

end ReadM

namespace Reader

/-- A strict reader `r` and a lenient one `d` in the same containers, in front of the same pieces.
The lenient one may have commas in front of closing brackets, comments, and more texts `behind`.
Only in the innermost container may nothing have been looked for yet, and then there is no comma in
front of its end. -/
structure Mirrors (behind : List UInt8) (depth : Nat) (r d : Reader) : Prop where
  strict : r.settings.lenient = false
  lenient : d.settings.lenient = true
  unseen : r.lookahead = none
  unseen' : d.lookahead = none
  containers : d.containers = r.containers
  room : d.room = r.room
  total : r.room + r.places.length = depth
  started : r.documentStarted = true → d.documentStarted = true
  unbegun : r.documentStarted = false → r.containers = []
  inner : ∀ place ∈ r.places.tail, place.first = false
  laid : ∃ fresh pieces pieces', (∀ place ∈ r.places.head?, place.first = true → fresh = true) ∧
    Trailing fresh pieces pieces' ∧ r.cursor.Lays false [] pieces ∧
    d.cursor.Lays true behind pieces'

variable {behind : List UInt8} {depth : Nat} {r r₁ r' d : Reader} {l : Lexeme} {e : Event}

/-! The next unit. -/

/-- Both readers find the unit, in the same containers, and are in front of the same pieces again.
The strict one has reached the state `r₁`. -/
def Find (behind : List UInt8) (r d : Reader) (l : Lexeme) (r₁ : Reader) : Prop :=
  ∃ c c' containers pieces pieces',
    r₁ = { r with cursor := c, documentStarted := true, containers } ∧
    ReadM.nextLexeme d = .ok l { d with cursor := c', documentStarted := true, containers } ∧
    Trailing l.opens pieces pieces' ∧ c.Lays false [] pieces ∧ c'.Lays true behind pieces'

/-- The top-level value is the first one for the strict reader, but not always for the lenient
one. -/
theorem Mirrors.find_outside (h : Mirrors behind depth r d) (outside : r.containers = [])
    (inside : l ≠ .endDocument) (look : ReadM.nextLexeme r = .ok l r₁) : Find behind r d l r₁ := by
  obtain ⟨_, pieces, pieces', -, trailing, lays, lays'⟩ := h.laid
  have outside' : d.containers = [] := h.containers.trans outside
  cases started : r.documentStarted with
  | true =>
      rw [ReadM.nextLexeme_afterTopValue outside started, h.strict] at look
      obtain rfl := ReadM.end_of_afterTopValue lays look
      obtain ⟨c, run, -⟩ := ReadM.afterTopValue_of_end r lays
      cases run.symm.trans look
      exact absurd rfl inside
  | false =>
      let begun : Reader := { r with documentStarted := true }
      rw [ReadM.nextLexeme_topValue outside started, h.strict] at look
      obtain ⟨s, rest, rfl⟩ := ReadM.unit_of_topValue (r := begun) lays look
      obtain ⟨c, run, later⟩ := ReadM.topValue_of_unit begun lays
      cases run.symm.trans look
      cases trailing with
      | keep trailing =>
          obtain ⟨c', run', later'⟩ := ReadM.nextLexeme_of_unit outside' h.lenient lays'
          refine ⟨c, c', r.containers, _, _, rfl, run'.trans ?_, trailing, later, later'⟩
          rw [← h.containers]

theorem Mirrors.find_within {container : Container} {outer : List Container}
    (h : Mirrors behind depth r d) (within : r.containers = container :: outer)
    (look : ReadM.nextLexeme r = .ok l r₁) : Find behind r d l r₁ := by
  obtain ⟨fresh, pieces, pieces', first, trailing, lays, lays'⟩ := h.laid
  have within' : d.containers = container :: outer := h.containers.trans within
  have started : r.documentStarted = true := by
    cases started : r.documentStarted with
    | true => rfl
    | false => cases within.symm.trans (h.unbegun started)
  have place : r.places.head? = some container.place := by
    rw [places, within]
    rfl
  obtain ⟨rest, takes⟩ := ReadM.takes_of_nextLexeme within h.strict lays look
  obtain ⟨rest', takes', trailing'⟩ := trailing.takes takes (first _ place)
  obtain ⟨c, run, later⟩ := ReadM.nextLexeme_of_takes within h.strict takes lays
  obtain ⟨c', run', later'⟩ := ReadM.nextLexeme_of_takes within' h.lenient takes' lays'
  cases run.symm.trans look
  refine ⟨c, c', container.looked l :: outer, rest, rest', ?_, run'.trans ?_, trailing', later,
    later'⟩
  · rw [← started]
  · rw [← h.started started]

theorem Mirrors.find (h : Mirrors behind depth r d) (inside : l ≠ .endDocument)
    (look : ReadM.nextLexeme r = .ok l r₁) : Find behind r d l r₁ := by
  cases containers : r.containers with
  | nil => exact h.find_outside containers inside look
  | cons container outer => exact h.find_within containers look

/-! The bookkeeping behind a unit. -/

theorem containers_endValue_congr (h : d.containers = r.containers) :
    d.endValue.containers = r.endValue.containers := by
  unfold endValue
  rw [h]
  split
  · rfl
  · exact h

theorem containers_nameMember_congr (h : d.containers = r.containers) (name : String) :
    (d.nameMember name).containers = (r.nameMember name).containers := by
  unfold nameMember
  rw [h]
  split
  · rfl
  · exact h

theorem containers_behind_congr (h : d.containers = r.containers) (l : Lexeme) :
    (d.behind l).containers = (r.behind l).containers := by
  cases l with
  | beginObject => exact congrArg (Container.object .empty none :: ·) h
  | beginArray => exact congrArg (Container.array false 0 :: ·) h
  | endObject | endArray => exact containers_endValue_congr (congrArg List.tail h)
  | name text =>
      exact containers_nameMember_congr (r := { r with lookahead := none })
        (d := { d with lookahead := none }) h text
  | string | number | boolean | null => exact containers_endValue_congr h
  | endDocument => exact h

theorem room_behind (r : Reader) (l : Lexeme) :
    (r.behind l).room =
      match l with
      | .beginObject | .beginArray => r.room - 1
      | .endObject | .endArray => r.room + 1
      | _ => r.room := by
  cases l with
  | beginObject | beginArray | endDocument => rfl
  | endObject | endArray => exact (endValue_fields _).2.2.1
  | name text => exact (nameMember_fields _ _).2.2.1
  | string | number | boolean | null => exact (endValue_fields _).2.2.1

theorem settled_of_shows {before after : List Place} (shows : Place.Shows l before after)
    (event : l.event? = some e) (inner : ∀ place ∈ before.tail, place.first = false) :
    after.length = before.length ∧ (∀ place ∈ after.tail, place.first = false) ∧
      (e.closes = true → after ≠ []) ∧
      (e.closes = false → ∀ place ∈ after, place.first = false) := by
  cases before with
  | nil =>
      obtain ⟨rfl, value | rfl⟩ := shows
      · refine ⟨rfl, nofun, fun closes => ?_, nofun⟩
        cases l with
        | endObject | endArray => cases value
        | _ => cases event <;> cases closes
      · cases event
  | cons place outer =>
      have outside (place : Place) (settled : place.first = false) :
          ∀ p ∈ place :: outer, p.first = false := List.forall_mem_cons.mpr ⟨settled, inner⟩
      cases place with
      | firstItem | nextItem | memberValue =>
          obtain ⟨rfl, -⟩ := shows
          exact ⟨rfl, inner, fun _ => List.cons_ne_nil _ _, fun _ => outside _ rfl⟩
      | firstMember | nextMember =>
          obtain ⟨rfl, rfl⟩ | ⟨s, rfl, rfl⟩ := shows
          · cases event
            exact ⟨rfl, inner, fun _ => List.cons_ne_nil _ _, nofun⟩
          · cases event
            exact ⟨rfl, inner, nofun, fun _ => outside _ rfl⟩

theorem settled_behind {before : List Place} (shows : Place.Shows l before r.places)
    (event : l.event? = some e) (inner : ∀ place ∈ before.tail, place.first = false)
    (hasRoom : r.HasRoom l) :
    (∀ place ∈ (r.behind l).places.tail, place.first = false) ∧
      (∀ place ∈ (r.behind l).places.head?, place.first = true → l.opens = true) ∧
      (r.behind l).room + (r.behind l).places.length = r.room + before.length := by
  obtain ⟨length, settled, ended, found⟩ := settled_of_shows shows event inner
  have unsettled {places : List Place} (all : ∀ place ∈ places, place.first = false) :
      ∀ place ∈ places.head?, place.first = true → l.opens = true := by
    intro place head first
    cases (all place (List.mem_of_mem_head? head)).symm.trans first
  rw [places_behind, room_behind, ← length]
  cases l with
  | beginObject | beginArray =>
      cases event
      have room : r.room ≠ 0 := hasRoom (by simp)
      refine ⟨found rfl, fun _ _ _ => rfl, ?_⟩
      simp only [List.length_cons]
      omega
  | endObject | endArray =>
      cases event
      have inside : 0 < r.places.length := List.length_pos_iff.mpr (ended rfl)
      refine ⟨fun place inside => settled place (List.mem_of_mem_tail inside),
        unsettled settled, ?_⟩
      simp only [List.length_tail]
      omega
  | name | string | number | boolean | null =>
      cases event
      exact ⟨settled, unsettled (found rfl), rfl⟩
  | endDocument => cases event

theorem Mirrors.nextEvent (h : Mirrors behind depth r d)
    (step : ReadM.nextEvent r = .ok (some e) r') :
    ∃ d', ReadM.nextEvent d = .ok (some e) d' ∧ Mirrors behind depth r' d' := by
  obtain ⟨l, _, look, event, hasRoom, rfl⟩ := ReadM.nextEvent_eq_ok step
  obtain ⟨_, next, rfl⟩ := ReadM.nextLexeme_of_peek h.unseen look
  have inside : l ≠ .endDocument := by
    rintro rfl
    cases event
  obtain ⟨c, c', containers, pieces, pieces', rfl, next', trailing, lays, lays'⟩ :=
    h.find inside next
  let seen : Reader := ⟨c, some l, true, containers, r.room, r.settings⟩
  let seen' : Reader := ⟨c', some l, true, containers, d.room, d.settings⟩
  have look' : ReadM.peekLexeme d = .ok l seen' :=
    (ReadM.peekLexeme_of_none h.unseen').trans (bind_of_ok next')
  have room' : seen'.room = seen.room := h.room
  have hasRoom' : seen'.HasRoom l := by
    intro opens
    rw [room']
    exact hasRoom opens
  have shows : Place.Shows l r.places seen.places := (ReadM.shows_of_nextLexeme next).1
  obtain ⟨inner, first, total⟩ := settled_behind (r := seen) shows event h.inner hasRoom
  obtain ⟨cursor, unseen, started, kept⟩ := behind_fields (r := seen) event
  obtain ⟨cursor', unseen', started', kept'⟩ := behind_fields (r := seen') event
  refine ⟨seen'.behind l, event ▸ ReadM.nextEvent_of_peek look' hasRoom', ?_⟩
  constructor
  case strict => exact (congrArg ReaderSettings.lenient kept).trans h.strict
  case lenient => exact (congrArg ReaderSettings.lenient kept').trans h.lenient
  case unseen => exact unseen
  case unseen' => exact unseen'
  case containers => exact containers_behind_congr (r := seen) (d := seen') rfl l
  case room => rw [room_behind, room_behind, room']
  case total => exact total.trans h.total
  case started => exact fun _ => started'
  case unbegun => exact fun absent => absurd (started.symm.trans absent) nofun
  case inner => exact inner
  case laid =>
    refine ⟨l.opens, pieces, pieces', first, trailing, ?_, ?_⟩
    · rw [cursor]
      exact lays
    · rw [cursor']
      exact lays'

end Reader

end TypedJson
