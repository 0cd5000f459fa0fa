import TypedJson.Proofs.Grammar.Completion
import TypedJson.Proofs.Reader.Consumption
import TypedJson.Proofs.Reader.Expects

set_option autoImplicit false
set_option relaxedAutoImplicit false

namespace TypedJson

open Operation
open Grammar (Place)
open Reader (Consumes)

/-- Whether a unit begins a value, or is a whole one. -/
def Lexeme.beginsValue : Lexeme → Bool
  | .beginObject | .beginArray | .string _ | .number _ | .boolean _ | .null => true
  | .endObject | .endArray | .name _ | .endDocument => false

namespace LexM

variable {lenient : Bool} {b : UInt8}

theorem yields_fail {α : Type} {Q : α → Prop} {fault : SyntaxFault} : Yields (fail fault) Q := by
  rintro _ _ _ ⟨⟩

theorem beginsValue_of_classify {s : String} {l : Lexeme}
    (h : Lexing.classify lenient s = .ok l) : l.beginsValue = true := by
  unfold Lexing.classify at h
  repeat' split at h
  all_goals cases h
  all_goals rfl

theorem yields_value : Yields (value lenient b) fun l => l.beginsValue = true := by
  unfold value
  repeat' split
  · exact .bind fun _ => .pure rfl
  · exact .bind fun _ => .pure rfl
  · exact .bind fun _ => .bind fun _ => .pure rfl
  · exact yields_fail
  · exact yields_fail
  · exact yields_fail
  · refine .bind fun s => ?_
    cases h : Lexing.classify lenient s with
    | ok l => exact .pure (beginsValue_of_classify h)
    | error fault => exact yields_fail
  · exact yields_fail

theorem yields_name : Yields (name lenient b) fun l => ∃ s, l = .name s := by
  unfold name
  repeat' split
  · exact .bind fun _ => .bind fun s => .pure ⟨s, rfl⟩
  · exact .bind fun s => .pure ⟨s, rfl⟩
  · exact yields_fail

end LexM

namespace Grammar.Place

/-- Which units can come next in some containers, and the places once it has been looked for. -/
def Shows (l : Lexeme) : List Place → List Place → Prop
  | .firstItem :: places, after | .nextItem :: places, after =>
      after = .nextItem :: places ∧ (l.beginsValue = true ∨ l = .endArray)
  | .memberValue :: places, after => after = .nextMember :: places ∧ l.beginsValue = true
  | .firstMember :: places, after =>
      l = .endObject ∧ after = .firstMember :: places ∨
        ∃ s, l = .name s ∧ after = .memberValue :: places
  | .nextMember :: places, after =>
      l = .endObject ∧ after = .nextMember :: places ∨
        ∃ s, l = .name s ∧ after = .memberValue :: places
  | [], after => after = [] ∧ (l.beginsValue = true ∨ l = .endDocument)

theorem Shows.ne_endDocument {l : Lexeme} {place : Place} {places after : List Place}
    (shows : Shows l (place :: places) after) : l ≠ .endDocument := by
  rintro rfl
  cases place with
  | firstItem | nextItem =>
      obtain ⟨-, value | last⟩ := shows
      · cases value
      · cases last
  | memberValue => cases shows.2
  | firstMember | nextMember =>
      obtain ⟨last, -⟩ | ⟨_, name, -⟩ := shows
      · cases last
      · cases name

theorem Shows.of_name {s : String} {places after : List Place}
    (shows : Shows (.name s) places after) : ∃ outer, after = .memberValue :: outer := by
  cases places with
  | nil =>
      obtain ⟨-, value | last⟩ := shows
      · cases value
      · cases last
  | cons place outer =>
      cases place with
      | firstItem | nextItem =>
          obtain ⟨-, value | last⟩ := shows
          · cases value
          · cases last
      | memberValue => cases shows.2
      | firstMember | nextMember =>
          obtain ⟨last, -⟩ | ⟨_, -, named⟩ := shows
          · cases last
          · exact ⟨outer, named⟩

end Grammar.Place

namespace ReadM

variable {r r' : Reader} {l : Lexeme} {α : Type}

theorem yields_lex {x : LexM α} {Q : α → Prop} (hx : Yields x Q) {a : α}
    (h : lex x r = .ok a r') : Q a ∧ r'.places = r.places ∧ r'.settings = r.settings := by
  obtain ⟨c, rfl, run⟩ := lex_eq_ok h
  exact ⟨hx _ _ _ run, rfl, rfl⟩

theorem shows_firstItem {lenient : Bool} (h : firstItem lenient r = .ok l r') :
    (l.beginsValue = true ∨ l = .endArray) ∧ r'.places = r.places ∧ r'.settings = r.settings := by
  refine yields_lex (Q := fun l => l.beginsValue = true ∨ l = .endArray) (.bind fun b => ?_) h
  split
  · exact .bind fun _ => .pure (.inr rfl)
  · exact fun s a s' run => .inl (LexM.yields_value s a s' run)

theorem shows_nextItem {lenient : Bool} (h : nextItem lenient r = .ok l r') :
    (l.beginsValue = true ∨ l = .endArray) ∧ r'.places = r.places ∧ r'.settings = r.settings := by
  refine yields_lex (Q := fun l => l.beginsValue = true ∨ l = .endArray) (.bind fun b => ?_) h
  split
  · exact .bind fun _ => .pure (.inr rfl)
  · split
    · refine .bind fun _ => .bind fun b => ?_
      split
      · split
        · exact .bind fun _ => .pure (.inr rfl)
        · exact LexM.yields_fail
      · exact fun s a s' run => .inl (LexM.yields_value s a s' run)
    · exact LexM.yields_fail

theorem shows_memberValue {lenient : Bool} (h : memberValue lenient r = .ok l r') :
    l.beginsValue = true ∧ r'.places = r.places ∧ r'.settings = r.settings := by
  refine yields_lex (Q := fun l => l.beginsValue = true) (.bind fun b => ?_) h
  split
  · exact .bind fun _ => .bind fun _ => LexM.yields_value
  · exact LexM.yields_fail

theorem shows_topValue {lenient : Bool} (h : topValue lenient r = .ok l r') :
    l.beginsValue = true ∧ r'.places = r.places ∧ r'.settings = r.settings :=
  yields_lex (.bind fun _ => LexM.yields_value) h

theorem shows_afterTopValue {lenient : Bool} (h : afterTopValue lenient r = .ok l r') :
    (l.beginsValue = true ∨ l = .endDocument) ∧ r'.places = r.places ∧
      r'.settings = r.settings := by
  refine yields_lex (Q := fun l => l.beginsValue = true ∨ l = .endDocument) (.bind fun a => ?_) h
  cases a with
  | none => exact .pure (.inr rfl)
  | some b =>
      dsimp only
      split
      · exact fun s a s' run => .inl (LexM.yields_value s a s' run)
      · exact LexM.yields_fail

theorem shows_member {lenient first : Bool} {last : Option String}
    (h : member lenient first last r = .ok l r') :
    (l = .endObject ∧ r'.places = r.places ∨
      ∃ s, l = .name s ∧ r'.places = .memberValue :: r.places.tail) ∧
      r'.settings = r.settings := by
  obtain ⟨a, r₁, found, rest⟩ := bind_eq_ok.mp h
  obtain ⟨c, rfl, -⟩ := lex_eq_ok found
  cases a with
  | none =>
      cases rest
      exact ⟨.inl ⟨rfl, rfl⟩, rfl⟩
  | some b =>
      obtain ⟨_, _, ⟨⟩, named⟩ := bind_eq_ok.mp rest
      obtain ⟨name, places, settings⟩ := yields_lex LexM.yields_name named
      obtain ⟨s, rfl⟩ := name
      refine ⟨.inr ⟨s, rfl, places.trans ?_⟩, settings⟩
      simp [Reader.places, Reader.setContainer, Container.place]

/-- The next unit is one that the grammar position admits. -/
theorem shows_of_nextLexeme (h : nextLexeme r = .ok l r') :
    Place.Shows l r.places r'.places ∧ r'.settings = r.settings := by
  have outermost (outside : r.containers = []) : r.places = [] := by
    rw [Reader.places, outside, List.map_nil]
  have innermost {container : Container} {outer : List Container}
      (within : r.containers = container :: outer) :
      r.places = container.place :: r.places.tail := by
    rw [Reader.places, within, List.map_cons, List.tail_cons]
  have replaced (c : Container) : (r.setContainer c).places = c.place :: r.places.tail := by
    rw [Reader.places, Reader.setContainer, List.map_cons, List.map_tail, Reader.places]
  obtain ⟨x, q, look, run⟩ := exists_lookup r
  rw [run] at h
  cases look with
  | topValue outside =>
      obtain ⟨value, places, settings⟩ := shows_topValue h
      have after : r'.places = [] := places.trans (outermost outside)
      rw [outermost outside, after]
      exact ⟨⟨rfl, .inl value⟩, settings⟩
  | afterTopValue outside =>
      obtain ⟨value, places, settings⟩ := shows_afterTopValue h
      rw [places, outermost outside]
      exact ⟨⟨rfl, value⟩, settings⟩
  | firstItem within =>
      obtain ⟨unit, places, settings⟩ := shows_firstItem h
      rw [places, replaced, innermost within]
      exact ⟨⟨rfl, unit⟩, settings⟩
  | nextItem within =>
      obtain ⟨unit, places, settings⟩ := shows_nextItem h
      rw [places, innermost within]
      exact ⟨⟨rfl, unit⟩, settings⟩
  | memberValue within =>
      obtain ⟨unit, places, settings⟩ := shows_memberValue h
      rw [places, replaced, innermost within]
      exact ⟨⟨rfl, unit⟩, settings⟩
  | @member phase _ _ unnamed within =>
      obtain ⟨unit, settings⟩ := shows_member h
      rw [innermost within] at unit ⊢
      cases phase with
      | named => exact absurd rfl unnamed
      | empty | nonEmpty => exact ⟨unit, settings⟩

theorem shows_of_nextEvent {e : Event} (unseen : r.lookahead = none)
    (h : nextEvent r = .ok (some e) r') :
    ∃ (l : Lexeme) (r₁ : Reader), l.event? = some e ∧ Place.Shows l r.places r₁.places ∧
      r' = r₁.behind l := by
  obtain ⟨l, r₁, look, event, -, behind⟩ := nextEvent_eq_ok h
  obtain ⟨q, next, rfl⟩ := nextLexeme_of_peek unseen look
  refine ⟨l, _, event, ?_, behind⟩
  exact (shows_of_nextLexeme next).1

end ReadM

namespace Reader

variable {r r' : Reader} {l : Lexeme} {e : Event} {evs : List Event}

theorem settings_of_peekLexeme (h : ReadM.peekLexeme r = .ok l r') : r'.settings = r.settings := by
  obtain ⟨-, rfl⟩ | ⟨-, q, next, rfl⟩ := ReadM.peekLexeme_eq_ok h
  · rfl
  · exact (ReadM.shows_of_nextLexeme next).2

theorem Consumes.behind (h : Consumes (e :: evs) r r') :
    r'.lookahead = none ∧ r'.settings = r.settings := by
  induction evs generalizing e r with
  | nil =>
      cases h with
      | cons step rest =>
          cases rest
          obtain ⟨l, r₁, look, event, -, rfl⟩ := ReadM.nextEvent_eq_ok step
          obtain ⟨-, unseen, -, kept⟩ := behind_fields (r := r₁) event
          exact ⟨unseen, kept.trans (settings_of_peekLexeme look)⟩
  | cons e' evs ih =>
      cases h with
      | cons step rest =>
          obtain ⟨l, r₁, look, event, -, rfl⟩ := ReadM.nextEvent_eq_ok step
          obtain ⟨-, -, -, kept⟩ := behind_fields (r := r₁) event
          obtain ⟨unseen, same⟩ := ih rest
          exact ⟨unseen, same.trans (kept.trans (settings_of_peekLexeme look))⟩

theorem Consumes.settings_eq (h : Consumes evs r r') : r'.settings = r.settings := by
  cases evs with
  | nil =>
      cases h
      rfl
  | cons e evs => exact h.behind.2

theorem places_behind (r : Reader) (l : Lexeme) :
    (r.behind l).places =
      match l with
      | .beginObject => .firstMember :: r.places
      | .beginArray => .firstItem :: r.places
      | .endObject | .endArray => r.places.tail
      | _ => r.places := by
  cases l with
  | beginObject | beginArray | endDocument => rfl
  | endObject | endArray => exact (places_endValue _).trans List.map_tail
  | name s => exact places_nameMember _ _
  | string | number | boolean | null => exact places_endValue _

end Reader

namespace Grammar.Place

/-- The container that a place is in. -/
def bracket : Place → Bracket
  | .firstItem | .nextItem => .array
  | .firstMember | .memberValue | .nextMember => .object

/-- The units that end the containers with these places; outside of them, those of a value. -/
def Due : List Place → List Event → Prop
  | [], evs => Completion.Value [] evs
  | .memberValue :: places, evs => Completion.Value (.object :: places.map bracket) evs
  | place :: places, evs => Completion.Rest (place.bracket :: places.map bracket) evs

/-- Only the innermost place is in front of the value of a member. -/
def Settled (places : List Place) : Prop :=
  ∀ place ∈ places, place ≠ .memberValue

variable {places : List Place} {evs : List Event}

theorem due_of_settled (h : Settled places) (inside : places ≠ []) :
    Due places evs ↔ Completion.Rest (places.map bracket) evs := by
  cases places with
  | nil => exact absurd rfl inside
  | cons place places =>
      cases place with
      | memberValue => exact absurd rfl (h .memberValue (List.mem_cons_self))
      | _ => rfl

end Grammar.Place

namespace ReadM

open Grammar.Place (Due Settled)

variable {r r' : Reader} {l : Lexeme} {e : Event} {inner outer : List Place}

/-- A unit taken within a skipped value either completes the value, or whatever completes it from
there on completes it from here together with the unit. -/
def Advances (inner : List Place) (e : Event) (r' : Reader) : Option Nat → Prop
  | none => Due inner [e]
  | some depth => ∃ inner' outer', r'.places = inner' ++ outer' ∧ inner'.length = depth ∧
      inner' ≠ [] ∧ Settled inner'.tail ∧ ∀ evs, Due inner' evs → Due inner (e :: evs)

theorem advances_value {after places : List Place} {r₁ : Reader} (event : l.event? = some e)
    (value : l.beginsValue = true) (split : r₁.places = after ++ outer)
    (settled : Settled after)
    (begins : ∀ evs, Completion.Begins (after.map Grammar.Place.bracket) e evs →
      Due places (e :: evs)) (same : after.length = places.length) :
    Advances places e (r₁.behind l) (e.depthBehind places.length) := by
  have rest (inside : after ≠ []) (evs : List Event) :
      Due after evs ↔ Completion.Rest (after.map Grammar.Place.bracket) evs :=
    Grammar.Place.due_of_settled settled inside
  have scalar (flat : (r₁.behind l).places = r₁.places)
      (begun : ∀ evs, Completion.Begins (after.map Grammar.Place.bracket) e evs ↔
        Completion.Rest (after.map Grammar.Place.bracket) evs) :
      Advances places e (r₁.behind l) (if places.length = 0 then none else some places.length) := by
    cases after with
    | nil =>
        have complete : places.length = 0 := same.symm
        rw [if_pos complete]
        exact begins [] ((begun []).mpr rfl)
    | cons place after =>
        rw [if_neg (by rw [← same]; exact Nat.succ_ne_zero _)]
        refine ⟨place :: after, outer, flat.trans split, same, List.cons_ne_nil _ _,
          fun p hp => settled p (List.mem_cons_of_mem _ hp), fun evs due => ?_⟩
        exact begins evs ((begun evs).mpr ((rest (List.cons_ne_nil _ _) evs).mp due))
  cases l with
  | beginObject =>
      cases event
      refine ⟨.firstMember :: after, outer, ?_, by rw [List.length_cons, same],
        List.cons_ne_nil _ _, settled, begins⟩
      rw [Reader.places_behind, split]
      rfl
  | beginArray =>
      cases event
      refine ⟨.firstItem :: after, outer, ?_, by rw [List.length_cons, same],
        List.cons_ne_nil _ _, settled, begins⟩
      rw [Reader.places_behind, split]
      rfl
  | string | number | boolean | null =>
      cases event
      exact scalar (Reader.places_behind _ _) fun _ => Iff.rfl
  | endObject | endArray | name | endDocument => cases value

theorem advances_end {place : Place} {places : List Place} {r₁ : Reader}
    (event : l.event? = some e) (closes : l = .endObject ∨ l = .endArray)
    (split : r₁.places.tail = places ++ outer) (settled : Settled places)
    (ends : ∀ evs, Completion.Rest (places.map Grammar.Place.bracket) evs →
      Due (place :: places) (e :: evs)) :
    Advances (place :: places) e (r₁.behind l) (e.depthBehind (place :: places).length) := by
  have depth : e.depthBehind (place :: places).length =
      if places.length = 0 then none else some places.length := by
    rcases closes with rfl | rfl
    · cases event
      simp [Event.depthBehind]
    · cases event
      simp [Event.depthBehind]
  have left : (r₁.behind l).places = places ++ outer := by
    rw [Reader.places_behind, ← split]
    rcases closes with rfl | rfl
    · rfl
    · rfl
  rw [depth]
  cases places with
  | nil =>
      rw [List.length_nil, if_pos rfl]
      exact ends [] rfl
  | cons next places =>
      rw [List.length_cons, if_neg (Nat.succ_ne_zero _)]
      refine ⟨next :: places, outer, left, rfl, List.cons_ne_nil _ _,
        fun p hp => settled p (List.mem_cons_of_mem _ hp), fun evs due => ?_⟩
      exact ends evs
        ((Grammar.Place.due_of_settled settled (List.cons_ne_nil _ _)).mp due)

theorem advances_name {place : Place} {places : List Place} {r₁ : Reader} {s : String}
    (object : place = .firstMember ∨ place = .nextMember)
    (split : r₁.places = .memberValue :: places ++ outer) (settled : Settled places) :
    Advances (place :: places) (.name s) (r₁.behind (.name s))
      (some (place :: places).length) := by
  refine ⟨.memberValue :: places, outer, ?_, rfl, List.cons_ne_nil _ _, settled,
    fun evs due => ?_⟩
  · rw [Reader.places_behind]
    exact split
  · rcases object with rfl | rfl
    · exact Completion.rest_object_cons.mpr (.inr ⟨s, rfl, due⟩)
    · exact Completion.rest_object_cons.mpr (.inr ⟨s, rfl, due⟩)

/-- Every unit taken within a skipped value advances it. -/
theorem advances_of_nextEvent (unseen : r.lookahead = none) (split : r.places = inner ++ outer)
    (start : inner = [] → ∃ places, outer = .memberValue :: places) (settled : Settled inner.tail)
    (h : nextEvent r = .ok (some e) r') :
    Advances inner e r' (e.depthBehind inner.length) := by
  obtain ⟨l, r₁, event, shows, rfl⟩ := shows_of_nextEvent unseen h
  rw [split] at shows
  cases inner with
  | nil =>
      obtain ⟨places, rfl⟩ := start rfl
      obtain ⟨after, value⟩ := shows
      have begun : r₁.places = [] ++ .nextMember :: places := after
      exact advances_value event value begun nofun (fun _ => Completion.value_cons.mpr) rfl
  | cons place places =>
      -- behind a look at the next unit, the innermost place is in front of no value
      have within {p : Place} (hp : p ≠ .memberValue) : Settled (p :: places) := by
        intro q hq
        rcases List.mem_cons.mp hq with rfl | hq
        · exact hp
        · exact settled q hq
      cases place with
      | firstItem | nextItem =>
          obtain ⟨after, value | rfl⟩ := shows
          · have begun : r₁.places = (.nextItem :: places) ++ outer := after
            exact advances_value event value begun (within nofun)
              (fun _ begins => Completion.rest_array_cons.mpr
                (.inr (Completion.value_cons.mpr begins))) rfl
          · cases event
            have tail : r₁.places.tail = places ++ outer := congrArg List.tail after
            exact advances_end rfl (.inr rfl) tail settled
              fun _ rest => Completion.rest_array_cons.mpr (.inl ⟨rfl, rest⟩)
      | memberValue =>
          obtain ⟨after, value⟩ := shows
          have begun : r₁.places = (.nextMember :: places) ++ outer := after
          exact advances_value event value begun (within nofun)
            (fun _ => Completion.value_cons.mpr) rfl
      | firstMember | nextMember =>
          obtain ⟨rfl, after⟩ | ⟨s, rfl, after⟩ := shows
          · cases event
            have tail : r₁.places.tail = places ++ outer := congrArg List.tail after
            exact advances_end rfl (.inl rfl) tail settled
              fun _ rest => Completion.rest_object_cons.mpr (.inl ⟨rfl, rest⟩)
          · cases event
            exact advances_name (by simp) after settled

theorem due_of_skipWithin {rounds : Nat} (unseen : r.lookahead = none)
    (split : r.places = inner ++ outer)
    (start : inner = [] → ∃ places, outer = .memberValue :: places) (settled : Settled inner.tail)
    (enough : r.unitsLeft < rounds) (h : skipWithin rounds inner.length r = .ok () r') :
    ∃ evs, Consumes evs r r' ∧ Due inner evs := by
  induction rounds generalizing r inner outer with
  | zero => exact absurd enough (Nat.not_lt_zero _)
  | succ rounds ih =>
      obtain ⟨a, r₁, round, rest⟩ := bind_eq_ok.mp h
      obtain ⟨e, step, inside⟩ := event_of_skipRound round
      have less := ensures_nextEvent r.unitsLeft r _ r₁ (Nat.le_refl _) step rfl
      have advances := advances_of_nextEvent unseen split start settled step
      cases round.symm.trans (skipRound_of_event step inside)
      obtain ⟨seen, -⟩ := (Consumes.single step).behind
      cases behind : e.depthBehind inner.length with
      | none =>
          rw [behind] at advances rest
          cases rest
          exact ⟨[e], .single step, advances⟩
      | some depth =>
          rw [behind] at advances rest
          obtain ⟨inner', outer', split', rfl, nonempty, settled', due⟩ := advances
          obtain ⟨evs, consumes, complete⟩ := ih seen split' (fun none => absurd none nonempty)
            settled' (by omega) rest
          exact ⟨e :: evs, .cons step consumes, due evs complete⟩

/-- Skipping behind a member name takes the units of a value. -/
theorem tree_of_skipWithin {rounds : Nat} {places : List Place} (unseen : r.lookahead = none)
    (named : r.places = .memberValue :: places) (enough : r.unitsLeft < rounds)
    (h : skipWithin rounds 0 r = .ok () r') : ∃ t : Tree, Consumes t.events r r' := by
  have split : r.places = [] ++ .memberValue :: places := named
  obtain ⟨evs, consumes, due⟩ :=
    due_of_skipWithin unseen split (fun _ => ⟨places, rfl⟩) nofun enough h
  obtain ⟨t, rfl⟩ := Completion.value_iff.mp due
  exact ⟨t, consumes⟩

theorem named_of_nextEvent {s : String} (unseen : r.lookahead = none)
    (h : nextEvent r = .ok (some (.name s)) r') : ∃ places, r'.places = .memberValue :: places := by
  obtain ⟨l, r₁, event, shows, rfl⟩ := shows_of_nextEvent unseen h
  obtain rfl : l = .name s := Lexeme.event?_inj event
  rw [Reader.places_behind]
  exact shows.of_name

end ReadM

end TypedJson
