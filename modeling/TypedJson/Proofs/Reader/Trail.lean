import Mathlib.Data.List.Forall2
import TypedJson.Proofs.Reader.Passage
import TypedJson.Proofs.Reader.Steps

set_option autoImplicit false
set_option relaxedAutoImplicit false

namespace TypedJson

open Operation
open Grammar (Place)

/-- A container that has begun and not ended: an array with its complete items, or an object with
its complete members and, if one has been read behind them, the name of the next. -/
inductive Frame where
  | array (items : List Tree)
  | object (members : List (String × Tree))
  | named (members : List (String × Tree)) (name : String)

namespace Frame

def events : Frame → List Event
  | .array items => .beginArray :: items.flatMap Tree.events
  | .object members => .beginObject :: members.flatMap Tree.ofMember
  | .named members name => .beginObject :: members.flatMap Tree.ofMember ++ [.name name]

def step : Frame → PathStep
  | .array items => .item items.length
  | .object members => .member ((members.getLast?.map Prod.fst).getD "<?>")
  | .named _ name => .member name

/-- Whether a value may come at a place inside a container, and the place once it has begun. -/
def Awaits : Frame → Place → Prop
  | .array _, place => place = .nextItem
  | .object _, _ => False
  | .named _ _, place => place = .nextMember

def Fits : Frame → Place → Prop
  | .array _, place => place = .firstItem ∨ place = .nextItem
  | .object _, place => place = .firstMember ∨ place = .nextMember
  | .named _ _, place => place = .memberValue

end Frame

/-- What has been passed of a document: the complete values at its top level, and the containers
that have begun and not ended, the innermost first. -/
structure Trail where
  values : List Tree
  frames : List Frame

namespace Trail

variable {t : Trail} {places : List Place} {l : Lexeme} {e : Event} {lenient : Bool}
variable {evs : List Event} {r r' : Reader}

def events (t : Trail) : List Event :=
  t.values.flatMap Tree.events ++ t.frames.reverse.flatMap Frame.events

/-- The path, from the outermost container inward. -/
def path (t : Trail) : List PathStep :=
  t.frames.reverse.map Frame.step

theorem events_cons (values : List Tree) (frame : Frame) (frames : List Frame) :
    events ⟨values, frame :: frames⟩ = events ⟨values, frames⟩ ++ frame.events := by
  simp [events]

/-! The steps that these units lead to. -/

theorem leads_items (items : List Tree) (index : Nat) (steps : List PathStep) :
    (items.flatMap Tree.events).foldl Event.leads (.item index :: steps) =
      .item (index + items.length) :: steps := by
  induction items generalizing index with
  | nil => rfl
  | cons item items ih =>
      rw [List.flatMap_cons, List.foldl_append, Tree.leads_events, PathStep.counted, ih,
        List.length_cons, Nat.add_right_comm, Nat.add_assoc]

theorem leads_members (members : List (String × Tree)) (last : String) (steps : List PathStep) :
    (members.flatMap Tree.ofMember).foldl Event.leads (.member last :: steps) =
      .member ((members.getLast?.map Prod.fst).getD last) :: steps := by
  induction members generalizing last with
  | nil => rfl
  | cons member members ih =>
      have name : Event.leads (.member last :: steps) (.name member.1) =
          .member member.1 :: steps := rfl
      rw [List.flatMap_cons, List.foldl_append, Tree.ofMember, List.foldl_cons, name,
        Tree.leads_events, PathStep.counted, ih]
      · cases members with
        | nil => rfl
        | cons next members => simp [List.getLast?_cons]
      · intro index outer h
        cases h

theorem leads_frame (frame : Frame) (steps : List PathStep) :
    frame.events.foldl Event.leads steps = frame.step :: steps := by
  cases frame with
  | array items =>
      rw [Frame.events, List.foldl_cons]
      have run := leads_items items 0 steps
      rw [Nat.zero_add] at run
      exact run
  | object members =>
      rw [Frame.events, List.foldl_cons]
      exact leads_members members "<?>" steps
  | named members name =>
      rw [Frame.events, List.foldl_append, List.foldl_cons]
      have run := leads_members members "<?>" steps
      exact (congrArg (PathStep.named name) run)

theorem leads_values (values : List Tree) :
    (values.flatMap Tree.events).foldl Event.leads [] = [] := by
  induction values with
  | nil => rfl
  | cons value values ih =>
      rw [List.flatMap_cons, List.foldl_append, Tree.leads_events]
      exact ih

theorem leads_events (t : Trail) :
    t.events.foldl Event.leads [] = t.frames.map Frame.step := by
  obtain ⟨values, frames⟩ := t
  induction frames with
  | nil =>
      rw [events, List.reverse_nil, List.flatMap_nil, List.append_nil]
      exact leads_values values
  | cons frame frames ih => rw [events_cons, List.foldl_append, ih, leads_frame, List.map_cons]

/-! One unit further. -/

/-- The innermost container fits the innermost place, and each container around it waits for the
value inside it to end. -/
def Fits (t : Trail) : List Place → Prop
  | [] => t.frames = []
  | place :: places => ∃ frame frames, t.frames = frame :: frames ∧ frame.Fits place ∧
      List.Forall₂ Frame.Awaits frames places

def add (t : Trail) (v : Tree) : Trail :=
  match t.frames with
  | [] => { t with values := t.values ++ [v] }
  | .array items :: frames => { t with frames := .array (items ++ [v]) :: frames }
  | .object _ :: _ => t
  | .named members name :: frames =>
      { t with frames := .object (members ++ [(name, v)]) :: frames }

theorem add_spec (values : List Tree) {frames : List Frame} (v : Tree)
    (awaits : List.Forall₂ Frame.Awaits frames places) :
    (add ⟨values, frames⟩ v).events = events ⟨values, frames⟩ ++ v.events ∧
      (add ⟨values, frames⟩ v).Fits places := by
  cases awaits with
  | nil =>
      refine ⟨?_, rfl⟩
      simp [add, events]
  | @cons frame place frames places own outer =>
      cases frame with
      | array items =>
          refine ⟨?_, _, _, rfl, .inr own, outer⟩
          simp [add, events_cons, Frame.events, List.flatMap_append]
      | object members => exact own.elim
      | named members name =>
          refine ⟨?_, _, _, rfl, .inr own, outer⟩
          simp [add, events_cons, Frame.events, List.flatMap_append, Tree.ofMember]

theorem behind_value {values : List Tree} {frames : List Frame}
    (awaits : List.Forall₂ Frame.Awaits frames r.places) (value : l.beginsValue = true)
    (event : l.event? = some e) :
    ∃ t' : Trail, t'.events = events ⟨values, frames⟩ ++ [e] ∧ t'.Fits (r.behind l).places := by
  have complete (v : Tree) (units : v.events = [e]) (same : (r.behind l).places = r.places) :
      ∃ t' : Trail, t'.events = events ⟨values, frames⟩ ++ [e] ∧
        t'.Fits (r.behind l).places := by
    obtain ⟨passed, fits⟩ := add_spec values v awaits
    rw [units] at passed
    rw [same]
    exact ⟨_, passed, fits⟩
  have behind := Reader.places_behind r l
  cases l with
  | beginObject =>
      cases event
      refine ⟨⟨values, .object [] :: frames⟩, events_cons values _ frames, ?_⟩
      rw [behind]
      exact ⟨_, _, rfl, .inl rfl, awaits⟩
  | beginArray =>
      cases event
      refine ⟨⟨values, .array [] :: frames⟩, events_cons values _ frames, ?_⟩
      rw [behind]
      exact ⟨_, _, rfl, .inl rfl, awaits⟩
  | string s =>
      cases event
      exact complete (.string s) (by rw [Tree.events]) behind
  | number s =>
      cases event
      exact complete (.number s) (by rw [Tree.events]) behind
  | boolean b =>
      cases event
      exact complete (.boolean b) (by rw [Tree.events]) behind
  | null =>
      cases event
      exact complete .null (by rw [Tree.events]) behind
  | endObject | endArray | name | endDocument => cases value

theorem behind_end {values : List Tree} {frame : Frame} {frames : List Frame} {v : Tree}
    (awaits : List.Forall₂ Frame.Awaits frames places)
    (left : (r.behind l).places = places) (units : frame.events ++ [e] = v.events) :
    ∃ t' : Trail, t'.events = events ⟨values, frame :: frames⟩ ++ [e] ∧
      t'.Fits (r.behind l).places := by
  obtain ⟨passed, fits⟩ := add_spec values v awaits
  rw [left]
  refine ⟨_, ?_, fits⟩
  rw [passed, events_cons, List.append_assoc, units]

/-- A unit that the grammar position admits extends what has been passed. -/
theorem behind_unit (fits : t.Fits places) (shows : Place.Shows l places r.places)
    (event : l.event? = some e) :
    ∃ t' : Trail, t'.events = t.events ++ [e] ∧ t'.Fits (r.behind l).places := by
  obtain ⟨values, frames⟩ := t
  cases places with
  | nil =>
      obtain ⟨after, value | rfl⟩ := shows
      · obtain rfl : frames = [] := fits
        have awaits : List.Forall₂ Frame.Awaits [] r.places := by
          rw [after]
          exact .nil
        exact behind_value awaits value event
      · cases event
  | cons place places =>
      obtain ⟨frame, outer, rfl, own, awaits⟩ := fits
      cases frame with
      | array items =>
          have shown : r.places = .nextItem :: places ∧
              (l.beginsValue = true ∨ l = .endArray) := by
            rcases own with rfl | rfl
            · exact shows
            · exact shows
          obtain ⟨after, value | rfl⟩ := shown
          · have inside : List.Forall₂ Frame.Awaits (.array items :: outer) r.places := by
              rw [after]
              exact .cons rfl awaits
            exact behind_value inside value event
          · cases event
            have left : (r.behind .endArray).places = places := by
              rw [Reader.places_behind, after]
              rfl
            apply behind_end (v := .array items) awaits left
            rw [Tree.events, Tree.itemEvents_eq]
            rfl
      | object members =>
          have shown : l = .endObject ∧ r.places.tail = places ∨
              ∃ s, l = .name s ∧ r.places = .memberValue :: places := by
            rcases own with rfl | rfl
            · obtain ⟨last, after⟩ | named := shows
              · exact .inl ⟨last, by rw [after, List.tail_cons]⟩
              · exact .inr named
            · obtain ⟨last, after⟩ | named := shows
              · exact .inl ⟨last, by rw [after, List.tail_cons]⟩
              · exact .inr named
          obtain ⟨rfl, after⟩ | ⟨s, rfl, after⟩ := shown
          · cases event
            have left : (r.behind .endObject).places = places := by
              rw [Reader.places_behind]
              exact after
            apply behind_end (v := .object members) awaits left
            rw [Tree.events, Tree.memberEvents_eq]
            rfl
          · cases event
            refine ⟨⟨values, .named members s :: outer⟩, ?_, ?_⟩
            · simp [events_cons, Frame.events]
            · rw [Reader.places_behind]
              dsimp only
              rw [after]
              exact ⟨_, _, rfl, rfl, awaits⟩
      | named members name =>
          obtain rfl : place = .memberValue := own
          obtain ⟨after, value⟩ := shows
          have inside : List.Forall₂ Frame.Awaits (.named members name :: outer) r.places := by
            rw [after]
            exact .cons rfl awaits
          exact behind_value inside value event

/-! A whole session. -/

/-- What has been passed agrees with the grammar position; behind a look at the next unit, with the
position before it. -/
def Suits (t : Trail) (r : Reader) : Prop :=
  match r.lookahead with
  | none => t.Fits r.places
  | some l => ∃ places, t.Fits places ∧ Place.Shows l places r.places

theorem suits_of_peekLexeme (suits : t.Suits r) (h : ReadM.peekLexeme r = .ok l r') :
    t.Suits r' := by
  obtain ⟨-, rfl⟩ | ⟨unseen, q, next, rfl⟩ := ReadM.peekLexeme_eq_ok h
  · exact suits
  · unfold Suits at suits
    rw [unseen] at suits
    exact ⟨r.places, suits, (ReadM.shows_of_nextLexeme next).1⟩

theorem suits_of_nextEvent (suits : t.Suits r) (h : ReadM.nextEvent r = .ok (some e) r') :
    ∃ t' : Trail, t'.events = t.events ++ [e] ∧ t'.Suits r' := by
  obtain ⟨l, r₁, look, event, -, rfl⟩ := ReadM.nextEvent_eq_ok h
  have seen := suits_of_peekLexeme suits look
  unfold Suits at seen
  rw [ReadM.lookahead_of_peek look] at seen
  obtain ⟨places, fits, shows⟩ := seen
  obtain ⟨t', passed, fits'⟩ := behind_unit fits shows event
  refine ⟨t', passed, ?_⟩
  obtain ⟨-, unseen, -, -⟩ := Reader.behind_fields (r := r₁) event
  unfold Suits
  rw [unseen]
  exact fits'

theorem suits_of_passes (suits : t.Suits r) (h : Reader.Passes lenient evs r r') :
    ∃ t' : Trail, t'.events = t.events ++ evs ∧ t'.Suits r' := by
  induction h generalizing t with
  | nil => exact ⟨t, (List.append_nil _).symm, suits⟩
  | look seen _ ih => exact ih (suits_of_peekLexeme suits seen)
  | take step _ ih =>
      obtain ⟨t₁, first, suits₁⟩ := suits_of_nextEvent suits step
      obtain ⟨t₂, passed, suits₂⟩ := ih suits₁
      refine ⟨t₂, ?_, suits₂⟩
      rw [passed, first, List.append_assoc, List.singleton_append]
  | switch _ switched _ ih =>
      cases switched
      exact ih suits

end Trail

namespace Reader

variable {source : Source} {settings : ReaderSettings} {lenient : Bool} {evs : List Event}
variable {r r' : Reader}

theorem steps_of_passes (h : Passes lenient evs r r') :
    r'.steps = evs.foldl Event.leads r.steps := by
  induction h with
  | nil => rfl
  | look seen _ ih => rw [ih, steps_of_peekLexeme seen]
  | take step _ ih => rw [ih, steps_of_nextEvent step, List.foldl_cons]
  | switch _ switched _ ih =>
      cases switched
      exact ih

theorem settings_of_passes (h : Passes lenient evs r r') :
    r'.settings.trackPath = r.settings.trackPath := by
  induction h with
  | nil => rfl
  | look seen _ ih => rw [ih, settings_of_peekLexeme seen]
  | take step _ ih => rw [ih, (Consumes.single step).behind.2]
  | switch _ switched _ ih =>
      cases switched
      exact ih

/-- The units passed from the beginning of a document are those of complete values and of containers
that have not ended, and the path leads into these containers. -/
theorem trail_of_passes (h : Passes lenient evs (new source settings) r')
    (tracked : settings.trackPath = true) :
    ∃ t : Trail, t.events = evs ∧ r'.location.path = some t.path := by
  have start : Trail.Suits ⟨[], []⟩ (new source settings) := rfl
  obtain ⟨t, passed, -⟩ := Trail.suits_of_passes start h
  refine ⟨t, passed, ?_⟩
  have kept : r'.settings.trackPath = true := (settings_of_passes h).trans tracked
  have led : r'.steps = t.frames.map Frame.step := by
    rw [steps_of_passes h, ← t.leads_events, passed]
    rfl
  have path := path?_of_tracked kept
  rw [led, ← List.map_reverse] at path
  exact path

/-- Behind calls that have all succeeded, whichever they are, the path has one step for each
container that has begun and not ended, outermost first: for an array the number of its complete
items, for an object the last name read in it, or a placeholder before the first. What has begun and
ended is told by the units that the calls have passed. -/
theorem path_exact {calls : List Call} (tracked : settings.trackPath = true)
    (succeed : AllSucceed ((new source settings).session calls).1) :
    (∃ evs, Passes true evs (new source settings) ((new source settings).session calls).2) ∧
      ∀ evs, Passes true evs (new source settings) ((new source settings).session calls).2 →
        ∃ t : Trail, t.events = evs ∧
          ((new source settings).session calls).2.location.path = some t.path := by
  refine ⟨passes_of_session (fun _ => rfl) succeed, ?_⟩
  intro evs passes
  exact trail_of_passes passes tracked

/-- In front of the second item of an array in an object. -/
theorem path_exact_secondItem :
    ∃ source calls, calls = [.beginObject, .nextName, .beginArray, .skipValue, .peek] ∧
      source = ⟨[.data 0x7B (Utf8.encode "\"a\":[[0,1],2]\x7d".toList)], .endOfData⟩ ∧
      ({} : ReaderSettings).trackPath = true ∧
      AllSucceed ((new source).session calls).1 ∧
      ∀ evs, Passes true evs (new source) ((new source).session calls).2 →
        ∃ t : Trail, t.events = evs ∧ t.path = [.member "a", .item 1] := by
  refine ⟨_, _, rfl, rfl, rfl, by decide +kernel, ?_⟩
  intro evs passes
  obtain ⟨t, passed, path⟩ := (path_exact rfl (by decide +kernel)).2 evs passes
  refine ⟨t, passed, Option.some.inj (path.symm.trans ?_)⟩
  decide +kernel

end Reader

end TypedJson
