import TypedJson.Proofs.Reader.Skipping

set_option autoImplicit false
set_option relaxedAutoImplicit false

namespace TypedJson

open Operation
open Grammar (Place)
open Reader (Consumes)

namespace PathStep

/-- The steps behind a complete value, the innermost first: an array has one more complete item. -/
def counted : List PathStep → List PathStep
  | .item index :: outer => .item (index + 1) :: outer
  | steps => steps

def named (name : String) : List PathStep → List PathStep
  | .member _ :: outer => .member name :: outer
  | steps => steps

end PathStep

def Event.leads (steps : List PathStep) : Event → List PathStep
  | .beginObject => .member "<?>" :: steps
  | .beginArray => .item 0 :: steps
  | .endObject | .endArray => PathStep.counted steps.tail
  | .name s => PathStep.named s steps
  | .string _ | .number _ | .boolean _ | .null => PathStep.counted steps

namespace Reader

variable {r r' : Reader} {l : Lexeme} {e : Event} {evs : List Event}

/-- The steps of the path, the innermost first. -/
def steps (r : Reader) : List PathStep :=
  r.containers.map Container.step

theorem path?_of_tracked (tracked : r.settings.trackPath = true) :
    r.path? = some r.steps.reverse := by
  rw [path?, if_pos tracked, steps, List.map_reverse]

/-! What changes them. -/

theorem steps_endValue (r : Reader) : r.endValue.steps = PathStep.counted r.steps := by
  unfold endValue
  split
  · rename_i containers
    rw [steps, steps, containers]
    rfl
  · rename_i other
    rw [steps]
    cases containers : r.containers with
    | nil => rfl
    | cons container outer =>
        cases container with
        | array started index => exact absurd containers (other _ _ _)
        | object phase member => rfl

theorem steps_nameMember (r : Reader) (name : String) :
    (r.nameMember name).steps = PathStep.named name r.steps := by
  unfold nameMember
  split
  · rename_i containers
    rw [steps, steps, containers]
    rfl
  · rename_i other
    rw [steps]
    cases containers : r.containers with
    | nil => rfl
    | cons container outer =>
        cases container with
        | array started index => rfl
        | object phase member => exact absurd containers (other _ _ _)

theorem steps_endContainer (r : Reader) :
    r.endContainer.steps = PathStep.counted r.steps.tail := by
  have left : { r with containers := r.containers.tail, room := r.room + 1 }.steps =
      r.steps.tail := List.map_tail
  rw [endContainer, steps_endValue, left]

theorem steps_behind (event : l.event? = some e) : (r.behind l).steps = e.leads r.steps := by
  cases l with
  | endDocument => cases event
  | beginObject | beginArray =>
      cases event
      rfl
  | endObject | endArray =>
      cases event
      exact steps_endContainer _
  | name s =>
      cases event
      exact steps_nameMember _ s
  | string | number | boolean | null =>
      cases event
      exact steps_endValue _

/-- Looking for the next unit moves the grammar position, but not the path. -/
theorem steps_of_nextLexeme (h : ReadM.nextLexeme r = .ok l r') : r'.steps = r.steps := by
  -- the innermost container is replaced by one with the same step, and then only the cursor moves
  have replaced {container : Container} {outer : List Container} {c : Container}
      (containers : r.containers = container :: outer) (same : c.step = container.step) :
      (r.setContainer c).steps = r.steps := by
    rw [steps, steps, setContainer, containers, List.tail_cons, List.map_cons, List.map_cons, same]
  obtain ⟨x, q, look, run⟩ := ReadM.exists_lookup r
  rw [run] at h
  cases look with
  | topValue | afterTopValue | nextItem =>
      obtain ⟨c, rfl, -⟩ := ReadM.lex_eq_ok h
      rfl
  | firstItem within | memberValue within =>
      obtain ⟨c, rfl, -⟩ := ReadM.lex_eq_ok h
      exact replaced within rfl
  | member _ within =>
      obtain ⟨found, r₁, finding, rest⟩ := bind_eq_ok.mp h
      obtain ⟨c, rfl, -⟩ := ReadM.lex_eq_ok finding
      cases found with
      | none =>
          cases rest
          rfl
      | some b =>
          obtain ⟨_, _, ⟨⟩, naming⟩ := bind_eq_ok.mp rest
          obtain ⟨c', rfl, -⟩ := ReadM.lex_eq_ok naming
          exact replaced within rfl

theorem steps_of_peekLexeme (h : ReadM.peekLexeme r = .ok l r') : r'.steps = r.steps := by
  obtain ⟨-, rfl⟩ | ⟨-, q, next, rfl⟩ := ReadM.peekLexeme_eq_ok h
  · rfl
  · exact (steps_of_nextLexeme next :)

theorem steps_of_nextEvent (h : ReadM.nextEvent r = .ok (some e) r') :
    r'.steps = e.leads r.steps := by
  obtain ⟨l, r₁, look, event, -, rfl⟩ := ReadM.nextEvent_eq_ok h
  rw [steps_behind event, steps_of_peekLexeme look]

theorem steps_of_consumes (h : Consumes evs r r') : r'.steps = evs.foldl Event.leads r.steps := by
  induction h with
  | nil => rfl
  | cons step _ ih => rw [ih, steps_of_nextEvent step, List.foldl_cons]

end Reader

/-- How a state follows the units of a value. `done` is what has become of it behind the value; the
relations tell what has become of it between the items of an array, between the members of an
object, and behind the name of a member. -/
structure Tree.Followed {σ : Type} (step : σ → Event → σ) (done : σ → σ)
    (inArray inObject named : σ → σ → Prop) : Prop where
  string : ∀ s text, step s (.string text) = done s
  number : ∀ s literal, step s (.number literal) = done s
  boolean : ∀ s b, step s (.boolean b) = done s
  null : ∀ s, step s .null = done s
  beginArray : ∀ s, inArray s (step s .beginArray)
  item : ∀ s u, inArray s u → inArray s (done u)
  endArray : ∀ s u, inArray s u → step u .endArray = done s
  beginObject : ∀ s, inObject s (step s .beginObject)
  name : ∀ s u text, inObject s u → named s (step u (.name text))
  value : ∀ s u, named s u → inObject s (done u)
  endObject : ∀ s u, inObject s u → step u .endObject = done s

namespace Tree.Followed

variable {σ : Type} {step : σ → Event → σ} {done : σ → σ} {inArray inObject named : σ → σ → Prop}
variable (F : Tree.Followed step done inArray inObject named)
include F

mutual

theorem events (t : Tree) (s : σ) : t.events.foldl step s = done s := by
  cases t with
  | object members =>
      rw [Tree.events, List.foldl_cons]
      exact memberEvents members (F.beginObject s)
  | array items =>
      rw [Tree.events, List.foldl_cons]
      exact itemEvents items (F.beginArray s)
  | string text =>
      rw [Tree.events]
      exact F.string s text
  | number literal =>
      rw [Tree.events]
      exact F.number s literal
  | boolean b =>
      rw [Tree.events]
      exact F.boolean s b
  | null =>
      rw [Tree.events]
      exact F.null s

theorem itemEvents (items : List Tree) {s u : σ} (inside : inArray s u) :
    (Tree.itemEvents items).foldl step u = done s := by
  cases items with
  | nil =>
      rw [Tree.itemEvents]
      exact F.endArray s u inside
  | cons item items =>
      rw [Tree.itemEvents, List.foldl_append, events item]
      exact itemEvents items (F.item s u inside)

theorem memberEvents (members : List (String × Tree)) {s u : σ} (inside : inObject s u) :
    (Tree.memberEvents members).foldl step u = done s := by
  cases members with
  | nil =>
      rw [Tree.memberEvents]
      exact F.endObject s u inside
  | cons member members =>
      obtain ⟨text, value⟩ := member
      rw [Tree.memberEvents, List.foldl_cons, List.foldl_append, events value]
      exact memberEvents members (F.value s _ (F.name s u text inside))

end

end Tree.Followed

/-! Behind a value. -/

theorem PathStep.followed : Tree.Followed Event.leads PathStep.counted
    (fun steps inside => ∃ index, inside = .item index :: steps)
    (fun steps inside => ∃ name, inside = .member name :: steps)
    (fun steps inside => ∃ name, inside = .member name :: steps) where
  string _ _ := rfl
  number _ _ := rfl
  boolean _ _ := rfl
  null _ := rfl
  beginArray _ := ⟨0, rfl⟩
  item := by
    rintro steps _ ⟨index, rfl⟩
    exact ⟨index + 1, rfl⟩
  endArray := by
    rintro steps _ ⟨index, rfl⟩
    rfl
  beginObject _ := ⟨"<?>", rfl⟩
  name := by
    rintro steps _ text ⟨last, rfl⟩
    exact ⟨text, rfl⟩
  value := by
    rintro steps _ ⟨name, rfl⟩
    exact ⟨name, rfl⟩
  endObject := by
    rintro steps _ ⟨name, rfl⟩
    rfl

theorem Tree.leads_events (t : Tree) (steps : List PathStep) :
    t.events.foldl Event.leads steps = PathStep.counted steps :=
  PathStep.followed.events t steps

def Grammar.Place.begun : List Place → List Place
  | .firstItem :: places => .nextItem :: places
  | .memberValue :: places => .nextMember :: places
  | places => places

def Event.moves (places : List Place) : Event → List Place
  | .beginObject => .firstMember :: Place.begun places
  | .beginArray => .firstItem :: Place.begun places
  | .endObject | .endArray => places.tail
  | .name _ => .memberValue :: places.tail
  | .string _ | .number _ | .boolean _ | .null => Place.begun places

theorem Grammar.Place.followed : Tree.Followed Event.moves begun
    (fun places inside => inside = .firstItem :: begun places ∨ inside = .nextItem :: begun places)
    (fun places inside =>
      inside = .firstMember :: begun places ∨ inside = .nextMember :: begun places)
    (fun places inside => inside = .memberValue :: begun places) where
  string _ _ := rfl
  number _ _ := rfl
  boolean _ _ := rfl
  null _ := rfl
  beginArray _ := .inl rfl
  item := by
    intro places inside h
    rcases h with rfl | rfl
    · exact .inr rfl
    · exact .inr rfl
  endArray := by
    intro places inside h
    rcases h with rfl | rfl
    · rfl
    · rfl
  beginObject _ := .inl rfl
  name := by
    intro places inside text h
    rcases h with rfl | rfl
    · rfl
    · rfl
  value := by
    rintro places _ rfl
    exact .inr rfl
  endObject := by
    intro places inside h
    rcases h with rfl | rfl
    · rfl
    · rfl

namespace Reader

variable {r r' : Reader} {l : Lexeme} {e : Event} {evs : List Event} {t : Tree}

/-- Behind a complete value the path has counted it, and nothing else has changed. -/
theorem steps_of_tree (h : Consumes t.events r r') : r'.steps = PathStep.counted r.steps := by
  rw [steps_of_consumes h, Tree.leads_events]

theorem moves_of_shows {places : List Place} (shows : Place.Shows l places r.places)
    (event : l.event? = some e) : (r.behind l).places = e.moves places := by
  have behind := places_behind r l
  -- the two ways to go on where a value may come, or an array may end
  have value {rest : List Place} (after : r.places = rest) (begins : l.beginsValue = true)
      (same : Place.begun places = rest) : (r.behind l).places = e.moves places := by
    rw [behind, after, ← same]
    cases l with
    | endObject | endArray | name | endDocument => cases begins
    | _ =>
        cases event
        rfl
  cases places with
  | nil =>
      obtain ⟨after, begins | rfl⟩ := shows
      · exact value after begins rfl
      · cases event
  | cons place outer =>
      cases place with
      | firstItem | nextItem =>
          obtain ⟨after, begins | rfl⟩ := shows
          · exact value after begins rfl
          · cases event
            rw [behind]
            exact congrArg List.tail after
      | memberValue =>
          obtain ⟨after, begins⟩ := shows
          exact value after begins rfl
      | firstMember | nextMember =>
          obtain ⟨rfl, after⟩ | ⟨s, rfl, after⟩ := shows
          · cases event
            rw [behind]
            exact congrArg List.tail after
          · cases event
            rw [behind]
            exact after

theorem places_of_nextEvent (unseen : r.lookahead = none)
    (h : ReadM.nextEvent r = .ok (some e) r') : r'.places = e.moves r.places := by
  obtain ⟨l, r₁, event, shows, rfl⟩ := ReadM.shows_of_nextEvent unseen h
  exact moves_of_shows shows event

theorem places_of_consumes (unseen : r.lookahead = none) (h : Consumes evs r r') :
    r'.places = evs.foldl Event.moves r.places := by
  induction h with
  | nil => rfl
  | cons step _ ih =>
      rw [ih (Consumes.single step).behind.1, places_of_nextEvent unseen step, List.foldl_cons]

theorem places_of_tree (unseen : r.lookahead = none) (h : Consumes t.events r r') :
    r'.places = Place.begun r.places := by
  rw [places_of_consumes unseen h, Place.followed.events]

end Reader

end TypedJson
