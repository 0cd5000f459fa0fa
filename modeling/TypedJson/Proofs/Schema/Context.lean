import TypedJson.Document
import TypedJson.Proofs.Reader.Faults
import TypedJson.Proofs.Schema.Loop

/-!
# The context of an error

An error of typed reading tells where it arose in two ways: by the properties that it has been
wrapped in on its way out, and by the path that the reader had tracked on its way in. If the error is
about a value, the two agree.
-/

set_option autoImplicit false
set_option relaxedAutoImplicit false

namespace TypedJson

open Operation
open Grammar (Place)
open Reader (Consumes)
open ReadM (nextEvent peekLexeme)

variable {α β κ : Type} {n fuel : Nat} {r r' : Reader} {settings : ReaderSettings}

namespace BindError

variable {names : List String} {e : BindError}

/-- If the error is about a value, the member names on the way to it are these and then the
properties that the error names. -/
def Traces (names : List String) (e : BindError) : Prop :=
  ∀ cause, e.rootCause = .reading cause → cause.Locates (names ++ e.properties)

theorem traces_reading {cause : ReadError} (h : cause.Locates names) :
    (reading cause).Traces names := by
  intro _ root
  cases root
  have own : (reading cause).properties = [] := rfl
  rw [own, List.append_nil]
  exact h

theorem Traces.property {schema name : String} (h : e.Traces (names ++ [name])) :
    (property schema name e).Traces names := by
  intro cause root
  have located := h cause root
  rw [List.append_assoc] at located
  exact located

end BindError

namespace BindM

variable {e : BindError}

theorem read_eq_error {x : ReadM α} (h : read x r = .error e r') :
    ∃ cause, e = .reading cause ∧ x r = .error cause r' := by
  unfold read at h
  split at h
  · cases h
  · rename_i cause r₁ run
    cases h
    exact ⟨cause, rfl, run⟩

theorem traces_of_read {x : ReadM α} (hx : ReadM.Located x) (tracked : r.settings.trackPath = true)
    (h : read x r = .error e r') : e.Traces r.names := by
  obtain ⟨cause, rfl, run⟩ := read_eq_error h
  exact BindError.traces_reading (hx r cause r' tracked run)

theorem within_eq_error {x : BindM α} {schema name : String}
    (h : within (some schema) name x r = .error e r') :
    ∃ inner, e = .property schema name inner ∧ x r = .error inner r' := by
  unfold within at h
  cases run : x r with
  | ok a r₁ =>
      rw [run] at h
      cases h
  | error inner r₁ =>
      rw [run] at h
      cases h
      exact ⟨inner, rfl, rfl⟩

theorem collecting_eq_error {x : FillM β Unit} {start : β}
    (h : collecting start x r = .error e r') : ∃ b, x (r, start) = .error e (r', b) := by
  unfold collecting at h
  split at h
  · cases h
  · rename_i inner r₁ b run
    cases h
    exact ⟨b, run⟩

/-- From a state with these settings and at most so many units left, the operation, if it fails,
fails with an error that traces the way from there. -/
def Traced (settings : ReaderSettings) (n : Nat) (x : BindM α) : Prop :=
  ∀ r e r', r.settings = settings → r.unitsLeft ≤ n → x r = .error e r' → e.Traces r.names

theorem Traced.of_peeked {x : BindM α} (hx : Traced settings n x) {r₁ : Reader} {l : Lexeme}
    (same : r.settings = settings) (few : r.unitsLeft ≤ n) (look : peekLexeme r = .ok l r₁)
    (h : x r₁ = .error e r') : e.Traces r.names := by
  obtain ⟨names, kept⟩ := Reader.keeps_of_peekLexeme look
  have fewer := (ReadM.ensures_peekLexeme n r l r₁ few look).1
  have traces := hx r₁ e r' (kept.trans same) fewer h
  rw [names] at traces
  exact traces

end BindM

/-! Loops. -/

namespace FillM

variable {b b' : β} {e : BindError} {s : Reader × β}

theorem typed_eq_error {x : BindM α} (h : (typed x : FillM β α) (r, b) = .error e s) :
    x r = .error e s.1 := by
  unfold typed at h
  dsimp only at h
  split at h
  · cases h
  · rename_i run
    cases h
    exact run

theorem kept_of_typed_error {x : BindM α} (h : (typed x : FillM β α) (r, b) = .error e s) :
    s.2 = b := by
  unfold typed at h
  dsimp only at h
  split at h
  · cases h
  · cases h
    rfl

/-- How a loop over the elements of a container ends: in front of a unit that ends a container, with
an error that is about no value, or with an error of an element. -/
inductive Looped (I : Reader → β → Prop) (body : FillM β Unit) :
    EStateM.Result BindError (Reader × β) Unit → Prop where
  | ended {r r' : Reader} {l : Lexeme} {b : β} :
      I r b → peekLexeme r = .ok l r' → l.ends = true → Looped I body (.ok () (r', b))
  | unread {cause : ReadError} {s : Reader × β} :
      ¬ cause.IsAboutValue → Looped I body (.error (.reading cause) s)
  | failed {r r₁ : Reader} {l : Lexeme} {b : β} {e : BindError} {s : Reader × β} :
      I r b → peekLexeme r = .ok l r₁ → l.ends = false → body (r₁, b) = .error e s →
      Looped I body (.error e s)

theorem looped_each {I : Reader → β → Prop} {body : FillM β Unit}
    (step : ∀ (r r₁ r' : Reader) (l : Lexeme) (b b' : β), I r b → peekLexeme r = .ok l r₁ →
      body (r₁, b) = .ok () (r', b') → I r' b' ∧ r'.unitsLeft < r.unitsLeft)
    (hI : I r b) (enough : r.unitsLeft < fuel) : Looped I body (each body fuel (r, b)) := by
  obtain ⟨r₀, b₀, hI₀, stops⟩ := each_stops step hI enough
  generalize each body fuel (r, b) = result at stops
  cases stops with
  | unread look => exact .unread (ReadM.not_isAboutValue_of_peekLexeme look)
  | ended look last => exact .ended hI₀ look last
  | failed look more element => exact .failed hI₀ look more element

end FillM

/-! Containers. -/

def Bracket.HasPlace : Bracket → Place → Prop
  | .array, place => place = .firstItem ∨ place = .nextItem
  | .object, place => place = .firstMember ∨ place = .nextMember

def Bracket.HasStep : Bracket → PathStep → Prop
  | .array, step => ∃ index, step = .item index
  | .object, step => ∃ name, step = .member name

/-- The reader stands between the elements of a container, on the path into it, and has at most so
many units left. -/
structure Reader.Between (bracket : Bracket) (settings : ReaderSettings) (n : Nat)
    (outer : List PathStep) (r : Reader) : Prop where
  unseen : r.lookahead = none
  same : r.settings = settings
  few : r.unitsLeft ≤ n
  steps : ∃ step, r.steps = step :: outer ∧ bracket.HasStep step
  places : ∃ place places, r.places = place :: places ∧ bracket.HasPlace place

namespace Reader.Between

variable {outer : List PathStep} {l : Lexeme}

theorem of_opening {bracket : Bracket} {e : Event} (opening : nextEvent r = .ok (some e) r')
    (begins : e = match bracket with | .array => .beginArray | .object => .beginObject) :
    Between bracket r.settings r'.unitsLeft r.steps r' := by
  obtain ⟨unseen, same⟩ := (Consumes.single opening).behind
  have steps := Reader.steps_of_nextEvent opening
  obtain ⟨l, r₁, -, event, -, rfl⟩ := ReadM.nextEvent_eq_ok opening
  have places := Reader.places_behind r₁ l
  cases bracket with
  | array =>
      subst begins
      obtain rfl : l = .beginArray := Lexeme.event?_inj event
      exact ⟨unseen, same, Nat.le_refl _, ⟨_, steps, 0, rfl⟩, ⟨_, _, places, .inl rfl⟩⟩
  | object =>
      subst begins
      obtain rfl : l = .beginObject := Lexeme.event?_inj event
      exact ⟨unseen, same, Nat.le_refl _, ⟨_, steps, "<?>", rfl⟩, ⟨_, _, places, .inl rfl⟩⟩

theorem shows {bracket : Bracket} (h : Between bracket settings n outer r)
    (look : peekLexeme r = .ok l r') :
    ∃ place places, Place.Shows l (place :: places) r'.places ∧ bracket.HasPlace place := by
  obtain ⟨place, places, before, kind⟩ := h.places
  obtain ⟨_, next, rfl⟩ := ReadM.nextLexeme_of_peek h.unseen look
  have shows := (ReadM.shows_of_nextLexeme next).1
  rw [before] at shows
  exact ⟨place, places, shows, kind⟩

theorem item_or_end (h : Between .array settings n outer r) (look : peekLexeme r = .ok l r') :
    l.beginsValue = true ∨ l = .endArray := by
  obtain ⟨place, places, shows, rfl | rfl⟩ := h.shows look
  · exact shows.2
  · exact shows.2

theorem name_or_end (h : Between .object settings n outer r) (look : peekLexeme r = .ok l r') :
    l = .endObject ∨ ∃ s, l = .name s := by
  obtain ⟨place, places, shows, rfl | rfl⟩ := h.shows look
  · obtain ⟨last, -⟩ | ⟨s, name, -⟩ := shows
    · exact .inl last
    · exact .inr ⟨s, name⟩
  · obtain ⟨last, -⟩ | ⟨s, name, -⟩ := shows
    · exact .inl last
    · exact .inr ⟨s, name⟩

theorem after_item {t : Tree} (h : Between .array settings n outer r)
    (item : Consumes t.events r r') :
    Between .array settings n outer r' ∧ r'.unitsLeft < r.unitsLeft := by
  obtain ⟨unseen, same, few, ⟨step, steps, index, rfl⟩, place, places, before, kind⟩ := h
  obtain ⟨e, evs, head, -⟩ := t.events_head
  have units : Consumes (e :: evs) r r' := head ▸ item
  have less := units.unitsLeft_lt
  have after : r'.places = .nextItem :: places := by
    rw [Reader.places_of_tree unseen item, before]
    rcases kind with rfl | rfl
    · rfl
    · rfl
  have counted : r'.steps = .item (index + 1) :: outer := by
    rw [Reader.steps_of_tree item, steps]
    rfl
  refine ⟨⟨units.behind.1, units.behind.2.trans same, by omega, ⟨_, counted, _, rfl⟩, ?_⟩, less⟩
  exact ⟨_, _, after, .inr rfl⟩

theorem after_name {s : String} (h : Between .object settings n outer r)
    (name : nextEvent r = .ok (some (.name s)) r') :
    r'.steps = .member s :: outer ∧ ∃ places, r'.places = .memberValue :: places := by
  obtain ⟨step, steps, last, rfl⟩ := h.steps
  refine ⟨?_, ReadM.named_of_nextEvent h.unseen name⟩
  rw [Reader.steps_of_nextEvent name, steps]
  rfl

theorem after_member {m : String × Tree} (h : Between .object settings n outer r)
    (member : Consumes (Tree.ofMember m) r r') :
    Between .object settings n outer r' ∧ r'.unitsLeft < r.unitsLeft := by
  have less : r'.unitsLeft < r.unitsLeft := Consumes.unitsLeft_lt member
  obtain ⟨unseen', kept⟩ := Consumes.behind member
  have few := h.few
  cases member with
  | @cons _ _ _ r₁ _ name value =>
      obtain ⟨steps, places, before⟩ := h.after_name name
      have unseen := (Consumes.single name).behind.1
      have after : r'.places = .nextMember :: places := by
        rw [Reader.places_of_tree unseen value, before]
        rfl
      have named : r'.steps = .member m.1 :: outer := by
        rw [Reader.steps_of_tree value, steps]
        rfl
      refine ⟨⟨unseen', kept.trans h.same, by omega, ⟨_, named, _, rfl⟩, ?_⟩, less⟩
      exact ⟨_, _, after, .inr rfl⟩

theorem names_eq (h : Between .array settings n r.steps r') : r'.names = r.names := by
  obtain ⟨step, steps, index, rfl⟩ := h.steps
  exact Reader.names_of_item steps

end Reader.Between

namespace FillM

open BindM (Takes Traced)
open Reader (Between)

variable {Q : α → Prop} {e : BindError}

theorem traces_of_items (tracked : settings.trackPath = true) {item : BindM α}
    (takes : Takes settings n item Q) (traced : Traced settings n item) (enough : n < fuel)
    {vs : List α} {s : Reader × List α}
    (same : r.settings = settings) (few : r.unitsLeft ≤ n)
    (h : items fuel item (r, vs) = .error e s) : e.Traces r.names := by
  have tracking : r.settings.trackPath = true := by rw [same]; exact tracked
  obtain opening | ⟨_, ⟨r₁, vs₁⟩, opening, rest⟩ := bind_eq_error.mp h
  · exact BindM.traces_of_read ReadM.located_beginArray tracking (typed_eq_error opening)
  obtain ⟨begun, rfl⟩ := read_eq_ok opening
  have between : Between .array settings n r.steps r₁ := by
    have unit := ReadM.event_of_beginArray begun
    have fewer := (Consumes.single unit).unitsLeft_le
    have start : Between .array r.settings r₁.unitsLeft r.steps r₁ := .of_opening unit rfl
    rw [same] at start
    exact { start with few := by omega }
  have step (r₂ r₃ r₄ : Reader) (l : Lexeme) (vs vs' : List α)
      (h : Between .array settings n r.steps r₂) (look : peekLexeme r₂ = .ok l r₃)
      (element : push item (r₃, vs) = .ok () (r₄, vs')) :
      Between .array settings n r.steps r₄ ∧ r₄.unitsLeft < r₂.unitsLeft := by
    obtain ⟨v, ⟨r₅, vs₅⟩, run, pushed⟩ := bind_eq_ok.mp element
    cases pushed
    obtain ⟨read, rfl⟩ := typed_eq_ok run
    obtain ⟨⟨t, consumed⟩, -⟩ := takes.of_peeked h.same h.few look read
    exact h.after_item consumed
  have shallow : r₁.unitsLeft < fuel := Nat.lt_of_le_of_lt between.few enough
  have looped := looped_each (I := fun r₂ _ => Between .array settings n r.steps r₂) step
    (b := vs₁) between shallow
  obtain failing | ⟨_, ⟨r₂, vs₂⟩, complete, closing⟩ := bind_eq_error.mp rest
  · rw [failing] at looped
    cases looped with
    | unread quiet => exact BindError.traces_reading (.of_not quiet)
    | @failed r₂ r₃ l vs₂ _ _ h look _ element =>
        obtain run | ⟨_, _, -, ⟨⟩⟩ := bind_eq_error.mp element
        have traces := traced.of_peeked h.same h.few look (typed_eq_error run)
        rw [h.names_eq] at traces
        exact traces
  · -- the array ends where the loop does
    rw [complete] at looped
    cases looped with
    | @ended r₃ _ l _ h look last =>
        obtain value | rfl := h.item_or_end look
        · cases l <;> simp [Lexeme.ends, Lexeme.beginsValue] at last value
        · have again := ReadM.peekLexeme_of_some (ReadM.lookahead_of_peek look)
          have closed := ReadM.endArray_of_peek again
          obtain ⟨cause, -, run⟩ := BindM.read_eq_error (typed_eq_error closing)
          cases closed.symm.trans run

end FillM

namespace Schema

open BindM (Takes Traced)
open Reader (Between)

variable [DecidableEq κ] {catalog : Catalog κ} {s : Schema κ} {e : BindError}

theorem traces_of_fillMemberBy {own : Layer κ} {bases : List (String × Layer κ)}
    (declared : s = .declared own bases) {readField : FieldType κ → BindM (Value κ)}
    (traced : ∀ f ∈ s.fields, Traced settings n (readField f.type)) {d : Descriptor κ}
    {outer : List PathStep} {r₁ : Reader} {l : Lexeme} {fields : List (Value κ)}
    {state : Reader × List (Value κ)} (between : Between .object settings n outer r)
    (look : peekLexeme r = .ok l r₁) (more : l.ends = false)
    (h : s.fillMemberBy fuel readField d (r₁, fields) = .error e state) :
    e.Traces (PathStep.names outer.reverse) := by
  obtain rfl | ⟨name, rfl⟩ := between.name_or_end look
  · cases more
  have again := ReadM.peekLexeme_of_some (ReadM.lookahead_of_peek look)
  rw [fillMemberBy_eq] at h
  obtain failing | ⟨text, ⟨r₂, fields₂⟩, naming, rest⟩ := bind_eq_error.mp h
  · obtain ⟨cause, -, run⟩ := BindM.read_eq_error (FillM.typed_eq_error failing)
    cases (ReadM.nextName_of_peek again).symm.trans run
  obtain ⟨named, rfl⟩ := FillM.read_eq_ok naming
  obtain rfl : name = text := by
    cases (ReadM.nextName_of_peek again).symm.trans named
    rfl
  have unit := (ReadM.nextEvent_of_peeked look).trans (ReadM.event_of_nextName named)
  obtain ⟨steps, places, inside⟩ := between.after_name unit
  obtain ⟨unseen, kept⟩ := (Consumes.single unit).behind
  have fewer := (Consumes.single unit).unitsLeft_le
  have few := between.few
  cases target : s.slotOf d name with
  | none =>
      rw [target] at rest
      obtain ⟨cause, rfl, failed⟩ := BindM.read_eq_error (FillM.typed_eq_error rest)
      have split : r₂.places = [] ++ .memberValue :: places := inside
      have quiet := ReadM.not_isAboutValue_of_skipWithin unseen split (fun _ => ⟨places, rfl⟩)
        nofun failed
      exact BindError.traces_reading (.of_not quiet)
  | some slot =>
      rw [target] at rest
      obtain reading | ⟨_, _, -, ⟨⟩⟩ := bind_eq_error.mp rest
      obtain ⟨f, hf, type⟩ := exists_field_of_slotOf target
      obtain ⟨schema, context⟩ := context_of_slotOf declared target
      have run := FillM.typed_eq_error reading
      rw [context] at run
      obtain ⟨inner, rfl, failed⟩ := BindM.within_eq_error run
      have traces := traced f (List.mem_of_getElem? hf) _ inner _ (kept.trans between.same)
        (by omega) (by rw [type]; exact failed)
      rw [Reader.names_of_member steps] at traces
      exact traces.property

theorem traced_readBy (tracked : settings.trackPath = true) {own : Layer κ}
    {bases : List (String × Layer κ)} (declared : s = .declared own bases)
    {readField : FieldType κ → BindM (Value κ)}
    (takes : ∀ m < n, ∀ t, Takes settings m (readField t) (Assembled catalog settings.lenient t))
    (traced : ∀ m < n, ∀ f ∈ s.fields, Traced settings m (readField f.type))
    (enough : n < fuel) : Traced settings n (s.readBy fuel readField) := by
  intro r e r' same few h
  have tracking : r.settings.trackPath = true := by rw [same]; exact tracked
  obtain run | ⟨_, _, -, ⟨⟩⟩ := bind_eq_error.mp h
  obtain ⟨_, run⟩ := BindM.collecting_eq_error run
  obtain resolving | ⟨d, ⟨r₁, fields₁⟩, resolving, object⟩ := bind_eq_error.mp run
  · -- without a descriptor nothing is read
    have failed := FillM.typed_eq_error resolving
    unfold BindM.resolve at failed
    cases described : s.descriptor with
    | ok d =>
        rw [described] at failed
        cases failed
    | error fault =>
        rw [described] at failed
        cases failed
        intro cause root
        cases root
  obtain ⟨resolved, rfl⟩ := FillM.typed_eq_ok resolving
  obtain rfl := (BindM.state_of_resolve resolved).symm
  obtain opening | ⟨_, ⟨r₂, fields₂⟩, opening, rest⟩ := bind_eq_error.mp object
  · exact BindM.traces_of_read ReadM.located_beginObject tracking (FillM.typed_eq_error opening)
  obtain ⟨begun, rfl⟩ := FillM.read_eq_ok opening
  have unit := ReadM.event_of_beginObject begun
  have less := (Consumes.single unit).unitsLeft_lt
  have between : Between .object settings r₂.unitsLeft r.steps r₂ := by
    have start : Between .object r.settings r₂.unitsLeft r.steps r₂ := .of_opening unit rfl
    rw [same] at start
    exact start
  have step (r₃ r₄ r₅ : Reader) (l : Lexeme) (fields fields' : List (Value κ))
      (h : Between .object settings r₂.unitsLeft r.steps r₃ ∧
        Filled catalog settings.lenient s fields) (look : peekLexeme r₃ = .ok l r₄)
      (member : s.fillMemberBy fuel readField d (r₄, fields) = .ok () (r₅, fields')) :
      (Between .object settings r₂.unitsLeft r.steps r₅ ∧
        Filled catalog settings.lenient s fields') ∧ r₅.unitsLeft < r₃.unitsLeft := by
    obtain ⟨at_, filled⟩ := h
    obtain ⟨⟨m, consumed⟩, filled'⟩ := consumes_fillMemberBy (takes _ (by omega)) (by omega)
      at_.unseen at_.same at_.few look filled member
    obtain ⟨after, shorter⟩ := at_.after_member consumed
    exact ⟨⟨after, filled'⟩, shorter⟩
  have shallow : r₂.unitsLeft < fuel := by omega
  have looped := FillM.looped_each step ⟨between, .initial⟩ shallow
  obtain failing | ⟨_, ⟨r₃, fields₃⟩, complete, closing⟩ := bind_eq_error.mp rest
  · rw [failing] at looped
    cases looped with
    | unread quiet => exact BindError.traces_reading (.of_not quiet)
    | failed h look more member =>
        exact traces_of_fillMemberBy declared (traced _ (by omega)) h.1 look more member
  · -- the object ends where the loop does
    rw [complete] at looped
    cases looped with
    | ended h look last =>
        obtain rfl | ⟨name, rfl⟩ := h.1.name_or_end look
        · have again := ReadM.peekLexeme_of_some (ReadM.lookahead_of_peek look)
          have closed := ReadM.endObject_of_peek again
          obtain ⟨cause, -, run⟩ := BindM.read_eq_error (FillM.typed_eq_error closing)
          cases closed.symm.trans run
        · cases last

end Schema

namespace BindM

variable [DecidableEq κ] {catalog : Catalog κ} {t : FieldType κ} {e : BindError}

theorem traced_fieldBy (tracked : settings.trackPath = true)
    {readRecord : κ → BindM (Value κ)}
    (takes : ∀ k, Takes settings n (readRecord k) (Assembled catalog settings.lenient (.record k)))
    (enough : n < fuel) (t : FieldType κ)
    (traced : ∀ k, t.key? = some k → Traced settings n (readRecord k)) :
    Traced settings n (fieldBy fuel readRecord t) := by
  induction t with
  | scalar t =>
      intro r e r' same few h
      obtain run | ⟨_, _, -, ⟨⟩⟩ := bind_eq_error.mp h
      exact traces_of_read ReadM.located_nextScalar (by rw [same]; exact tracked) run
  | optional t ih =>
      intro r e r' same few h
      have tracking : r.settings.trackPath = true := by rw [same]; exact tracked
      obtain looking | ⟨token, r₁, looking, rest⟩ := bind_eq_error.mp h
      · exact traces_of_read ReadM.located_peek tracking looking
      obtain ⟨l, r₂, look, ⟨⟩⟩ := bind_eq_ok.mp (read_eq_ok looking)
      split at rest
      · obtain taking | ⟨_, _, -, ⟨⟩⟩ := bind_eq_error.mp rest
        obtain ⟨names, kept⟩ := Reader.keeps_of_peekLexeme look
        have tracking' := (congrArg ReaderSettings.trackPath kept).trans tracking
        have traces := traces_of_read ReadM.located_nextNull tracking' taking
        rw [names] at traces
        exact traces
      · obtain run | ⟨_, _, -, ⟨⟩⟩ := bind_eq_error.mp rest
        exact (ih traced).of_peeked same few look run
  | boxed t ih => exact ih traced
  | list t ih =>
      intro r e r' same few h
      obtain run | ⟨_, _, -, ⟨⟩⟩ := bind_eq_error.mp h
      obtain run | ⟨_, _, -, ⟨⟩⟩ := bind_eq_error.mp run
      obtain ⟨_, run⟩ := collecting_eq_error run
      exact FillM.traces_of_items tracked (takes_fieldBy takes t) (ih traced) enough same few run
  | record k => exact traced k rfl

theorem traced_recordWithin (tracked : settings.trackPath = true) {depth : Nat}
    (shallow : n < depth) (enough : n < fuel) (k : κ)
    (declared : ∀ l, (FieldType.record k).Uses catalog l →
      ∃ own bases, catalog l = .declared own bases) :
    Traced settings n (recordWithin catalog fuel depth k) := by
  induction depth generalizing n k with
  | zero => exact absurd shallow (Nat.not_lt_zero n)
  | succ depth ih =>
      obtain ⟨own, bases, own_eq⟩ := declared k (.own rfl)
      have takes (m : Nat) (less : m < n) (k : κ) :
          Takes settings m (recordWithin catalog fuel depth k)
            (Assembled catalog settings.lenient (.record k)) :=
        takes_recordWithin (by omega) (by omega) k
      have traced (m : Nat) (less : m < n) (f : Field κ) (hf : f ∈ (catalog k).fields) :
          Traced settings m (fieldBy fuel (recordWithin catalog fuel depth) f.type) := by
        apply traced_fieldBy tracked (takes m less) (by omega)
        intro l key
        apply ih (by omega) (by omega)
        intro l' uses
        exact declared l' (.of_field (uses.congr key.symm) hf)
      exact Schema.traced_readBy tracked own_eq
        (fun m less t => takes_fieldBy (takes m less) t) traced enough

/-- Typed reading by declared schemas fails, if it is about a value, where the properties lead. -/
theorem traces_of_field (tracked : r.settings.trackPath = true)
    (declared : ∀ k, t.Uses catalog k → ∃ own bases, catalog k = .declared own bases)
    (h : field catalog t r = .error e r') : e.Traces r.names := by
  have deep := Nat.lt_succ_self r.unitsLeft
  have takes (k : κ) : Takes r.settings r.unitsLeft
      (recordWithin catalog (r.unitsLeft + 1) (r.unitsLeft + 1) k)
      (Assembled catalog r.settings.lenient (.record k)) := takes_recordWithin deep deep k
  have traced (k : κ) (key : t.key? = some k) :
      Traced r.settings r.unitsLeft
        (recordWithin catalog (r.unitsLeft + 1) (r.unitsLeft + 1) k) := by
    apply traced_recordWithin tracked deep deep
    intro l uses
    exact declared l (uses.congr key.symm)
  exact traced_fieldBy tracked takes deep t traced r e r' rfl (Nat.le_refl _) h

theorem traces_of_document (tracked : r.settings.trackPath = true)
    (declared : ∀ k, t.Uses catalog k → ∃ own bases, catalog k = .declared own bases)
    (h : document catalog t r = .error e r') : e.Traces r.names := by
  obtain reading | ⟨v, r₁, reading, rest⟩ := bind_eq_error.mp h
  · exact traces_of_field tracked declared reading
  obtain finishing | ⟨_, _, -, ⟨⟩⟩ := bind_eq_error.mp rest
  obtain ⟨⟨tree, consumed⟩, -⟩ := field_eq_ok reading
  obtain ⟨names, kept⟩ := Reader.keeps_of_tree consumed
  have tracking := (congrArg ReaderSettings.trackPath kept).trans tracked
  have traces := traces_of_read ReadM.located_finish tracking finishing
  rw [names] at traces
  exact traces

end BindM

namespace Document

variable [DecidableEq κ] {catalog : Catalog κ} {t : FieldType κ} {e : BindError}

/-- The names joined by dots, if there are any. -/
def dotted : List String → Option String
  | [] => none
  | names => some (String.intercalate "." names)

/-- If a document is read by declared schemas and what goes wrong is about a value, the properties
that the error has collected are the member names on the path of its cause. -/
theorem contexts_agree {source : Source} {cause : ReadError}
    (declared : ∀ k, t.Uses catalog k → ∃ own bases, catalog k = .declared own bases)
    (tracked : settings.trackPath = true) (failed : parse catalog t source settings = .error e)
    (root : e.rootCause = .reading cause) (about : cause.IsAboutValue) :
    ∃ path, cause.location.path = some path ∧ e.propertyPath = dotted (PathStep.names path) := by
  have run : ∃ r', BindM.document catalog t (Reader.new source settings) = .error e r' := by
    unfold parse outcome at failed
    split at failed
    · cases failed
    · rename_i run
      cases failed
      exact ⟨_, run⟩
  obtain ⟨r', run⟩ := run
  have start : (Reader.new source settings).settings.trackPath = true := tracked
  obtain ⟨path, located, names⟩ := BindM.traces_of_document start declared run cause root about
  refine ⟨path, located, ?_⟩
  rw [names]
  rfl

/-- An array item with a member of the wrong kind. -/
theorem contexts_agree_userAccounts :
    ∃ e cause, parse Sample.catalog (.record .multiObject) (Source.ofBytes (Utf8.encode
        "\x7b\"userAccountsList\":[\x7b\"id\":1\x7d,\x7b\"id\":true\x7d]\x7d".toList)) = .error e ∧
      e.rootCause = .reading cause ∧ cause.IsAboutValue ∧
      e.propertyPath = some "userAccountsList.id" ∧
      ∃ path, cause.location.path = some path ∧ e.propertyPath = dotted (PathStep.names path) := by
  have declared (k : Sample.Key) (uses : (FieldType.record .multiObject).Uses Sample.catalog k) :
      ∃ own bases, Sample.catalog k = .declared own bases := by
    have among := uses.mem_of_closed [.multiObject, .userAccount] (by decide) (by decide)
    rcases List.mem_cons.mp among with rfl | last
    · exact ⟨_, _, rfl⟩
    · exact List.mem_singleton.mp last ▸ ⟨_, _, rfl⟩
  have answer : (match parse Sample.catalog (.record .multiObject) (Source.ofBytes (Utf8.encode
        "\x7b\"userAccountsList\":[\x7b\"id\":1\x7d,\x7b\"id\":true\x7d]\x7d".toList)) with
      | .ok _ => none
      | .error e => some e) =
      some (.property "MultiObject" "userAccountsList" (.property "UserAccount" "id"
        (.reading (.unexpected (.token .number) .boolean
          ⟨some [.member "userAccountsList", .item 1, .member "id"], some ⟨0, 40⟩, some 40⟩)))) := by
    decide +kernel
  split at answer
  · cases answer
  · rename_i failed
    obtain rfl := Option.some.inj answer
    exact ⟨_, _, failed, rfl, trivial, rfl, contexts_agree declared rfl failed rfl trivial⟩

end Document

end TypedJson
