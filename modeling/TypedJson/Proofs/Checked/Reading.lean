import TypedJson.Proofs.Checked.Reader
import TypedJson.Proofs.Reader.Skipping

/-!
# Reading with checks

How a reader with a stack of scopes represents a reader with containers, and that each checked
operation comes to what the other does. A failure in the middle of an operation leaves the scope
replaced, the bracket consumed or the bytes half read on both sides alike.
-/

set_option autoImplicit false
set_option relaxedAutoImplicit false

namespace TypedJson

open Operation
open CheckedM (demand)
open Grammar (Place)
open Window (Shows)

def Container.scope : Container → Scope
  | .array false _ => .emptyArray
  | .array true _ => .nonEmptyArray
  | .object .empty _ => .emptyObject
  | .object .named _ => .danglingName
  | .object .nonEmpty _ => .nonEmptyObject

namespace Reader

def documentScope (r : Reader) : Scope :=
  if r.documentStarted then .nonEmptyDocument else .emptyDocument

def Closes : Lexeme → List Container → Prop
  | .endObject, cs => ∃ phase member rest, cs = .object phase member :: rest
  | .endArray, cs => ∃ started index rest, cs = .array started index :: rest
  | _, _ => True

variable {r : Reader} {l : Lexeme}

theorem containers_of_places {place : Place} {places : List Place}
    (h : r.places = place :: places) :
    ∃ c cs, r.containers = c :: cs ∧ c.place = place := by
  obtain ⟨c, cs, containers, same, -⟩ := List.map_eq_cons_iff.mp h
  exact ⟨c, cs, containers, same⟩

theorem closes_of_shows {places : List Place} (shows : Place.Shows l places r.places) :
    Closes l r.containers := by
  have inObject {place : Place} (h : r.places = place :: places.tail)
      (inside : place = .firstMember ∨ place = .nextMember) :
      ∃ phase member rest, r.containers = .object phase member :: rest := by
    obtain ⟨c, cs, containers, rfl⟩ := containers_of_places h
    cases c with
    | array started index => cases started <;> simp [Container.place] at inside
    | object phase member => exact ⟨phase, member, cs, containers⟩
  have inArray (h : r.places = .nextItem :: places.tail) :
      ∃ started index rest, r.containers = .array started index :: rest := by
    obtain ⟨c, cs, containers, place⟩ := containers_of_places h
    cases c with
    | array started index => exact ⟨started, index, cs, containers⟩
    | object phase member => cases phase <;> cases place
  cases l with
  | endObject =>
      cases places with
      | nil => obtain ⟨-, value | last⟩ := shows <;> contradiction
      | cons place places =>
          cases place with
          | firstItem | nextItem => obtain ⟨-, value | last⟩ := shows <;> contradiction
          | memberValue => cases shows.2
          | firstMember =>
              obtain ⟨-, after⟩ | ⟨_, name, -⟩ := shows
              · exact inObject after (.inl rfl)
              · cases name
          | nextMember =>
              obtain ⟨-, after⟩ | ⟨_, name, -⟩ := shows
              · exact inObject after (.inr rfl)
              · cases name
  | endArray =>
      cases places with
      | nil => obtain ⟨-, value | last⟩ := shows <;> contradiction
      | cons place places =>
          cases place with
          | firstItem | nextItem => exact inArray shows.1
          | memberValue => cases shows.2
          | firstMember | nextMember => obtain ⟨last, -⟩ | ⟨_, name, -⟩ := shows <;> contradiction
  | _ => exact trivial

theorem ensures_closes : Ensures (fun _ => True) ReadM.nextLexeme
    fun l r => Closes l r.containers :=
  fun _ _ _ _ h => closes_of_shows (ReadM.shows_of_nextLexeme h).1

end Reader

/-- What a reader begins with: its settings, whose nesting limit is one that can be given, and the
number of bytes in front of it. -/
structure Origin where
  settings : ReaderSettings
  limit : settings.maxNestingDepth ≤ CheckedReadM.maxDepth
  bytes : Nat

/-- A reader with a stack of scopes stands for one with containers: the same data, the same unit
looked at, one scope and one piece of the path for each container, and the scope of the document
below. Bytes consumed and bytes ahead make a fixed total, and only leniency is switched. -/
structure Represents (o : Origin) (m : StackReader) (r : Reader) : Prop where
  window : m.window.Shows o.bytes r.cursor.ahead r.cursor
  peeked : m.peeked = r.lookahead
  scopes : m.scopes = r.containers.map Container.scope ++ [r.documentScope]
  trail : m.trail = if r.settings.trackPath then some (r.containers.map Container.step) else none
  settings : m.settings = r.settings
  kept : r.settings = { o.settings with lenient := r.settings.lenient }
  room : r.room + r.containers.length = r.settings.maxNestingDepth
  closes : ∀ l, r.lookahead = some l → Reader.Closes l r.containers

/-- The units consumed and those that can still be consumed do not exceed a budget. -/
structure Counted (o : Origin) (budget : Nat) (m : StackReader) (r : Reader) : Prop where
  represents : Represents o m r
  paid : m.taken + r.unitsLeft ≤ budget

/-- No unit has been looked at, so many have been consumed, and at most so many bytes are ahead. -/
structure Unseen (o : Origin) (taken most : Nat) (m : StackReader) (r : Reader) : Prop where
  represents : Represents o m r
  unseen : r.lookahead = none
  taken : m.taken = taken
  ahead : r.cursor.ahead ≤ most

variable {o : Origin} {taken most : Nat} {m : StackReader} {r : Reader}

theorem Represents.depth (h : Represents o m r) :
    r.containers.length ≤ o.settings.maxNestingDepth := by
  have limit : r.settings.maxNestingDepth = o.settings.maxNestingDepth := by rw [h.kept]
  rw [← limit, ← h.room]
  exact Nat.le_add_left _ _

theorem Represents.location (h : Represents o m r) : m.location = r.location := by
  have path : m.trail.map List.reverse = r.path? := by
    rw [h.trail, Reader.path?]
    split
    · rw [Option.map_some, List.map_reverse]
    · rfl
  rw [StackReader.location, Reader.location, path, h.window.mark]

theorem Represents.path (h : Represents o m r) : m.path = r.path := by
  have same : m.location.path = r.location.path := congrArg Location.path h.location
  rw [StackReader.path, Reader.path]
  exact congrArg (fun path : Option (List PathStep) => pathText (path.getD [])) same

namespace Unseen

theorem window (h : Unseen o taken most m r) : m.window.Shows o.bytes most r.cursor :=
  h.represents.window.mono h.ahead

theorem lexed {w : Window} {c : Cursor} (h : Unseen o taken most m r)
    (shows : w.Shows o.bytes most c) :
    Unseen o taken most { m with window := w } { r with cursor := c } where
  represents := { h.represents with window := shows.tight }
  unseen := h.unseen
  taken := h.taken
  ahead := shows.ahead

theorem replaced {old : Container} (new : Container) {rest : List Container}
    (h : Unseen o taken most m r) (innermost : r.containers = old :: rest)
    (step : new.step = old.step) :
    Unseen o taken most (m.replaceTop new.scope) (r.setContainer new) := by
  have scopes := h.represents.scopes
  rw [innermost, List.map_cons, List.cons_append] at scopes
  have top : m.replaceTop new.scope =
      { m with scopes := new.scope :: (rest.map Container.scope ++ [r.documentScope]) } := by
    rw [StackReader.replaceTop, scopes]
  have below : r.containers.tail = rest := by rw [innermost, List.tail_cons]
  rw [top, Reader.setContainer, below]
  refine ⟨{ h.represents with scopes := rfl, trail := ?_, room := ?_, closes := ?_ },
    h.unseen, h.taken, h.ahead⟩
  · have trail := h.represents.trail
    rw [innermost, List.map_cons] at trail
    rw [List.map_cons, step]
    exact trail
  · have room := h.represents.room
    rw [innermost] at room
    exact room
  · intro l seen
    cases h.unseen.symm.trans seen

theorem started (h : Unseen o taken most m r) (outside : r.containers = []) :
    Unseen o taken most (m.replaceTop .nonEmptyDocument) { r with documentStarted := true } := by
  have scopes := h.represents.scopes
  rw [outside, List.map_nil, List.nil_append] at scopes
  have top : m.replaceTop .nonEmptyDocument = { m with scopes := [.nonEmptyDocument] } := by
    rw [StackReader.replaceTop, scopes]
  rw [top]
  refine ⟨{ h.represents with scopes := ?_ }, h.unseen, h.taken, h.ahead⟩
  change _ = r.containers.map Container.scope ++ [_]
  rw [outside]
  rfl

end Unseen

namespace CheckedReadM

variable {α β : Type}

theorem realizes_lex {x : CheckedLexM α} {y : LexM α} {P : Cursor → Prop} {Q : α → Cursor → Prop}
    (hx : Realizes (fun w c => Shows o.bytes most w c ∧ P c) x y
      (fun a w c => Shows o.bytes most w c ∧ Q a c) (Shows o.bytes most)) :
    Realizes (fun m r => Unseen o taken most m r ∧ P r.cursor) (lex x) (ReadM.lex y)
      (fun a m r => Unseen o taken most m r ∧ Q a r.cursor) (Unseen o taken most) := by
  rintro m r ⟨h, hP⟩
  have run := hx m.window r.cursor ⟨h.window, hP⟩
  unfold lex CheckedM.onPart ReadM.lex
  generalize x m.window = outcome at run ⊢
  generalize y r.cursor = result at run ⊢
  cases run with
  | ok run => exact .ok ⟨h.lexed run.1, run.2⟩
  | @error fault w c run =>
      have same := (h.lexed run).represents.location
      simp only [Option.map_some, same]
      exact .error (h.lexed run)

theorem realizes_lex_from {x : CheckedLexM α} {y : LexM α} {Q : α → Cursor → Prop}
    (hx : Realizes (Shows o.bytes most) x y (fun a w c => Shows o.bytes most w c ∧ Q a c)
      (Shows o.bytes most)) :
    Realizes (Unseen o taken most) (lex x) (ReadM.lex y)
      (fun a m r => Unseen o taken most m r ∧ Q a r.cursor) (Unseen o taken most) :=
  (realizes_lex (P := fun _ => True) (hx.starting fun _ _ h => h.1)).starting fun _ _ h =>
    ⟨h, trivial⟩

theorem follows_lex {x : CheckedLexM α} {y : LexM α}
    (hx : CheckedLexM.Follows o.bytes most (Shows o.bytes most) x y) :
    Realizes (Unseen o taken most) (lex x) (ReadM.lex y) (fun _ => Unseen o taken most)
      (Unseen o taken most) :=
  (realizes_lex_from (Q := fun _ _ => True)
    (Realizes.answering hx fun _ _ _ h => ⟨h, trivial⟩)).answering fun _ _ _ h => h.1

section

variable (lenient first : Bool)

theorem realizes_firstItem :
    Realizes (Unseen o taken most) (firstItem lenient) (ReadM.firstItem lenient)
      (fun _ => Unseen o taken most) (Unseen o taken most) := by
  refine follows_lex ((CheckedLexM.realizes_skipBlankToByte lenient).bind fun b => ?_)
  split
  · exact Window.realizes_advance.bind fun _ => CheckedLexM.follows_pure _
  · exact CheckedLexM.follows_value lenient b

theorem realizes_nextItem :
    Realizes (Unseen o taken most) (nextItem lenient) (ReadM.nextItem lenient)
      (fun _ => Unseen o taken most) (Unseen o taken most) := by
  refine follows_lex ((CheckedLexM.realizes_skipBlankToByte lenient).bind fun b => ?_)
  split
  · exact Window.realizes_advance.bind fun _ => CheckedLexM.follows_pure _
  · split
    · refine Window.realizes_advance.bind fun _ =>
        (CheckedLexM.realizes_skipBlankToByte lenient).bind fun b => ?_
      split
      · split
        · exact Window.realizes_advance.bind fun _ => CheckedLexM.follows_pure _
        · exact CheckedLexM.follows_refuse (fun _ _ h => h.1) _
      · exact CheckedLexM.follows_value lenient b
    · exact CheckedLexM.follows_refuse (fun _ _ h => h.1) _

theorem realizes_memberValue :
    Realizes (Unseen o taken most) (memberValue lenient) (ReadM.memberValue lenient)
      (fun _ => Unseen o taken most) (Unseen o taken most) := by
  refine follows_lex ((CheckedLexM.realizes_skipBlankToByte lenient).bind fun b => ?_)
  split
  · exact Window.realizes_advance.bind fun _ =>
      (CheckedLexM.realizes_skipBlankToByte lenient).bind fun b =>
        CheckedLexM.follows_value lenient b
  · exact CheckedLexM.follows_refuse (fun _ _ h => h.1) _

theorem realizes_topValue :
    Realizes (Unseen o taken most) (topValue lenient) (ReadM.topValue lenient)
      (fun _ => Unseen o taken most) (Unseen o taken most) :=
  follows_lex ((CheckedLexM.realizes_skipBlankToByte lenient).bind fun b =>
    CheckedLexM.follows_value lenient b)

theorem realizes_afterTopValue :
    Realizes (Unseen o taken most) (afterTopValue lenient) (ReadM.afterTopValue lenient)
      (fun _ => Unseen o taken most) (Unseen o taken most) := by
  refine follows_lex ((CheckedLexM.realizes_skipBlank lenient).bind fun a => ?_)
  cases a with
  | none => exact Realizes.pure fun _ _ h => h.1
  | some b =>
      dsimp only
      split
      · exact Realizes.starting (CheckedLexM.follows_value lenient b) fun _ _ h => ⟨h.1, h.2 b rfl⟩
      · exact CheckedLexM.follows_refuse (fun _ _ h => h.1) _

theorem realizes_findMember :
    Realizes (Unseen o taken most) (findMember lenient first)
      (ReadM.findMember lenient first)
      (fun a m r => Unseen o taken most m r ∧ ∀ b, a = some b → r.cursor.unread.head? = some b)
      (Unseen o taken most) := by
  have closing (b : UInt8) : Realizes (CheckedLexM.Faces o.bytes most b)
      (do Window.advance b; pure none : CheckedLexM (Option UInt8))
      (do LexM.advance; pure none)
      (fun a w c => Shows o.bytes most w c ∧ ∀ b, a = some b → c.unread.head? = some b)
      (Shows o.bytes most) :=
    Window.realizes_advance.bind fun _ => Realizes.pure fun _ _ h => ⟨h, nofun⟩
  have found (b : UInt8) : Realizes (CheckedLexM.Faces o.bytes most b)
      (pure (some b) : CheckedLexM (Option UInt8)) (pure (some b))
      (fun a w c => Shows o.bytes most w c ∧ ∀ b, a = some b → c.unread.head? = some b)
      (Shows o.bytes most) :=
    Realizes.pure fun _ _ h => ⟨h.1, fun _ same => Option.some_inj.mp same ▸ h.2⟩
  refine realizes_lex_from (Q := fun a c => ∀ b, a = some b → c.unread.head? = some b)
    ((CheckedLexM.realizes_skipBlankToByte lenient).bind fun b => ?_)
  split
  · exact closing b
  · split
    · exact found b
    · split
      · refine Window.realizes_advance.bind fun _ =>
          (CheckedLexM.realizes_skipBlankToByte lenient).bind fun b => ?_
        split
        · split
          · exact closing b
          · exact CheckedLexM.follows_refuse (fun _ _ h => h.1) _
        · exact found b
      · exact CheckedLexM.follows_refuse (fun _ _ h => h.1) _

theorem ensures_containers {x : LexM α} {cs : List Container} :
    Ensures (fun r => r.containers = cs) (ReadM.lex x) fun _ r => r.containers = cs := by
  intro r a r' hr h
  obtain ⟨c, rfl, -⟩ := ReadM.lex_eq_ok h
  exact hr

theorem realizes_member {old : Option String} {phase : ObjectPhase} {rest : List Container} :
    Realizes (fun m r => Unseen o taken most m r ∧ r.containers = .object phase old :: rest)
      (member lenient first) (ReadM.member lenient first old) (fun _ => Unseen o taken most)
      (Unseen o taken most) := by
  have search : Realizes
      (fun m r => Unseen o taken most m r ∧ r.containers = .object phase old :: rest)
      (findMember lenient first) (ReadM.findMember lenient first)
      (fun a m r => (Unseen o taken most m r ∧ ∀ b, a = some b → r.cursor.unread.head? = some b) ∧
        r.containers = .object phase old :: rest) (Unseen o taken most) :=
    ((realizes_findMember lenient first).starting fun _ _ h => h.1).ensuring ensures_containers
      fun _ _ h => h.2
  refine search.bind fun a => ?_
  cases a with
  | none => exact Realizes.pure fun _ _ h => h.1.1
  | some b =>
      refine Realizes.bind
        (Q := fun _ m r => Unseen o taken most m r ∧ r.cursor.unread.head? = some b)
        (Realizes.modify fun m r h =>
          ⟨h.1.1.replaced (.object .named old) h.2 rfl, h.1.2 b rfl⟩) fun _ => ?_
      refine (realizes_lex (P := fun c => c.unread.head? = some b) (Q := fun _ _ => True)
        ?_).answering fun _ _ _ h => h.1
      exact Realizes.answering (CheckedLexM.follows_name lenient b) fun _ _ _ h => ⟨h, trivial⟩

end

theorem topScope_eq {s : Scope} {rest : List Scope} (h : m.scopes = s :: rest) :
    topScope m = some (.ok s, m) := by
  unfold topScope
  rw [CheckedM.get_bind, h]
  rfl

/-- Lexing the next unit finds a scope, keeps the scopes in step with the containers, and consumes a
byte, unless the document has come to its end. -/
theorem realizes_nextLexeme :
    Realizes (Unseen o taken most) nextLexeme ReadM.nextLexeme
      (fun l m r => Unseen o taken most m r ∧ Reader.Closes l r.containers ∧
        (l ≠ .endDocument → r.cursor.ahead < most)) (Unseen o taken most) := by
  have run : Realizes (Unseen o taken most) nextLexeme ReadM.nextLexeme
      (fun _ => Unseen o taken most) (Unseen o taken most) := by
    intro m r h
    have scopes := h.represents.scopes
    have lenient : m.settings.lenient = r.settings.lenient := by rw [h.represents.settings]
    unfold nextLexeme
    rw [CheckedM.get_bind, lenient]
    cases containers : r.containers with
    | nil =>
        rw [containers, List.map_nil, List.nil_append] at scopes
        rw [CheckedM.bind_of_ok (topScope_eq scopes), Reader.documentScope]
        cases started : r.documentStarted with
        | false =>
            rw [ReadM.nextLexeme_topValue containers started]
            exact realizes_topValue _ _ _ (h.started containers)
        | true =>
            rw [ReadM.nextLexeme_afterTopValue containers started]
            exact realizes_afterTopValue _ _ _ h
    | cons c rest =>
        rw [containers, List.map_cons, List.cons_append] at scopes
        rw [CheckedM.bind_of_ok (topScope_eq scopes)]
        cases c with
        | array begun index =>
            cases begun with
            | false =>
                rw [ReadM.nextLexeme_firstItem containers]
                exact realizes_firstItem _ _ _
                  (h.replaced (.array true index) containers rfl)
            | true =>
                rw [ReadM.nextLexeme_nextItem containers]
                exact realizes_nextItem _ _ _ h
        | object phase old =>
            cases phase with
            | named =>
                rw [ReadM.nextLexeme_memberValue containers]
                exact realizes_memberValue _ _ _
                  (h.replaced (.object .nonEmpty old) containers rfl)
            | empty =>
                rw [ReadM.nextLexeme_member (by decide) containers]
                exact realizes_member _ _ _ _ ⟨h, containers⟩
            | nonEmpty =>
                rw [ReadM.nextLexeme_member (by decide) containers]
                exact realizes_member _ _ _ _ ⟨h, containers⟩
  refine ((run.ensuring Reader.ensures_closes fun _ _ _ => trivial).ensuring
    (ReadM.ensures_nextLexeme most) fun _ _ h => h.ahead).answering ?_
  exact fun _ _ _ h => ⟨h.1.1, h.1.2, h.2.2⟩

end CheckedReadM

/-! What the operations do with a unit that has been looked at. -/

namespace Represents

variable {l : Lexeme}

theorem seen (h : Represents o m r) (closes : Reader.Closes l r.containers) :
    Represents o { m with peeked := some l } { r with lookahead := some l } :=
  { h with peeked := rfl, closes := fun _ same => Option.some_inj.mp same ▸ closes }

theorem consumed (h : Represents o m r) : Represents o m.consume { r with lookahead := none } :=
  { h with peeked := rfl, closes := nofun }

theorem changed {old new : Container} {rest : List Container} {f : PathStep → PathStep}
    (h : Represents o m r) (unseen : r.lookahead = none)
    (innermost : r.containers = old :: rest) (scope : new.scope = old.scope)
    (step : new.step = f old.step) :
    Represents o (m.changePiece f) { r with containers := new :: rest } := by
  refine { h with scopes := ?_, trail := ?_, room := ?_, closes := ?_ }
  · have scopes := h.scopes
    rw [innermost] at scopes
    rw [List.map_cons, scope]
    exact scopes
  · have trail := h.trail
    rw [innermost] at trail
    rw [StackReader.changePiece, trail]
    split
    · rw [Option.map_some, List.map_cons, List.map_cons, StackReader.changeFirst, step]
    · rfl
  · have room := h.room
    rw [innermost] at room
    exact room
  · exact fun l seen => by cases unseen.symm.trans seen

theorem unchanged {f : PathStep → PathStep} (h : Represents o m r)
    (keeps : ∀ c rest, r.containers = c :: rest → f c.step = c.step) : m.changePiece f = m := by
  have trail : m.trail.map (StackReader.changeFirst f) = m.trail := by
    rw [h.trail]
    split
    · cases containers : r.containers with
      | nil => rfl
      | cons c rest =>
          rw [List.map_cons, Option.map_some, StackReader.changeFirst, keeps c rest containers]
    · rfl
  rw [StackReader.changePiece, trail]

theorem endValue (h : Represents o m r) (unseen : r.lookahead = none) :
    Represents o m.endValue r.endValue := by
  cases containers : r.containers with
  | nil =>
      have same : r.endValue = r := by rw [Reader.endValue, containers]
      rw [same, StackReader.endValue, h.unchanged fun c rest nonempty => by
        cases containers.symm.trans nonempty]
      exact h
  | cons c rest =>
      cases c with
      | array started index =>
          have next : r.endValue =
              { r with containers := .array started (index + 1) :: rest } := by
            rw [Reader.endValue, containers]
          rw [next]
          exact h.changed unseen containers (by cases started <;> rfl) rfl
      | object phase name =>
          have same : r.endValue = r := by rw [Reader.endValue, containers]
          rw [same, StackReader.endValue, h.unchanged fun c rest nonempty => by
            cases containers.symm.trans nonempty
            rfl]
          exact h

theorem nameMember (h : Represents o m r) (unseen : r.lookahead = none) (name : String) :
    Represents o (m.nameMember name) (r.nameMember name) := by
  cases containers : r.containers with
  | nil =>
      have same : r.nameMember name = r := by rw [Reader.nameMember, containers]
      rw [same, StackReader.nameMember, h.unchanged fun c rest nonempty => by
        cases containers.symm.trans nonempty]
      exact h
  | cons c rest =>
      cases c with
      | array started index =>
          have same : r.nameMember name = r := by rw [Reader.nameMember, containers]
          rw [same, StackReader.nameMember, h.unchanged fun c rest nonempty => by
            cases containers.symm.trans nonempty
            rfl]
          exact h
      | object phase old =>
          have next : r.nameMember name =
              { r with containers := .object phase (some name) :: rest } := by
            rw [Reader.nameMember, containers]
          rw [next]
          exact h.changed unseen containers (by cases phase <;> rfl) rfl

theorem entered {room : Nat} {c : Container} (h : Represents o m r)
    (unseen : r.lookahead = none) (more : r.room = room + 1) :
    Represents o
      { m with scopes := c.scope :: m.scopes, trail := m.trail.map (c.step :: ·) }
      { r with containers := c :: r.containers, room } := by
  refine { h with scopes := ?_, trail := ?_, room := ?_, closes := ?_ }
  · rw [h.scopes]
    rfl
  · rw [h.trail]
    split <;> rfl
  · have room := h.room
    rw [List.length_cons]
    dsimp only
    omega
  · exact fun l seen => by cases unseen.symm.trans seen

theorem left (h : Represents o m r) (unseen : r.lookahead = none) (inside : r.containers ≠ []) :
    Represents o m.endScope r.endContainer := by
  obtain ⟨c, rest, containers⟩ := List.exists_cons_of_ne_nil inside
  refine endValue ?_ unseen
  refine { h with scopes := ?_, trail := ?_, room := ?_, closes := ?_ }
  · rw [h.scopes, containers]
    rfl
  · rw [h.trail, containers]
    split <;> rfl
  · have room := h.room
    rw [containers, List.length_cons] at room
    rw [containers, List.tail_cons]
    change r.room + 1 + rest.length = r.settings.maxNestingDepth
    omega
  · exact fun l seen => by cases unseen.symm.trans seen

end Represents

namespace Counted

variable {budget : Nat} {l : Lexeme}

/-- Consuming a unit is paid for by the unit that can no longer be consumed. -/
theorem consumed (h : Counted o budget m r) (seen : r.lookahead = some l)
    (more : l ≠ .endDocument) : Counted o budget m.consume { r with lookahead := none } where
  represents := h.represents.consumed
  paid := by
    have paid := h.paid
    rw [ReadM.unitsLeft_of_some seen more] at paid
    change m.taken + 1 + (r.cursor.ahead + 0) ≤ budget
    omega

theorem closes (h : Counted o budget m r) (seen : r.lookahead = some l) :
    Reader.Closes l r.containers :=
  h.represents.closes l seen

end Counted

namespace CheckedReadM

variable {budget : Nat} {α β : Type} {P : StackReader → Reader → Prop}
variable {Q : α → StackReader → Reader → Prop}

/-- From readers of which one stands for the other, the checked operation comes to what the other
does, and leaves such readers. -/
def Follows (o : Origin) (budget : Nat) (x : CheckedReadM α) (y : ReadM α) : Prop :=
  Realizes (Counted o budget) x y (fun _ => Counted o budget) (Counted o budget)

theorem follows_pure (a : α) : Follows o budget (pure a) (pure a) :=
  Realizes.pure fun _ _ h => h

theorem realizes_fail (h : ∀ m r, P m r → Counted o budget m r)
    (error : Location → ReadError) :
    Realizes P (fail error : CheckedReadM α) (ReadM.fail error) Q (Counted o budget) := by
  intro m r hP
  have counted := h m r hP
  unfold fail ReadM.fail
  rw [CheckedM.get_bind, get_bind, counted.represents.location]
  exact .error counted

theorem realizes_peekLexeme :
    Realizes (Counted o budget) peekLexeme ReadM.peekLexeme
      (fun l m r => Counted o budget m r ∧ r.lookahead = some l) (Counted o budget) := by
  intro m r h
  have same := h.represents.peeked
  cases seen : r.lookahead with
  | some l =>
      have looked : peekLexeme m = some (.ok l, m) := by
        unfold peekLexeme
        rw [CheckedM.get_bind, same, seen]
        rfl
      rw [looked, ReadM.peekLexeme_of_some seen]
      exact .ok ⟨h, seen⟩
  | none =>
      have looked : peekLexeme m = (do
          let l ← nextLexeme
          modify fun m => { m with peeked := some l }
          pure l : CheckedReadM Lexeme) m := by
        unfold peekLexeme
        rw [CheckedM.get_bind, same, seen]
      rw [looked, ReadM.peekLexeme_of_none seen]
      have paid := h.paid
      rw [Reader.unitsLeft, seen, Nat.add_zero] at paid
      have unseen : Unseen o m.taken r.cursor.ahead m r :=
        ⟨h.represents, seen, rfl, Nat.le_refl _⟩
      refine Realizes.bind (P := Unseen o m.taken r.cursor.ahead)
        (realizes_nextLexeme.weaken (fun _ _ h => h) (fun _ _ _ h => h) ?_) (fun l => ?_) m r unseen
      · refine fun m' r' h' => ⟨h'.represents, ?_⟩
        have ahead := h'.ahead
        rw [Reader.unitsLeft, h'.unseen, h'.taken]
        dsimp only
        omega
      · rintro m' r' ⟨h', closes, consumed⟩
        refine .ok ⟨⟨h'.represents.seen closes, ?_⟩, rfl⟩
        have ahead := h'.ahead
        change m'.taken + _ ≤ budget
        rw [h'.taken]
        by_cases last : l = .endDocument
        · subst last
          change m.taken + (r'.cursor.ahead + 0) ≤ budget
          omega
        · have less := consumed last
          rw [ReadM.unitsLeft_of_some rfl last]
          dsimp only
          omega

theorem follows_peek : Follows o budget peek ReadM.peek :=
  realizes_peekLexeme.bind fun _ => Realizes.pure fun _ _ h => h.1

theorem follows_hasNext : Follows o budget hasNext ReadM.hasNext := by
  refine realizes_peekLexeme.bind fun l => ?_
  have answer (b : Bool) : Realizes
      (fun m r => Counted o budget m r ∧ r.lookahead = some l)
      (pure b : CheckedReadM Bool) (pure b) (fun _ => Counted o budget)
      (Counted o budget) := Realizes.pure fun _ _ h => h.1
  cases l <;> exact answer _

theorem realizes_expect (expected : Expectation) (select : Lexeme → Option α) :
    Realizes (Counted o budget) (expect expected select) (ReadM.expect expected select)
      (fun a m r => Counted o budget m r ∧ ∃ l, r.lookahead = some l ∧ select l = some a)
      (Counted o budget) := by
  refine realizes_peekLexeme.bind fun l => ?_
  cases selected : select l with
  | some a =>
      exact Realizes.pure fun _ _ h => ⟨h.1, l, h.2, selected⟩
  | none => exact realizes_fail (fun _ _ h => h.1) _

theorem realizes_take {l : Lexeme} (more : l ≠ .endDocument) :
    Realizes (Counted o budget) (take l) (ReadM.take l)
      (fun _ m r => Counted o budget m r ∧ r.lookahead = none ∧ Reader.Closes l r.containers)
      (Counted o budget) := by
  refine (realizes_expect _ _).bind fun _ => Realizes.modify ?_
  rintro m r ⟨h, l', seen, selected⟩
  obtain rfl : l' = l := by
    by_cases same : l' = l
    · exact same
    · rw [if_neg same] at selected
      cases selected
  exact ⟨h.consumed seen more, rfl, h.closes seen⟩

/-- The scopes above that of the document are as many as the containers, so that there is room for
one more on both sides or on neither. -/
theorem realizes_enter (c : Container) :
    Realizes (fun m r => Counted o budget m r ∧ r.lookahead = none)
      (do pushScope c.scope; pushPiece c.step) (ReadM.enter c)
      (fun _ => Counted o budget) (Counted o budget) := by
  rintro m r ⟨h, unseen⟩
  have length : m.scopes.length = r.containers.length + 1 := by
    rw [h.represents.scopes, List.length_append, List.length_map, List.length_singleton]
  have depth := h.represents.room
  have settings := h.represents.settings
  cases room : r.room with
  | zero =>
      have full : m.settings.maxNestingDepth < m.scopes.length := by
        rw [settings, length]
        omega
      have pushed : pushScope c.scope m = some (.error (.error
          (.malformed .maxNestingDepthExceeded m.location)), m) := by
        unfold pushScope
        rw [CheckedM.get_bind, if_pos full]
        rfl
      rw [CheckedM.bind_of_stop pushed, ReadM.enter_of_zero room, h.represents.location]
      exact .error h
  | succ n =>
      have few : ¬ m.settings.maxNestingDepth < m.scopes.length := by
        rw [settings, length]
        omega
      have pushed :
          pushScope c.scope m = some (.ok (), { m with scopes := c.scope :: m.scopes }) := by
        unfold pushScope
        rw [CheckedM.get_bind, if_neg few]
        rfl
      rw [CheckedM.bind_of_ok pushed, ReadM.enter_of_succ room]
      exact .ok ⟨h.represents.entered unseen room, h.paid⟩

theorem follows_beginObject : Follows o budget beginObject ReadM.beginObject :=
  (realizes_take (l := .beginObject) nofun).bind fun _ =>
    (realizes_enter (.object .empty none)).starting fun _ _ h => ⟨h.1, h.2.1⟩

theorem follows_beginArray : Follows o budget beginArray ReadM.beginArray :=
  (realizes_take (l := .beginArray) nofun).bind fun _ =>
    (realizes_enter (.array false 0)).starting fun _ _ h => ⟨h.1, h.2.1⟩

/-- A closing bracket that is consumed ends a container, so that there is a scope to leave. -/
theorem follows_end {l : Lexeme} (bracket : l = .endObject ∨ l = .endArray) :
    Follows o budget (do take l; modify StackReader.endScope)
      (do ReadM.take l; modify Reader.endContainer) := by
  have more : l ≠ .endDocument := by rcases bracket with rfl | rfl <;> nofun
  refine (realizes_take more).bind fun _ => Realizes.modify ?_
  rintro m r ⟨h, unseen, closes⟩
  have inside : r.containers ≠ [] := by
    rcases bracket with rfl | rfl
    · obtain ⟨_, _, _, containers⟩ := closes
      exact containers ▸ List.cons_ne_nil _ _
    · obtain ⟨_, _, _, containers⟩ := closes
      exact containers ▸ List.cons_ne_nil _ _
  refine ⟨h.represents.left unseen inside, ?_⟩
  rw [ReadM.endContainer_unitsLeft]
  exact h.paid

theorem follows_endObject : Follows o budget endObject ReadM.endObject :=
  follows_end (.inl rfl)

theorem follows_endArray : Follows o budget endArray ReadM.endArray :=
  follows_end (.inr rfl)

theorem follows_nextName : Follows o budget nextName ReadM.nextName := by
  refine (realizes_expect _ _).bind fun name => Realizes.bind
    (Q := fun _ => Counted o budget) (Realizes.modify ?_) fun _ => follows_pure name
  rintro m r ⟨h, l, seen, selected⟩
  have consumed := h.consumed seen (by rintro rfl; cases selected)
  refine ⟨consumed.represents.nameMember rfl name, ?_⟩
  rw [ReadM.nameMember_unitsLeft]
  exact consumed.paid

theorem counted_endScalar {l : Lexeme} (h : Counted o budget m r)
    (seen : r.lookahead = some l) (more : l ≠ .endDocument) :
    Counted o budget m.consumeScalar r.endScalar := by
  have consumed := h.consumed seen more
  refine ⟨consumed.represents.endValue rfl, ?_⟩
  rw [Reader.endScalar, ReadM.endValue_unitsLeft]
  exact consumed.paid

theorem follows_takeScalar (expected : Token) {select : Lexeme → Option α}
    (hs : select .endDocument = none) :
    Follows o budget (takeScalar expected select) (ReadM.takeScalar expected select) := by
  refine (realizes_expect _ _).bind fun a => Realizes.bind
    (Q := fun _ => Counted o budget) (Realizes.modify ?_) fun _ => follows_pure a
  rintro m r ⟨h, l, seen, selected⟩
  refine counted_endScalar h seen ?_
  rintro rfl
  cases hs.symm.trans selected

theorem follows_nextNull : Follows o budget nextNull ReadM.nextNull := by
  refine (realizes_take (l := .null) nofun).bind fun _ => Realizes.modify ?_
  rintro m r ⟨h, unseen, -⟩
  refine ⟨h.represents.endValue unseen, ?_⟩
  rw [ReadM.endValue_unitsLeft]
  exact h.paid

theorem follows_finish : Follows o budget finish ReadM.finish :=
  (realizes_expect _ _).answering fun _ _ _ h => h.1

theorem follows_setLenient (lenient : Bool) :
    Follows o budget (setLenient lenient) (ReadM.setLenient lenient) := by
  refine Realizes.modify fun m r h =>
    ⟨{ h.represents with settings := ?_, kept := ?_ }, h.paid⟩
  · rw [h.represents.settings]
  · rw [h.represents.kept]

theorem follows_convert (text target : String) (result : Except Number.ConversionFault α) :
    Follows o budget (convert text target result) (ReadM.convert text target result) := by
  rcases result with (_ | _) | a
  · exact realizes_fail (fun _ _ h => h) _
  · exact realizes_fail (fun _ _ h => h) _
  · exact follows_pure a

theorem follows_nextInteger (type : Number.IntegerType) :
    Follows o budget (nextInteger type) (ReadM.nextInteger type) := by
  refine (follows_takeScalar _ rfl).bind fun text => (follows_convert _ _ _).bind fun n => ?_
  split
  · exact follows_pure n
  · exact realizes_fail (fun _ _ h => h) _

theorem follows_nextDouble : Follows o budget nextDouble ReadM.nextDouble := by
  intro m r h
  unfold nextDouble ReadM.nextDouble
  rw [CheckedM.get_bind, get_bind, h.represents.settings]
  exact Realizes.bind (follows_takeScalar _ rfl) (fun _ => follows_convert _ _ _) m r h

theorem follows_map {x : CheckedReadM α} {y : ReadM α} (hx : Follows o budget x y)
    (f : α → β) : Follows o budget (do pure (f (← x))) (do pure (f (← y))) :=
  hx.bind fun _ => follows_pure _

theorem follows_nextScalar (type : ScalarType) :
    Follows o budget (nextScalar type) (ReadM.nextScalar type) := by
  cases type with
  | integer type => exact follows_map (follows_nextInteger type) _
  | single => exact follows_map (follows_map follows_nextDouble _) _
  | double => exact follows_map follows_nextDouble _
  | boolean => exact follows_map (follows_takeScalar _ rfl) _
  | text => exact follows_map (follows_takeScalar _ rfl) _

theorem follows_orNull {x : CheckedReadM α} {y : ReadM α} (hx : Follows o budget x y) :
    Follows o budget (orNull x) (ReadM.orNull y) := by
  refine follows_peek.bind fun t => ?_
  split
  · exact follows_nextNull.bind fun _ => follows_pure none
  · exact follows_map hx some

end CheckedReadM

end TypedJson
