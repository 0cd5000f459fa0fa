import TypedJson.Proofs.Checked.Skipping

set_option autoImplicit false
set_option relaxedAutoImplicit false

namespace TypedJson

open CheckedReadM (Follows follows_pure follows_map)

variable {o : Origin} {budget : Nat} {m : StackReader} {r : Reader}

theorem Call.follows_checked (c : Call) : Follows o budget c.checked c.run := by
  have done {x : CheckedReadM Unit} {y : ReadM Unit} (hx : Follows o budget x y) :
      Follows o budget (do x; pure Answer.done) (do y; pure .done) :=
    hx.bind fun _ => follows_pure _
  cases c with
  | peek => exact follows_map CheckedReadM.follows_peek _
  | hasNext => exact follows_map CheckedReadM.follows_hasNext _
  | beginObject => exact done CheckedReadM.follows_beginObject
  | endObject => exact done CheckedReadM.follows_endObject
  | beginArray => exact done CheckedReadM.follows_beginArray
  | endArray => exact done CheckedReadM.follows_endArray
  | nextName => exact follows_map CheckedReadM.follows_nextName _
  | nextString => exact follows_map (CheckedReadM.follows_takeScalar _ rfl) _
  | nextNumberText => exact follows_map (CheckedReadM.follows_takeScalar _ rfl) _
  | nextBool => exact follows_map (CheckedReadM.follows_takeScalar _ rfl) _
  | nextNull => exact done CheckedReadM.follows_nextNull
  | skipValue => exact done CheckedReadM.follows_skipValue
  | nextScalar type => exact follows_map (CheckedReadM.follows_nextScalar type) _
  | nextBoxed type =>
      exact follows_map (CheckedReadM.follows_orNull (CheckedReadM.follows_nextScalar type)) _
  | isLenient => exact Realizes.ask fun m r h => by rw [h.represents.settings]
  | setLenient lenient => exact done (CheckedReadM.follows_setLenient lenient)
  | path => exact Realizes.ask fun m r h => by rw [h.represents.path]
  | position => exact Realizes.ask fun m r h => by rw [h.represents.location]
  | finish => exact done CheckedReadM.follows_finish

namespace Counted

theorem call (h : Counted o budget m r) (c : Call) :
    ∃ m', m.call c = some ((r.call c).1, m') ∧ Counted o budget m' (r.call c).2 := by
  have run := c.follows_checked m r h
  unfold StackReader.call Reader.call
  generalize c.checked m = outcome at run ⊢
  generalize c.run r = result at run ⊢
  cases run with
  | @ok a m' r' h' =>
      refine ⟨m', ?_, h'⟩
      dsimp only
      rw [h'.represents.location]
  | @error e m' r' h' =>
      refine ⟨m', ?_, h'⟩
      dsimp only
      rw [h'.represents.location]

theorem session (h : Counted o budget m r) (calls : List Call) :
    ∃ m', m.session calls = some ((r.session calls).1, m') ∧
      Counted o budget m' (r.session calls).2 := by
  induction calls generalizing m r with
  | nil => exact ⟨m, rfl, h⟩
  | cons c calls ih =>
      obtain ⟨m₁, called, h₁⟩ := h.call c
      obtain ⟨m₂, rest, h₂⟩ := ih h₁
      refine ⟨m₂, ?_, h₂⟩
      rw [StackReader.session, called]
      change (m₁.session calls).bind _ = _
      rw [rest]
      rfl

end Counted

/-- The kind of piece that the path has for a scope: one for items within an array, one for members
within an object. -/
def Scope.Tracks : Scope → PathStep → Prop
  | .emptyArray, .item _ | .nonEmptyArray, .item _ => True
  | .emptyObject, .member _ | .danglingName, .member _ | .nonEmptyObject, .member _ => True
  | _, _ => False

/-- What holds of a reader between calls, with the settings that it was given. -/
structure StackReader.Sound (given : ReaderSettings) (m : StackReader) : Prop where
  settings : m.settings = { given with lenient := m.settings.lenient }
  tracking : m.trail.isSome = given.trackPath
  /-- The scope of the document lies at the bottom and nowhere else. There are no more scopes above
  it than may be nested, and the path has a piece of the right kind for each of them. -/
  stack : ∃ inner document, m.scopes = inner ++ [document] ∧ document.IsDocument ∧
    (∀ scope ∈ inner, ¬ scope.IsDocument) ∧ inner.length ≤ given.maxNestingDepth ∧
    ∀ trail, m.trail = some trail → List.Forall₂ Scope.Tracks inner trail
  endObject : m.peeked = some .endObject → ∃ scope outer, m.scopes = scope :: outer ∧ scope.IsObject
  endArray : m.peeked = some .endArray → ∃ scope outer, m.scopes = scope :: outer ∧ scope.IsArray
  position : m.window.position ≤ m.window.filled
  filled : m.window.filled ≤ Source.capacity

namespace Container

theorem scope_not_isDocument (c : Container) : ¬ c.scope.IsDocument := by
  rcases c with ⟨_ | _, _⟩ | ⟨_ | _ | _, _⟩ <;> exact id

theorem scope_tracks_step (c : Container) : c.scope.Tracks c.step := by
  rcases c with ⟨_ | _, _⟩ | ⟨_ | _ | _, _⟩ <;> exact trivial

theorem scope_array_isArray (started : Bool) (index : Nat) :
    (array started index).scope.IsArray := by
  cases started <;> exact trivial

theorem scope_object_isObject (phase : ObjectPhase) (member : Option String) :
    (object phase member).scope.IsObject := by
  cases phase <;> exact trivial

end Container

theorem Reader.documentScope_isDocument (r : Reader) : r.documentScope.IsDocument := by
  unfold documentScope
  split <;> exact trivial

theorem Represents.top {c : Container} {outer : List Container} (h : Represents o m r)
    (containers : r.containers = c :: outer) : ∃ below, m.scopes = c.scope :: below :=
  ⟨outer.map Container.scope ++ [r.documentScope], by rw [h.scopes, containers]; rfl⟩

theorem Represents.sound (h : Represents o m r) : m.Sound o.settings where
  settings := by rw [h.settings, ← h.kept]
  tracking := by
    have tracked : r.settings.trackPath = o.settings.trackPath := by rw [h.kept]
    rw [h.trail, ← tracked]
    cases r.settings.trackPath <;> rfl
  stack := by
    refine ⟨r.containers.map Container.scope, r.documentScope, h.scopes,
      r.documentScope_isDocument, fun scope inner => ?_, ?_, fun trail tracked => ?_⟩
    · obtain ⟨c, -, rfl⟩ := List.mem_map.mp inner
      exact c.scope_not_isDocument
    · rw [List.length_map]
      exact h.depth
    · rw [h.trail] at tracked
      split at tracked
      · obtain rfl : r.containers.map Container.step = trail := Option.some_inj.mp tracked
        rw [List.forall₂_map_left_iff, List.forall₂_map_right_iff, List.forall₂_same]
        exact fun c _ => c.scope_tracks_step
      · cases tracked
  endObject := fun peeked => by
    obtain ⟨phase, member, outer, containers⟩ := h.closes _ (h.peeked.symm.trans peeked)
    obtain ⟨below, scopes⟩ := h.top containers
    exact ⟨_, below, scopes, Container.scope_object_isObject phase member⟩
  endArray := fun peeked => by
    obtain ⟨started, index, outer, containers⟩ := h.closes _ (h.peeked.symm.trans peeked)
    obtain ⟨below, scopes⟩ := h.top containers
    exact ⟨_, below, scopes, Container.scope_array_isArray started index⟩
  position := h.window.position
  filled := h.window.filled

namespace StackReader

variable {source : Source} {settings : ReaderSettings}

theorem ahead_start (source : Source) : (Cursor.start source).ahead = source.ahead :=
  Nat.zero_add _

/-- In front of a document the readers stand for each other, and there is at most one unit for every
byte. -/
theorem counted_new (fits : source.Fits)
    (limit : settings.maxNestingDepth ≤ CheckedReadM.maxDepth) :
    Counted ⟨settings, limit, source.ahead⟩ source.ahead (new source settings)
      (Reader.new source settings) where
  represents :=
    { window :=
        { unread := rfl
          source := rfl
          drained := rfl
          mark := rfl
          position := Nat.le_refl _
          filled := Nat.zero_le _
          fits := fits
          bytes := (Nat.zero_add _).trans (ahead_start source)
          ahead := Nat.le_refl _ }
      peeked := rfl
      scopes := rfl
      trail := rfl
      settings := rfl
      kept := rfl
      room := rfl
      closes := nofun }
  paid := by
    change 0 + ((Cursor.start source).ahead + 0) ≤ source.ahead
    rw [ahead_start, Nat.add_zero, Nat.zero_add]

/-- Whatever calls a session consists of, whether or not they fail, and whatever replies the source
gives, as long as none of them is larger than the buffer: the session ends. It looks as one without
checks, so that no access outside the stack or the buffer is made and the depth of skipped values is
not stepped outside its range, and the reader that it leaves is in order. -/
theorem session_sound (fits : source.Fits)
    (limit : settings.maxNestingDepth ≤ CheckedReadM.maxDepth) (calls : List Call) :
    ∃ m, (new source settings).session calls =
        some (((Reader.new source settings).session calls).1, m) ∧ m.Sound settings := by
  obtain ⟨m, run, h⟩ := (counted_new fits limit).session calls
  exact ⟨m, run, h.represents.sound⟩

/-- Arrays nest deeper than they may, the inner one is left half begun, the wrong bracket is asked
for, and behind one more item the source fails within a string. -/
theorem session_sound_failing :
    ∃ source settings calls,
      source = ⟨[.data 0x5B (Utf8.encode "[,7,\"".toList), .interrupted, .data 0x61 []],
        .failed "gone"⟩ ∧
      settings = { maxNestingDepth := 1 } ∧
      calls = [.beginArray, .beginArray, .endObject, .skipValue, .nextString, .endArray] ∧
      source.Fits ∧ settings.maxNestingDepth ≤ CheckedReadM.maxDepth ∧
      (((Reader.new source settings).session calls).1.map Observation.result)[4]? =
        some (.error (.unavailable (.device "gone") ⟨some [.item 1], some ⟨0, 7⟩, some 7⟩)) ∧
      ∃ m, (new source settings).session calls =
        some (((Reader.new source settings).session calls).1, m) ∧ m.Sound settings := by
  let source : Source :=
    ⟨[.data 0x5B (Utf8.encode "[,7,\"".toList), .interrupted, .data 0x61 []], .failed "gone"⟩
  have fits : source.Fits := by decide +kernel
  have limit : ReaderSettings.maxNestingDepth { maxNestingDepth := 1 } ≤ CheckedReadM.maxDepth := by
    decide
  refine ⟨source, _, _, rfl, rfl, rfl, fits, limit, ?_, session_sound fits limit _⟩
  decide +kernel

end StackReader

end TypedJson
