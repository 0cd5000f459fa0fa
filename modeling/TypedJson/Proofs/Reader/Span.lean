import TypedJson.Proofs.Lexing.Span
import TypedJson.Proofs.Reader.Passage
import TypedJson.Proofs.Reader.Skipping

set_option autoImplicit false
set_option relaxedAutoImplicit false

namespace TypedJson

open Operation
open Grammar (Span)

namespace ReadM

variable {lenient current : Bool} {bytes : List UInt8} {r r' : Reader} {l : Lexeme} {e : Event}

section

variable (allowed : current = true → lenient = true)
include allowed

theorem ensures_firstItem_span :
    Ensures (fun r => r.cursor.Reaches lenient bytes) (firstItem current) fun _ r =>
      r.cursor.Reaches lenient bytes := by
  refine ensures_lex (Q := fun _ c => c.Reaches lenient bytes)
    (Ensures.bind (LexM.ensures_skipBlankToByte_span allowed) fun b => ?_)
  split
  · rename_i closing
    exact LexM.ensures_mark_span closing (by decide) (by decide) LexM.ensures_pure_span
  · exact LexM.ensures_value_span allowed

theorem ensures_nextItem_span :
    Ensures (fun r => r.cursor.Reaches lenient bytes) (nextItem current) fun _ r =>
      r.cursor.Reaches lenient bytes := by
  refine ensures_lex (Q := fun _ c => c.Reaches lenient bytes)
    (Ensures.bind (LexM.ensures_skipBlankToByte_span allowed) fun b => ?_)
  split
  · rename_i closing
    exact LexM.ensures_mark_span closing (by decide) (by decide) LexM.ensures_pure_span
  · split
    · rename_i comma
      refine LexM.ensures_mark_span comma (by decide) (by decide)
        (Ensures.bind (LexM.ensures_skipBlankToByte_span allowed) fun b => ?_)
      split
      · rename_i closing
        split
        · exact LexM.ensures_mark_span closing (by decide) (by decide) LexM.ensures_pure_span
        · exact LexM.ensures_fail _
      · exact LexM.ensures_value_span allowed
    · exact LexM.ensures_fail _

theorem ensures_memberValue_span :
    Ensures (fun r => r.cursor.Reaches lenient bytes) (memberValue current) fun _ r =>
      r.cursor.Reaches lenient bytes := by
  refine ensures_lex (Q := fun _ c => c.Reaches lenient bytes)
    (Ensures.bind (LexM.ensures_skipBlankToByte_span allowed) fun b => ?_)
  split
  · rename_i colon
    exact LexM.ensures_mark_span colon (by decide) (by decide)
      (Ensures.bind (LexM.ensures_skipBlankToByte_span allowed) fun _ =>
        LexM.ensures_value_span allowed)
  · exact LexM.ensures_fail _

theorem ensures_topValue_span :
    Ensures (fun r => r.cursor.Reaches lenient bytes) (topValue current) fun _ r =>
      r.cursor.Reaches lenient bytes :=
  ensures_lex (Q := fun _ c => c.Reaches lenient bytes)
    (Ensures.bind (LexM.ensures_skipBlankToByte_span allowed) fun _ =>
      LexM.ensures_value_span allowed)

theorem ensures_afterTopValue_span :
    Ensures (fun r => r.cursor.Reaches lenient bytes) (afterTopValue current) fun l r =>
      r.cursor.Reaches lenient bytes ∧ (l = .endDocument → Span lenient bytes []) := by
  refine ensures_lex (Q := fun (l : Lexeme) c => c.Reaches lenient bytes ∧
      (l = .endDocument → Span lenient bytes []))
    (Ensures.bind (LexM.ensures_skipBlank_span allowed) fun a => ?_)
  cases a with
  | none =>
      apply Ensures.pure
      rintro c ⟨span, held⟩
      exact ⟨⟨[], span, held⟩, fun _ => span⟩
  | some b =>
      dsimp only
      split
      · intro c l c' faces run
        refine ⟨LexM.ensures_value_span allowed c l c' faces run, ?_⟩
        rintro rfl
        cases LexM.yields_value c _ c' run
      · exact LexM.ensures_fail _

theorem ensures_findMember_span (first : Bool) :
    Ensures (fun r => r.cursor.Reaches lenient bytes) (findMember current first) fun a r =>
      match a with
      | none => r.cursor.Reaches lenient bytes
      | some b => r.cursor.Faces lenient bytes b := by
  let Q : Option UInt8 → Cursor → Prop := fun a c =>
    match a with
    | none => c.Reaches lenient bytes
    | some b => c.Faces lenient bytes b
  have ends : Ensures (Cursor.Reaches lenient bytes) (pure none : LexM (Option UInt8)) Q :=
    Ensures.pure fun _ reaches => reaches
  have found (b : UInt8) :
      Ensures (Cursor.Faces lenient bytes b) (pure (some b) : LexM (Option UInt8)) Q :=
    Ensures.pure fun _ faces => faces
  refine ensures_lex (Q := Q)
    (Ensures.bind (LexM.ensures_skipBlankToByte_span allowed) fun b => ?_)
  split
  · rename_i closing
    exact LexM.ensures_mark_span closing (by decide) (by decide) ends
  · split
    · exact found b
    · split
      · rename_i comma
        refine LexM.ensures_mark_span comma (by decide) (by decide)
          (Ensures.bind (LexM.ensures_skipBlankToByte_span allowed) fun b => ?_)
        split
        · rename_i closing
          split
          · exact LexM.ensures_mark_span closing (by decide) (by decide) ends
          · exact LexM.ensures_fail _
        · exact found b
      · exact LexM.ensures_fail _

theorem ensures_member_span (first : Bool) (last : Option String) :
    Ensures (fun r => r.cursor.Reaches lenient bytes) (member current first last) fun _ r =>
      r.cursor.Reaches lenient bytes := by
  refine Ensures.bind (ensures_findMember_span allowed first) fun a => ?_
  cases a with
  | none => exact Ensures.pure fun _ reaches => reaches
  | some b =>
      refine Ensures.bind (Q := fun _ r => r.cursor.Faces lenient bytes b)
        (Ensures.modify fun _ faces => faces) fun _ => ?_
      exact ensures_lex (Q := fun _ c => c.Reaches lenient bytes)
        (LexM.ensures_name_span allowed)

end

/-- The next unit is read over well-formed text, all of the document if that is its end. -/
theorem span_of_nextLexeme (allowed : r.settings.lenient = true → lenient = true)
    (reaches : r.cursor.Reaches lenient bytes) (h : nextLexeme r = .ok l r') :
    r'.cursor.Reaches lenient bytes ∧ (l = .endDocument → Span lenient bytes []) := by
  have shows := (shows_of_nextLexeme h).1
  have inside {container : Container} {outer : List Container}
      (within : r.containers = container :: outer) : l ≠ .endDocument := by
    rw [Reader.places, within, List.map_cons] at shows
    exact shows.ne_endDocument
  obtain ⟨x, q, look, run⟩ := exists_lookup r
  rw [run] at h
  cases look with
  | topValue =>
      refine ⟨ensures_topValue_span allowed { r with documentStarted := true } l r' reaches h, ?_⟩
      rintro rfl
      cases (shows_topValue h).1
  | afterTopValue => exact ensures_afterTopValue_span allowed r l r' reaches h
  | firstItem within =>
      exact ⟨ensures_firstItem_span allowed (r.setContainer _) l r' reaches h,
        fun ended => absurd ended (inside within)⟩
  | nextItem within =>
      exact ⟨ensures_nextItem_span allowed r l r' reaches h,
        fun ended => absurd ended (inside within)⟩
  | memberValue within =>
      exact ⟨ensures_memberValue_span allowed (r.setContainer _) l r' reaches h,
        fun ended => absurd ended (inside within)⟩
  | member _ within =>
      exact ⟨ensures_member_span allowed _ _ r l r' reaches h,
        fun ended => absurd ended (inside within)⟩

end ReadM

namespace Reader

variable {lenient : Bool} {bytes : List UInt8} {r r' : Reader} {l : Lexeme} {e : Event}
variable {evs : List Event} {source : Source} {settings : ReaderSettings}

/-- The cursor stands behind well-formed text, behind all of the document if the end of it has been
seen, and the reader is lenient only where that is allowed. -/
structure Sound (lenient : Bool) (bytes : List UInt8) (r : Reader) : Prop where
  reaches : r.cursor.Reaches lenient bytes
  ended : r.lookahead = some .endDocument → Span lenient bytes []
  allowed : r.settings.lenient = true → lenient = true

theorem sound_new (delivers : source.Delivers bytes .endOfData)
    (allowed : settings.lenient = true → lenient = true) :
    Sound lenient bytes (new source settings) where
  reaches := ⟨bytes, .start, Cursor.holds_start delivers⟩
  ended := nofun
  allowed := allowed

theorem Sound.peekLexeme (sound : r.Sound lenient bytes) (h : ReadM.peekLexeme r = .ok l r') :
    r'.Sound lenient bytes := by
  have kept := settings_of_peekLexeme h
  obtain ⟨-, rfl⟩ | ⟨-, q, next, rfl⟩ := ReadM.peekLexeme_eq_ok h
  · exact sound
  · obtain ⟨reaches, ended⟩ := ReadM.span_of_nextLexeme sound.allowed sound.reaches next
    refine ⟨reaches, fun seen => ended (Option.some.inj seen), ?_⟩
    rw [kept]
    exact sound.allowed

theorem Sound.nextEvent (sound : r.Sound lenient bytes)
    (h : ReadM.nextEvent r = .ok (some e) r') : r'.Sound lenient bytes := by
  obtain ⟨l, r₁, look, event, -, rfl⟩ := ReadM.nextEvent_eq_ok h
  have seen := sound.peekLexeme look
  obtain ⟨cursor, unseen, -, settings⟩ := behind_fields (r := r₁) event
  constructor
  · rw [cursor]
    exact seen.reaches
  · rw [unseen]
    nofun
  · rw [settings]
    exact seen.allowed

theorem Sound.passes (sound : r.Sound lenient bytes) (h : Passes lenient evs r r') :
    r'.Sound lenient bytes := by
  induction h with
  | nil => exact sound
  | look seen _ ih => exact ih (sound.peekLexeme seen)
  | take step _ ih => exact ih (sound.nextEvent step)
  | switch allowed switched _ ih =>
      cases switched
      exact ih ⟨sound.reaches, sound.ended, allowed⟩

theorem Sound.finish (sound : r.Sound lenient bytes) (h : ReadM.finish r = .ok () r') :
    Span lenient bytes [] := by
  obtain ⟨l, look, selected⟩ := ReadM.expect_eq_ok h
  have seen := sound.peekLexeme look
  apply seen.ended
  rw [ReadM.lookahead_of_peek look]
  cases l with
  | endDocument => rfl
  | _ => cases selected

theorem Sound.session {calls : List Call} (sound : r.Sound lenient bytes)
    (allowed : .setLenient true ∈ calls → lenient = true)
    (succeed : AllSucceed (r.session (calls ++ [.finish])).1) : Span lenient bytes [] := by
  induction calls generalizing r with
  | nil =>
      obtain ⟨a, run⟩ := run_of_isOk (succeed _ List.mem_cons_self)
      obtain ⟨_, r', finished, -⟩ := bind_eq_ok.mp run
      exact sound.finish finished
  | cons c calls ih =>
      obtain ⟨first, rest⟩ := List.forall_mem_cons.mp succeed
      obtain ⟨a, run⟩ := run_of_isOk first
      have own : c = .setLenient true → lenient = true := by
        rintro rfl
        exact allowed List.mem_cons_self
      obtain ⟨evs, passes⟩ := Call.passes own run
      exact ih (sound.passes passes) (fun later => allowed (List.mem_cons_of_mem _ later)) rest

theorem Sound.eventsWithin {fuel : Nat} (sound : r.Sound lenient bytes)
    (enough : r.unitsLeft < fuel) (h : eventsWithin fuel r = ((evs, none), r')) :
    Span lenient bytes [] := by
  -- Every round takes one of the units left, so that the loop does not end for want of fuel.
  induction fuel generalizing r evs with
  | zero => omega
  | succ fuel ih =>
      simp only [Reader.eventsWithin] at h
      cases step : ReadM.nextEvent r with
      | error e r₁ => simp [step] at h
      | ok a r₁ =>
          have less := ReadM.ensures_nextEvent r.unitsLeft r a r₁ (Nat.le_refl _) step
          simp only [step] at h
          cases a with
          | none =>
              obtain ⟨l, r₂, look, event, -, -⟩ := ReadM.nextEvent_eq_ok step
              obtain rfl : l = .endDocument := Lexeme.event?_inj event
              exact (sound.peekLexeme look).ended (ReadM.lookahead_of_peek look)
          | some e =>
              have fewer := less rfl
              obtain ⟨⟨⟨evs', error⟩, r₂⟩, rest⟩ :
                  ∃ x, Reader.eventsWithin fuel r₁ = x := ⟨_, rfl⟩
              simp only [rest] at h
              cases h
              exact ih (sound.nextEvent step) (by omega) rest

end Reader

end TypedJson
