import TypedJson.Reader.Events
import TypedJson.Proofs.Lexing.Progress
import TypedJson.Proofs.Reader.Next

set_option autoImplicit false
set_option relaxedAutoImplicit false

namespace TypedJson

open Operation

namespace ReadM

variable {α : Type}

theorem ensures_fail {P : Reader → Prop} {Q : α → Reader → Prop} (error : Location → ReadError) :
    Ensures P (fail error) Q := by
  intro r a r' _ h
  cases h

theorem ensures_lex {P : Cursor → Prop} {Q : α → Cursor → Prop} {x : LexM α} (hx : Ensures P x Q) :
    Ensures (fun r => P r.cursor) (lex x) fun a r => Q a r.cursor := by
  intro r a r' hr h
  simp only [lex] at h
  split at h
  · rename_i hc
    cases h
    exact hx _ _ _ hr hc
  · cases h

/-! Lexing the next unit. -/

private theorem ensures_answer (l : Lexeme) (n : Nat) :
    Ensures (fun c : Cursor => c.ahead ≤ n) (pure l : LexM Lexeme) fun _ c => c.ahead ≤ n :=
  Ensures.pure fun _ h => h

theorem ensures_nextItem (lenient : Bool) (n : Nat) :
    Ensures (fun r => r.cursor.ahead ≤ n) (nextItem lenient) fun _ r => r.cursor.ahead < n := by
  refine ensures_lex (Q := fun _ c => c.ahead < n)
    (Ensures.bind (LexM.ensures_skipBlankToByte lenient n) fun b => ?_)
  split
  · exact LexM.ensures_advance_then (ensures_answer _)
  · split
    · refine Ensures.bind (LexM.ensures_advance b n) fun _ => ?_
      intro c a c' hc h
      refine Nat.lt_trans (m := c.ahead) ?_ hc
      refine Ensures.bind (R := fun _ c' => c'.ahead < c.ahead)
        (LexM.ensures_skipBlankToByte lenient c.ahead) (fun b => ?_) c a c' (Nat.le_refl _) h
      split
      · split
        · exact LexM.ensures_advance_then (ensures_answer _)
        · exact LexM.ensures_fail _
      · exact LexM.ensures_value lenient b _
    · exact LexM.ensures_fail _

theorem ensures_firstItem (lenient : Bool) (n : Nat) :
    Ensures (fun r => r.cursor.ahead ≤ n) (firstItem lenient) fun _ r => r.cursor.ahead < n := by
  refine ensures_lex (Q := fun _ c => c.ahead < n)
    (Ensures.bind (LexM.ensures_skipBlankToByte lenient n) fun b => ?_)
  split
  · exact LexM.ensures_advance_then (ensures_answer _)
  · exact LexM.ensures_value lenient b n

theorem ensures_findMember (lenient first : Bool) (n : Nat) :
    Ensures (fun r => r.cursor.ahead ≤ n) (findMember lenient first) fun a r =>
      match a with
      | none => r.cursor.ahead < n
      | some b => r.cursor.ahead ≤ n ∧ ∃ u, r.cursor.unread = b :: u := by
  let Q : Option UInt8 → Cursor → Prop := fun a c =>
    match a with
    | none => c.ahead < n
    | some b => c.ahead ≤ n ∧ ∃ u, c.unread = b :: u
  have closing (b : UInt8) :
      Ensures (fun c => c.ahead ≤ n ∧ ∃ u, c.unread = b :: u)
        (do LexM.advance; pure none : LexM (Option UInt8)) Q :=
    Ensures.bind (LexM.ensures_advance b n) fun _ => Ensures.pure fun _ h => h
  have found (b : UInt8) :
      Ensures (fun c => c.ahead ≤ n ∧ ∃ u, c.unread = b :: u) (pure (some b) : LexM _) Q :=
    Ensures.pure fun _ h => h
  refine ensures_lex (Q := Q) (Ensures.bind (LexM.ensures_skipBlankToByte lenient n) fun b => ?_)
  split
  · exact closing b
  · split
    · exact found b
    · split
      · refine Ensures.bind (LexM.ensures_advance b n) fun _ => ?_
        refine (Ensures.bind (LexM.ensures_skipBlankToByte lenient n) fun b => ?_).weaken
          (fun _ h => Nat.le_of_lt h) fun _ _ h => h
        split
        · split
          · exact closing b
          · exact LexM.ensures_fail _
        · exact found b
      · exact LexM.ensures_fail _

theorem ensures_memberValue (lenient : Bool) (n : Nat) :
    Ensures (fun r => r.cursor.ahead ≤ n) (memberValue lenient) fun _ r => r.cursor.ahead < n := by
  refine ensures_lex (Q := fun _ c => c.ahead < n)
    (Ensures.bind (LexM.ensures_skipBlankToByte lenient n) fun b => ?_)
  split
  · refine Ensures.bind (LexM.ensures_advance b n) fun _ => ?_
    refine (Ensures.bind (LexM.ensures_skipBlankToByte lenient n) fun b => ?_).weaken
      (fun _ h => Nat.le_of_lt h) fun _ _ h => h
    exact LexM.ensures_value lenient b n
  · exact LexM.ensures_fail _

theorem ensures_topValue (lenient : Bool) (n : Nat) :
    Ensures (fun r => r.cursor.ahead ≤ n) (topValue lenient) fun _ r => r.cursor.ahead < n :=
  ensures_lex (Q := fun _ c => c.ahead < n)
    (Ensures.bind (LexM.ensures_skipBlankToByte lenient n) fun b => LexM.ensures_value lenient b n)

theorem ensures_afterTopValue (lenient : Bool) (n : Nat) :
    Ensures (fun r => r.cursor.ahead ≤ n) (afterTopValue lenient) fun l r =>
      r.cursor.ahead ≤ n ∧ (l ≠ .endDocument → r.cursor.ahead < n) := by
  refine ensures_lex (Q := fun (l : Lexeme) c => c.ahead ≤ n ∧ (l ≠ .endDocument → c.ahead < n))
    (Ensures.bind (LexM.ensures_skipBlank lenient n) fun a => ?_)
  cases a with
  | none => exact Ensures.pure fun _ h => ⟨h.1, fun hl => absurd rfl hl⟩
  | some b =>
      dsimp only
      split
      · exact (LexM.ensures_value lenient b n).weaken (fun _ h => ⟨h.1, h.2 b rfl⟩)
          fun _ _ h => ⟨Nat.le_of_lt h, fun _ => h⟩
      · exact LexM.ensures_fail _

theorem ensures_member (lenient first : Bool) (last : Option String) (n : Nat) :
    Ensures (fun r => r.cursor.ahead ≤ n) (member lenient first last)
      fun _ r => r.cursor.ahead < n := by
  refine Ensures.bind (ensures_findMember lenient first n) fun a => ?_
  cases a with
  | none => exact Ensures.pure fun _ h => h
  | some b =>
      exact Ensures.bind (Ensures.modify fun _ h => h) fun _ =>
        ensures_lex (Q := fun _ c => c.ahead < n) (LexM.ensures_name lenient b n)

theorem ensures_nextLexeme (n : Nat) :
    Ensures (fun r => r.cursor.ahead ≤ n) nextLexeme fun l r =>
      r.cursor.ahead ≤ n ∧ (l ≠ .endDocument → r.cursor.ahead < n) := by
  intro r l r' hr h
  have shrink {x : ReadM Lexeme} {s : Reader}
      (hx : Ensures (fun r => r.cursor.ahead ≤ n) x fun _ r => r.cursor.ahead < n)
      (hxs : x s = .ok l r') (hs : s.cursor.ahead ≤ n) :
      r'.cursor.ahead ≤ n ∧ (l ≠ .endDocument → r'.cursor.ahead < n) :=
    have lt := hx s l r' hs hxs
    ⟨Nat.le_of_lt lt, fun _ => lt⟩
  obtain ⟨x, q, look, run⟩ := exists_lookup r
  rw [run] at h
  cases look with
  | topValue => exact shrink (ensures_topValue _ n) h hr
  | afterTopValue => exact ensures_afterTopValue _ n _ _ _ hr h
  | firstItem => exact shrink (ensures_firstItem _ n) h hr
  | nextItem => exact shrink (ensures_nextItem _ n) h hr
  | memberValue => exact shrink (ensures_memberValue _ n) h hr
  | member => exact shrink (ensures_member _ _ _ n) h hr

/-! Consuming a unit. -/

theorem unitsLeft_of_some {r : Reader} {l : Lexeme} (h : r.lookahead = some l)
    (hl : l ≠ .endDocument) : r.unitsLeft = r.cursor.ahead + 1 := by
  cases l <;> first | exact absurd rfl hl | simp [Reader.unitsLeft, h]

theorem ahead_le_unitsLeft (r : Reader) : r.cursor.ahead ≤ r.unitsLeft :=
  Nat.le_add_right _ _

theorem ensures_peekLexeme (n : Nat) :
    Ensures (fun r => r.unitsLeft ≤ n) peekLexeme fun l r =>
      r.unitsLeft ≤ n ∧ r.lookahead = some l := by
  intro r l r' hr h
  obtain ⟨seen, rfl⟩ | ⟨-, q, next, rfl⟩ := peekLexeme_eq_ok h
  · exact ⟨hr, seen⟩
  · have le := ensures_nextLexeme n r _ q (Nat.le_trans (ahead_le_unitsLeft r) hr) next
    refine ⟨?_, rfl⟩
    by_cases hd : l = .endDocument
    · subst hd
      exact le.1
    · rw [unitsLeft_of_some rfl hd]
      exact le.2 hd

theorem ensures_expect (expected : Expectation) {select : Lexeme → Option α}
    (hs : select .endDocument = none) (n : Nat) :
    Ensures (fun r => r.unitsLeft ≤ n) (expect expected select) fun _ r => r.cursor.ahead < n := by
  refine Ensures.bind (ensures_peekLexeme n) fun l => ?_
  cases ha : select l with
  | none => exact ensures_fail _
  | some a =>
      refine Ensures.pure fun r hr => ?_
      have hl : l ≠ .endDocument := by
        rintro rfl
        rw [hs] at ha
        cases ha
      rw [unitsLeft_of_some hr.2 hl] at hr
      exact hr.1

theorem ensures_take {l : Lexeme} (hl : l ≠ .endDocument) (n : Nat) :
    Ensures (fun r => r.unitsLeft ≤ n) (take l) fun _ r => r.unitsLeft < n :=
  Ensures.bind (ensures_expect _ (by simp [Ne.symm hl]) n) fun _ => Ensures.modify fun _ h => h

theorem ensures_enter (container : Container) (n : Nat) :
    Ensures (fun r => r.unitsLeft < n) (enter container) fun _ r => r.unitsLeft < n := by
  intro r a r' hr h
  obtain ⟨room, hroom⟩ : ∃ room, r.room = room := ⟨_, rfl⟩
  cases room with
  | zero =>
      rw [enter_of_zero hroom] at h
      cases h
  | succ room =>
      rw [enter_of_succ hroom] at h
      cases h
      exact hr

theorem endValue_unitsLeft (r : Reader) : r.endValue.unitsLeft = r.unitsLeft := by
  unfold Reader.endValue
  split <;> rfl

theorem nameMember_unitsLeft (r : Reader) (name : String) :
    (r.nameMember name).unitsLeft = r.unitsLeft := by
  unfold Reader.nameMember
  split <;> rfl

theorem endScalar_unitsLeft (r : Reader) : r.endScalar.unitsLeft = r.cursor.ahead :=
  endValue_unitsLeft _

theorem endContainer_unitsLeft (r : Reader) : r.endContainer.unitsLeft = r.unitsLeft :=
  endValue_unitsLeft _

theorem ensures_beginObject (n : Nat) :
    Ensures (fun r => r.unitsLeft ≤ n) beginObject fun _ r => r.unitsLeft < n :=
  Ensures.bind (ensures_take (l := .beginObject) nofun n) fun _ => ensures_enter _ n

theorem ensures_beginArray (n : Nat) :
    Ensures (fun r => r.unitsLeft ≤ n) beginArray fun _ r => r.unitsLeft < n :=
  Ensures.bind (ensures_take (l := .beginArray) nofun n) fun _ => ensures_enter _ n

theorem ensures_endObject (n : Nat) :
    Ensures (fun r => r.unitsLeft ≤ n) endObject fun _ r => r.unitsLeft < n :=
  Ensures.bind (ensures_take (l := .endObject) nofun n) fun _ => Ensures.modify fun r h => by
    rwa [endContainer_unitsLeft]

theorem ensures_endArray (n : Nat) :
    Ensures (fun r => r.unitsLeft ≤ n) endArray fun _ r => r.unitsLeft < n :=
  Ensures.bind (ensures_take (l := .endArray) nofun n) fun _ => Ensures.modify fun r h => by
    rwa [endContainer_unitsLeft]

theorem ensures_nextName (n : Nat) :
    Ensures (fun r => r.unitsLeft ≤ n) nextName fun _ r => r.unitsLeft < n := by
  refine Ensures.bind (ensures_expect _ rfl n) fun name => ?_
  refine Ensures.bind (Ensures.modify fun r h => ?_) fun _ => Ensures.pure fun _ h => h
  rwa [nameMember_unitsLeft]

theorem ensures_takeScalar (expected : Token) {select : Lexeme → Option α}
    (hs : select .endDocument = none) (n : Nat) :
    Ensures (fun r => r.unitsLeft ≤ n) (takeScalar expected select) fun _ r => r.unitsLeft < n := by
  refine Ensures.bind (ensures_expect _ hs n) fun a => ?_
  refine Ensures.bind (Ensures.modify fun r h => ?_) fun _ => Ensures.pure fun _ h => h
  rwa [endScalar_unitsLeft]

theorem ensures_nextNull (n : Nat) :
    Ensures (fun r => r.unitsLeft ≤ n) nextNull fun _ r => r.unitsLeft < n :=
  Ensures.bind (ensures_take (l := .null) nofun n) fun _ => Ensures.modify fun r h => by
    rwa [endValue_unitsLeft]

/-! Loops that consume a unit in every round. -/

theorem ensures_skipRound (depth n : Nat) :
    Ensures (fun r => r.unitsLeft ≤ n) (skipRound depth) fun _ r => r.unitsLeft < n := by
  refine Ensures.bind (ensures_peekLexeme n) fun l => ?_
  have answer (d : Option Nat) :
      Ensures (fun r => r.unitsLeft < n) (pure d : ReadM (Option Nat)) fun _ r => r.unitsLeft < n :=
    Ensures.pure fun _ h => h
  have then_ {β : Type} {l : Lexeme} {x : ReadM β} {d : Option Nat}
      (hx : Ensures (fun r => r.unitsLeft ≤ n) x fun _ r => r.unitsLeft < n) :
      Ensures (fun r => r.unitsLeft ≤ n ∧ r.lookahead = some l) (do let _ ← x; pure d)
        fun _ r => r.unitsLeft < n :=
    (Ensures.bind hx fun _ => answer d).weaken (fun _ h => h.1) fun _ _ h => h
  have scalar {l : Lexeme} {d : Option Nat} (hl : l ≠ .endDocument) :
      Ensures (fun r => r.unitsLeft ≤ n ∧ r.lookahead = some l)
        (do modify Reader.endScalar; pure d : ReadM (Option Nat)) fun _ r => r.unitsLeft < n := by
    refine Ensures.bind (Ensures.modify fun r hr => ?_) fun _ => answer d
    rw [endScalar_unitsLeft]
    rw [unitsLeft_of_some hr.2 hl] at hr
    exact hr.1
  split
  · exact then_ (ensures_beginObject n)
  · exact then_ (ensures_beginArray n)
  · exact then_ (ensures_endObject n)
  · exact then_ (ensures_endArray n)
  · exact then_ (ensures_nextName n)
  · exact scalar (l := .string _) nofun
  · exact scalar (l := .number _) nofun
  · exact scalar (l := .boolean _) nofun
  · exact scalar (l := .null) nofun
  · exact ensures_fail _

theorem skipWithin_congr {n m depth : Nat} {r : Reader} (hn : r.unitsLeft < n)
    (hm : r.unitsLeft < m) : skipWithin n depth r = skipWithin m depth r := by
  induction n generalizing m depth r with
  | zero => exact absurd hn (Nat.not_lt_zero _)
  | succ n ih =>
      obtain ⟨m, rfl⟩ : ∃ k, m = k + 1 := ⟨m - 1, by omega⟩
      simp only [skipWithin]
      cases h : skipRound depth r with
      | error e r' => rw [bind_of_error h, bind_of_error h]
      | ok a r' =>
          rw [bind_of_ok h, bind_of_ok h]
          have lt := ensures_skipRound depth r.unitsLeft r a r' (Nat.le_refl _) h
          cases a with
          | none => rfl
          | some d => exact ih (by omega) (by omega)

theorem ensures_nextEvent (n : Nat) :
    Ensures (fun r => r.unitsLeft ≤ n) nextEvent fun a r => a.isSome → r.unitsLeft < n := by
  have looking : Ensures (fun r => r.unitsLeft ≤ n) peek fun _ r => r.unitsLeft ≤ n :=
    Ensures.bind (ensures_peekLexeme n) fun _ => Ensures.pure fun _ h => h.1
  have then_ {β : Type} {x : ReadM β} {e : β → Event}
      (hx : Ensures (fun r => r.unitsLeft ≤ n) x fun _ r => r.unitsLeft < n) :
      Ensures (fun r => r.unitsLeft ≤ n) (do let b ← x; pure (some (e b)))
        fun a r => a.isSome → r.unitsLeft < n :=
    Ensures.bind hx fun _ => Ensures.pure fun _ h _ => h
  refine Ensures.bind looking fun t => ?_
  cases t with
  | beginObject => exact then_ (e := fun _ => .beginObject) (ensures_beginObject n)
  | endObject => exact then_ (e := fun _ => .endObject) (ensures_endObject n)
  | beginArray => exact then_ (e := fun _ => .beginArray) (ensures_beginArray n)
  | endArray => exact then_ (e := fun _ => .endArray) (ensures_endArray n)
  | name => exact then_ (ensures_nextName n)
  | string => exact then_ (ensures_takeScalar _ rfl n)
  | number => exact then_ (ensures_takeScalar _ rfl n)
  | boolean => exact then_ (ensures_takeScalar _ rfl n)
  | null => exact then_ (e := fun _ => .null) (ensures_nextNull n)
  | endDocument => exact Ensures.pure fun _ _ h => by cases h

end ReadM

theorem Reader.eventsWithin_congr {n m : Nat} {r : Reader} (hn : r.unitsLeft < n)
    (hm : r.unitsLeft < m) : eventsWithin n r = eventsWithin m r := by
  induction n generalizing m r with
  | zero => exact absurd hn (Nat.not_lt_zero _)
  | succ n ih =>
      obtain ⟨m, rfl⟩ : ∃ k, m = k + 1 := ⟨m - 1, by omega⟩
      simp only [eventsWithin]
      cases h : ReadM.nextEvent r with
      | error e r' => rfl
      | ok a r' =>
          have lt := ReadM.ensures_nextEvent r.unitsLeft r a r' (Nat.le_refl _) h
          cases a with
          | none => rfl
          | some e =>
              have lt := lt rfl
              simp only [ih (m := m) (r := r') (by omega) (by omega)]

end TypedJson
