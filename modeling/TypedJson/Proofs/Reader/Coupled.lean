import TypedJson.Reader.Scalar
import TypedJson.Proofs.Lexing.Coupled
import TypedJson.Proofs.Reader.Next
import TypedJson.Proofs.Reader.Progress

set_option autoImplicit false
set_option relaxedAutoImplicit false

namespace TypedJson

open Operation

variable {ι : Type}

def Linked (C : Cursor → (ι → Cursor) → Prop) (r : Reader) (R : ι → Reader) : Prop :=
  ∃ S : ι → Cursor, (R = fun i => { r with cursor := S i }) ∧ C r.cursor S

namespace ReadM

def Escapes (escapes : LexFault → Prop) (e : ReadError) : Prop :=
  ∃ f l, e = .ofFault f l ∧ escapes f

def Plain (plain : LexFault → Prop) (e : ReadError) : Prop :=
  ∀ f l, e = .ofFault f l → plain f

variable {C P P' : Cursor → (ι → Cursor) → Prop} {escapes plain : LexFault → Prop}
variable {beyond : Cursor → Prop} {α β : Type}

theorem plain_ofFault {f : LexFault} {l : Location} (h : plain f) :
    Plain plain (.ofFault f l) := by
  intro f' l' he
  cases f <;> cases f' <;> cases he <;> exact h

/-- A reading operation goes the same way on readers linked by `P`; an error leaves them linked. -/
abbrev Lockstep (C : Cursor → (ι → Cursor) → Prop) (escapes plain : LexFault → Prop)
    (beyond : Cursor → Prop) (P : Cursor → (ι → Cursor) → Prop) (x : ReadM α)
    (Q : α → Cursor → (ι → Cursor) → Prop) : Prop :=
  Coupled (Linked P) x (fun a => Linked (Q a)) (fun e r R => Linked C r R ∧ Plain plain e)
    (Escapes escapes) fun r => beyond r.cursor

abbrev Steady (C : Cursor → (ι → Cursor) → Prop) (escapes plain : LexFault → Prop)
    (beyond : Cursor → Prop) (x : ReadM α) : Prop :=
  Lockstep C escapes plain beyond C x fun _ => C

end ReadM

section

variable {C P Q : Cursor → (ι → Cursor) → Prop} {r : Reader} {R : ι → Reader}

theorem Linked.location {escapes plain : LexFault → Prop} {beyond : Cursor → Prop}
    (K : Coupling C escapes plain beyond) (h : Linked C r R) (i : ι) :
    (R i).location = r.location := by
  obtain ⟨S, rfl, hC⟩ := h
  simp only [Reader.location, K.mark hC]
  rfl

theorem Linked.weaken (h : Linked P r R) (hPQ : ∀ c S, P c S → Q c S) : Linked Q r R := by
  obtain ⟨S, rfl, hP⟩ := h
  exact ⟨S, rfl, hPQ _ _ hP⟩

theorem Linked.map (h : Linked P r R) {g : Reader → Reader}
    (hg : ∀ r c, g { r with cursor := c } = { g r with cursor := c })
    (hc : ∀ r, (g r).cursor = r.cursor) : Linked P (g r) fun i => g (R i) := by
  obtain ⟨S, rfl, hP⟩ := h
  exact ⟨S, funext fun i => hg r (S i), by rwa [hc]⟩

end

namespace ReadM

variable {C P P' : Cursor → (ι → Cursor) → Prop} {escapes plain : LexFault → Prop}
variable {beyond : Cursor → Prop} {α β : Type} (K : Coupling C escapes plain beyond)

/-! The combinators. -/

theorem lockstep_pure (a : α) : Lockstep C escapes plain beyond P (pure a) fun _ => P :=
  Coupled.pure fun _ _ h => h

theorem lockstep_modify {g : Reader → Reader}
    (hg : ∀ r c, g { r with cursor := c } = { g r with cursor := c })
    (hc : ∀ r, (g r).cursor = r.cursor) :
    Lockstep C escapes plain beyond P (modify g) fun _ => P where
  tie _ _ h := .ok (h.map hg hc)
  keeps r h := by
    change beyond (g r).cursor
    rwa [hc]

theorem lockstep_of_agree {x : ReadM α} {Q : α → Cursor → (ι → Cursor) → Prop}
    (h : ∀ r : Reader, ∃ y, Lockstep C escapes plain beyond P y Q ∧
      ∀ c, x { r with cursor := c } = y { r with cursor := c }) :
    Lockstep C escapes plain beyond P x Q := by
  refine Coupled.of_agree (fun r R hr => ?_) fun r => ?_
  · obtain ⟨S, rfl, _⟩ := hr
    obtain ⟨y, hy, hxy⟩ := h r
    exact ⟨y, hy, hxy r.cursor, fun i => hxy (S i)⟩
  · obtain ⟨y, hy, hxy⟩ := h r
    exact ⟨y, hy, hxy r.cursor⟩

include K in
theorem lockstep_fail {error : Location → ReadError} (h : ∀ l, Plain plain (error l))
    (Q : α → Cursor → (ι → Cursor) → Prop) :
    Lockstep C escapes plain beyond C (fail error) Q where
  tie r R hr := by
    change Tie _ _ _ _ (.error (error r.location) r) fun i => .error (error (R i).location) (R i)
    simp only [hr.location K]
    exact .error ⟨hr, h _⟩
  keeps _ h := h

include K in
theorem lockstep_lex {x : LexM α} {Q : α → Cursor → (ι → Cursor) → Prop}
    (hx : LexM.Lockstep C escapes plain beyond P x Q) :
    Lockstep C escapes plain beyond P (lex x) Q where
  tie r R hr := by
    obtain ⟨S, rfl, hP⟩ := hr
    have tie := hx.tie _ _ hP
    simp only [lex]
    generalize x r.cursor = result at tie ⊢
    generalize h : (fun i => x (S i)) = results at tie
    cases tie with
    | @ok a t T hQ =>
        simp only [fun i => show x (S i) = _ from congrFun h i]
        exact .ok ⟨T, rfl, hQ⟩
    | @error f t T hE =>
        simp only [fun i => show x (S i) = _ from congrFun h i]
        have linked : Linked C { r with cursor := t } fun i => { r with cursor := T i } :=
          ⟨T, rfl, hE.1⟩
        simp only [fun i => show ({ r with cursor := T i } : Reader).location = _ from
          linked.location K i]
        exact .error ⟨linked, plain_ofFault hE.2⟩
    | escape i he hr =>
        refine .escape i ⟨_, _, rfl, he⟩ ?_
        rw [← congrFun h i] at hr
        cases hi : x (S i) with
        | ok a t => simpa only [hi, final] using hr
        | error f t => simpa only [hi, final] using hr
  keeps r h := by
    have keep := hx.keeps r.cursor h
    simp only [lex]
    cases hc : x r.cursor with
    | ok a t => simpa only [hc, final] using keep
    | error f t => simpa only [hc, final] using keep

theorem plain_unexpected (expected : Expectation) (actual : Token) (l : Location) :
    Plain plain (.unexpected expected actual l) := by
  intro f _ h
  cases f <;> cases h

/-! Finding and lexing the next unit. -/

section
include K

theorem steady_nextItem (lenient : Bool) : Steady C escapes plain beyond (nextItem lenient) := by
  refine lockstep_lex K (Coupled.bind (LexM.lockstep_skipBlankToByte K lenient) fun b => ?_)
  have answer (l : Lexeme) : LexM.Lockstep C escapes plain beyond C (pure l) fun _ => C :=
    Coupled.pure fun _ _ h => h
  have failing (fault : SyntaxFault) :
      LexM.Lockstep C escapes plain beyond (Facing C) (LexM.fail fault : LexM Lexeme) fun _ => C :=
    (LexM.lockstep_fail K fault _).weaken (fun _ _ h => h.1) fun _ _ _ h => h
  split
  · exact LexM.lockstep_advance_then K (answer _)
  · split
    · refine LexM.lockstep_advance_then K
        (Coupled.bind (LexM.lockstep_skipBlankToByte K lenient) fun b => ?_)
      split
      · split
        · exact LexM.lockstep_advance_then K (answer _)
        · exact failing _
      · exact LexM.lockstep_value K lenient b
    · exact failing _

theorem steady_firstItem (lenient : Bool) : Steady C escapes plain beyond (firstItem lenient) := by
  refine lockstep_lex K (Coupled.bind (LexM.lockstep_skipBlankToByte K lenient) fun b => ?_)
  split
  · exact LexM.lockstep_advance_then K (Coupled.pure fun _ _ h => h)
  · exact LexM.lockstep_value K lenient b

theorem lockstep_findMember (lenient first : Bool) :
    Lockstep C escapes plain beyond C (findMember lenient first)
      fun a c S => C c S ∧ (a.isSome → c.unread ≠ [] ∧ ∀ i, (S i).unread ≠ []) := by
  refine lockstep_lex K (Coupled.bind (LexM.lockstep_skipBlankToByte K lenient) fun b => ?_)
  have answer : LexM.Lockstep C escapes plain beyond C (pure none : LexM (Option UInt8))
      fun a c S => C c S ∧ (a.isSome → c.unread ≠ [] ∧ ∀ i, (S i).unread ≠ []) :=
    Coupled.pure fun _ _ h => ⟨h, by simp⟩
  have found (b : UInt8) : LexM.Lockstep C escapes plain beyond (Facing C) (pure (some b))
      fun a c S => C c S ∧ (a.isSome → c.unread ≠ [] ∧ ∀ i, (S i).unread ≠ []) :=
    Coupled.pure fun _ _ h => ⟨h.1, fun _ => h.2⟩
  have failing (fault : SyntaxFault) :
      LexM.Lockstep C escapes plain beyond (Facing C) (LexM.fail fault : LexM (Option UInt8))
        fun a c S => C c S ∧ (a.isSome → c.unread ≠ [] ∧ ∀ i, (S i).unread ≠ []) :=
    (LexM.lockstep_fail K fault _).weaken (fun _ _ h => h.1) fun _ _ _ h => h
  split
  · exact LexM.lockstep_advance_then K answer
  · split
    · exact found b
    · split
      · refine LexM.lockstep_advance_then K
          (Coupled.bind (LexM.lockstep_skipBlankToByte K lenient) fun b => ?_)
        split
        · split
          · exact LexM.lockstep_advance_then K answer
          · exact failing _
        · exact found b
      · exact failing _

theorem steady_memberValue (lenient : Bool) :
    Steady C escapes plain beyond (memberValue lenient) := by
  refine lockstep_lex K (Coupled.bind (LexM.lockstep_skipBlankToByte K lenient) fun b => ?_)
  split
  · exact LexM.lockstep_advance_then K
      (Coupled.bind (LexM.lockstep_skipBlankToByte K lenient) fun b =>
        LexM.lockstep_value K lenient b)
  · exact (LexM.lockstep_fail K _ _).weaken (fun _ _ h => h.1) fun _ _ _ h => h

theorem steady_topValue (lenient : Bool) : Steady C escapes plain beyond (topValue lenient) :=
  lockstep_lex K
    (Coupled.bind (LexM.lockstep_skipBlankToByte K lenient) fun b =>
      LexM.lockstep_value K lenient b)

theorem steady_afterTopValue (lenient : Bool) :
    Steady C escapes plain beyond (afterTopValue lenient) := by
  refine lockstep_lex K (Coupled.bind (LexM.lockstep_skipBlank K lenient) fun a => ?_)
  cases a with
  | none => exact Coupled.pure fun _ _ h => h.1
  | some b =>
      dsimp only
      split
      · exact (LexM.lockstep_value K lenient b).weaken (fun _ _ h => ⟨h.1, h.2 rfl⟩)
          fun _ _ _ h => h
      · exact (LexM.lockstep_fail K _ _).weaken (fun _ _ h => h.1) fun _ _ _ h => h

theorem steady_member (lenient first : Bool) (last : Option String) :
    Steady C escapes plain beyond (member lenient first last) := by
  refine Coupled.bind (lockstep_findMember K lenient first) fun a => ?_
  cases a with
  | none => exact (lockstep_pure _).weaken (fun _ _ h => h.weaken fun _ _ h => h.1) fun _ _ _ h => h
  | some b =>
      refine Coupled.bind (lockstep_modify (fun _ _ => rfl) fun _ => rfl) fun _ => ?_
      exact (lockstep_lex K (LexM.lockstep_name K lenient b)).weaken
        (fun _ _ h => h.weaken fun _ _ h => ⟨h.1, h.2 rfl⟩) fun _ _ _ h => h

theorem steady_nextLexeme : Steady C escapes plain beyond nextLexeme := by
  refine lockstep_of_agree fun r => ?_
  have moved {g : Reader → Reader} {x : ReadM Lexeme}
      (hg : ∀ r c, g { r with cursor := c } = { g r with cursor := c })
      (hc : ∀ r, (g r).cursor = r.cursor) (hx : Steady C escapes plain beyond x) :
      Steady C escapes plain beyond (do modify g; x) :=
    Coupled.bind (lockstep_modify hg hc) fun _ => hx
  obtain ⟨x, q, look, -⟩ := exists_lookup r
  cases look with
  | topValue outside fresh =>
      refine ⟨do
          modify fun r => { r with documentStarted := true }
          topValue r.settings.lenient,
        moved (fun _ _ => rfl) (fun _ => rfl) (steady_topValue K _), fun c => ?_⟩
      exact nextLexeme_topValue (r := { r with cursor := c }) outside fresh
  | afterTopValue outside started =>
      exact ⟨_, steady_afterTopValue K r.settings.lenient,
        fun c => nextLexeme_afterTopValue (r := { r with cursor := c }) outside started⟩
  | @firstItem index _ within =>
      refine ⟨do
          modify fun r => r.setContainer (.array true index)
          firstItem r.settings.lenient,
        moved (fun _ _ => rfl) (fun _ => rfl) (steady_firstItem K _), fun c => ?_⟩
      exact nextLexeme_firstItem (r := { r with cursor := c }) within
  | nextItem within =>
      exact ⟨_, steady_nextItem K r.settings.lenient,
        fun c => nextLexeme_nextItem (r := { r with cursor := c }) within⟩
  | @memberValue last _ within =>
      refine ⟨do
          modify fun r => r.setContainer (.object .nonEmpty last)
          memberValue r.settings.lenient,
        moved (fun _ _ => rfl) (fun _ => rfl) (steady_memberValue K _), fun c => ?_⟩
      exact nextLexeme_memberValue (r := { r with cursor := c }) within
  | @member phase last _ unnamed within =>
      exact ⟨_, steady_member K r.settings.lenient (phase = .empty) last,
        fun c => nextLexeme_member (r := { r with cursor := c }) unnamed within⟩

theorem steady_peekLexeme : Steady C escapes plain beyond peekLexeme := by
  refine lockstep_of_agree fun r => ?_
  obtain ⟨lookahead, hl⟩ : ∃ lookahead, r.lookahead = lookahead := ⟨_, rfl⟩
  cases lookahead with
  | some l =>
      exact ⟨_, lockstep_pure l, fun c => peekLexeme_of_some (r := { r with cursor := c }) hl⟩
  | none =>
      refine ⟨do let l ← nextLexeme; modify fun r => { r with lookahead := some l }; pure l, ?_,
        fun c => peekLexeme_of_none (r := { r with cursor := c }) hl⟩
      exact Coupled.bind (steady_nextLexeme K) fun l =>
        Coupled.bind (lockstep_modify (fun _ _ => rfl) fun _ => rfl) fun _ => lockstep_pure l

theorem steady_peek : Steady C escapes plain beyond peek :=
  Coupled.bind (steady_peekLexeme K) fun l => lockstep_pure l.token

theorem steady_hasNext : Steady C escapes plain beyond hasNext := by
  refine Coupled.bind (steady_peekLexeme K) fun l => ?_
  cases l <;> exact lockstep_pure _

/-! Consuming the next unit. -/

theorem steady_expect (expected : Expectation) (select : Lexeme → Option α) :
    Steady C escapes plain beyond (expect expected select) := by
  refine Coupled.bind (steady_peekLexeme K) fun l => ?_
  cases select l with
  | some a => exact lockstep_pure a
  | none => exact lockstep_fail K (plain_unexpected expected l.token) _

theorem steady_take (l : Lexeme) : Steady C escapes plain beyond (take l) :=
  Coupled.bind (steady_expect K _ _) fun _ => lockstep_modify (fun _ _ => rfl) fun _ => rfl

theorem steady_enter (container : Container) :
    Steady C escapes plain beyond (enter container) := by
  refine lockstep_of_agree fun r => ?_
  obtain ⟨room, hr⟩ : ∃ room, r.room = room := ⟨_, rfl⟩
  cases room with
  | zero =>
      exact ⟨_, lockstep_fail K (fun l => plain_ofFault (K.intrinsic (f := .text _) trivial)) _,
        fun c => enter_of_zero (r := { r with cursor := c }) hr⟩
  | succ room =>
      refine ⟨modify fun r => { r with containers := container :: r.containers, room := room },
        lockstep_modify (fun _ _ => rfl) fun _ => rfl, fun c => ?_⟩
      exact enter_of_succ (r := { r with cursor := c }) hr

omit K in
theorem steady_endValue : Steady C escapes plain beyond (modify Reader.endValue) :=
  lockstep_modify Reader.endValue_withCursor Reader.endValue_cursor

omit K in
theorem steady_endScalar : Steady C escapes plain beyond (modify Reader.endScalar) :=
  lockstep_modify (fun r c => Reader.endValue_withCursor { r with lookahead := none } c)
    fun r => Reader.endValue_cursor { r with lookahead := none }

omit K in
theorem steady_endContainer : Steady C escapes plain beyond (modify Reader.endContainer) :=
  lockstep_modify
    (fun r c => Reader.endValue_withCursor
      { r with containers := r.containers.tail, room := r.room + 1 } c)
    fun r => Reader.endValue_cursor { r with containers := r.containers.tail, room := r.room + 1 }

theorem steady_beginObject : Steady C escapes plain beyond beginObject :=
  Coupled.bind (steady_take K _) fun _ => steady_enter K _

theorem steady_endObject : Steady C escapes plain beyond endObject :=
  Coupled.bind (steady_take K _) fun _ => steady_endContainer

theorem steady_beginArray : Steady C escapes plain beyond beginArray :=
  Coupled.bind (steady_take K _) fun _ => steady_enter K _

theorem steady_endArray : Steady C escapes plain beyond endArray :=
  Coupled.bind (steady_take K _) fun _ => steady_endContainer

theorem steady_nextName : Steady C escapes plain beyond nextName := by
  refine Coupled.bind (steady_expect K _ _) fun name =>
    Coupled.bind ?_ fun _ => lockstep_pure name
  apply lockstep_modify
  · exact fun r c => Reader.nameMember_withCursor { r with lookahead := none } c name
  · exact fun r => Reader.nameMember_cursor { r with lookahead := none } name

theorem steady_takeScalar (expected : Token) (select : Lexeme → Option α) :
    Steady C escapes plain beyond (takeScalar expected select) :=
  Coupled.bind (steady_expect K _ _) fun a => Coupled.bind steady_endScalar fun _ => lockstep_pure a

theorem steady_nextNull : Steady C escapes plain beyond nextNull :=
  Coupled.bind (steady_take K _) fun _ => steady_endValue

theorem steady_skipRound (depth : Nat) : Steady C escapes plain beyond (skipRound depth) := by
  have failing (l : Lexeme) :
      Steady C escapes plain beyond (fail (.unexpected .value l.token) : ReadM (Option Nat)) :=
    lockstep_fail K (plain_unexpected .value l.token) _
  refine Coupled.bind (steady_peekLexeme K) fun l => ?_
  split
  · exact Coupled.bind (steady_beginObject K) fun _ => lockstep_pure _
  · exact Coupled.bind (steady_beginArray K) fun _ => lockstep_pure _
  · exact Coupled.bind (steady_endObject K) fun _ => lockstep_pure _
  · exact Coupled.bind (steady_endArray K) fun _ => lockstep_pure _
  · exact Coupled.bind (steady_nextName K) fun _ => lockstep_pure _
  · exact Coupled.bind steady_endScalar fun _ => lockstep_pure _
  · exact Coupled.bind steady_endScalar fun _ => lockstep_pure _
  · exact Coupled.bind steady_endScalar fun _ => lockstep_pure _
  · exact Coupled.bind steady_endScalar fun _ => lockstep_pure _
  · exact failing _

theorem steady_skipWithin (fuel depth : Nat) :
    Steady C escapes plain beyond (skipWithin fuel depth) := by
  induction fuel generalizing depth with
  | zero => exact lockstep_pure ()
  | succ fuel ih =>
      refine Coupled.bind (steady_skipRound K depth) fun a => ?_
      cases a with
      | none => exact lockstep_pure ()
      | some d => exact ih d

/-- Rounds enough for all the readers leave the fuel out of the matter. -/
theorem steady_skipValue : Steady C escapes plain beyond skipValue := by
  have enough {r : Reader} {n : Nat} (h : r.unitsLeft < n) : skipValue r = skipWithin n 0 r :=
    skipWithin_congr (Nat.lt_succ_self _) h
  refine Coupled.of_agree (fun r R hr => ?_) fun r => ?_
  · obtain ⟨S, rfl, hC⟩ := hr
    obtain ⟨n, hn⟩ := K.bounded hC
    have bound (i : ι) : ({ r with cursor := S i } : Reader).unitsLeft < r.unitsLeft + n + 1 := by
      have := hn i
      simp only [Reader.unitsLeft]
      omega
    exact ⟨skipWithin (r.unitsLeft + n + 1) 0, steady_skipWithin K _ _, enough (by omega),
      fun i => enough (bound i)⟩
  · exact ⟨_, steady_skipWithin K _ _, enough (Nat.lt_succ_self _)⟩

/-! Typed reading of scalars. -/

theorem steady_convert (text target : String) (r : Except Number.ConversionFault α) :
    Steady C escapes plain beyond (convert text target r) := by
  have invalid : ∀ l, Plain plain (.invalidNumber text target l) := fun l f _ h => by
    cases f <;> cases h
  have range : ∀ l, Plain plain (.outOfRange text target l) := fun l f _ h => by
    cases f <;> cases h
  rcases r with (_ | _) | a
  · exact lockstep_fail K invalid _
  · exact lockstep_fail K range _
  · exact lockstep_pure a

theorem steady_nextInteger (type : Number.IntegerType) :
    Steady C escapes plain beyond (nextInteger type) := by
  refine Coupled.bind (steady_takeScalar K _ _) fun text =>
    Coupled.bind (steady_convert K _ _ _) fun n => ?_
  split
  · exact lockstep_pure n
  · exact lockstep_fail K (fun l f _ h => by cases f <;> cases h) _

theorem steady_nextDouble : Steady C escapes plain beyond nextDouble :=
  lockstep_of_agree fun r =>
    ⟨do let text ← nextNumberText
        convert text Number.doubleName (Number.toDouble r.settings.lenient text),
      Coupled.bind (steady_takeScalar K _ _) fun _ => steady_convert K _ _ _, fun _ => rfl⟩

theorem steady_nextScalar (type : ScalarType) :
    Steady C escapes plain beyond (nextScalar type) := by
  cases type with
  | integer type => exact Coupled.bind (steady_nextInteger K type) fun _ => lockstep_pure _
  | single =>
      exact Coupled.bind (Coupled.bind (steady_nextDouble K) fun _ => lockstep_pure _)
        fun _ => lockstep_pure _
  | double => exact Coupled.bind (steady_nextDouble K) fun _ => lockstep_pure _
  | boolean => exact Coupled.bind (steady_takeScalar K _ _) fun _ => lockstep_pure _
  | text => exact Coupled.bind (steady_takeScalar K _ _) fun _ => lockstep_pure _

theorem steady_orNull {x : ReadM α} (hx : Steady C escapes plain beyond x) :
    Steady C escapes plain beyond (orNull x) := by
  refine Coupled.bind (steady_peek K) fun t => ?_
  split
  · exact Coupled.bind (steady_nextNull K) fun _ => lockstep_pure _
  · exact Coupled.bind hx fun _ => lockstep_pure _

end

end ReadM

end TypedJson
