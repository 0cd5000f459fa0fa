import TypedJson.Proofs.Checked.Reading
import TypedJson.Proofs.Reader.Recovery

/-!
# Skipping with checks

The depth within a skipped value never exceeds the number of containers around the reader. It can
therefore be stepped down wherever a container ends, and stepped up wherever one has been entered.
Since every round consumes a unit, the loop without a bound comes to what the bounded one comes to.
-/

set_option autoImplicit false
set_option relaxedAutoImplicit false

namespace TypedJson

open Operation
open CheckedM (demand)

namespace Reader

def Within (depth : Nat) (r : Reader) : Prop :=
  depth ≤ r.containers.length

theorem endValue_length (r : Reader) : r.endValue.containers.length = r.containers.length := by
  unfold endValue
  split
  · rename_i containers
    rw [containers, List.length_cons, List.length_cons]
  · rfl

theorem nameMember_length (r : Reader) (name : String) :
    (r.nameMember name).containers.length = r.containers.length := by
  unfold nameMember
  split
  · rename_i containers
    rw [containers, List.length_cons, List.length_cons]
  · rfl

theorem Within.endContainer {depth : Nat} {r : Reader} (h : r.Within (depth + 1)) :
    r.endContainer.Within depth := by
  rw [Within, Reader.endContainer, endValue_length, List.length_tail]
  exact Nat.le_sub_of_add_le h

end Reader

open Reader (Within)

namespace ReadM

variable {α : Type} {depth : Nat}

theorem within_peekLexeme : Ensures (Within depth) peekLexeme fun _ => Within depth := by
  intro r l r' h look
  rw [Within, Reader.length_of_peekLexeme look]
  exact h

theorem within_expect (expected : Expectation) (select : Lexeme → Option α) :
    Ensures (Within depth) (expect expected select) fun _ => Within depth := by
  refine within_peekLexeme.bind fun l => ?_
  split
  · exact .pure fun _ h => h
  · exact ensures_fail _

theorem within_take (l : Lexeme) : Ensures (Within depth) (take l) fun _ => Within depth :=
  (within_expect _ _).bind fun _ => .modify fun _ h => h

theorem within_enter (c : Container) :
    Ensures (Within depth) (enter c) fun _ => Within (depth + 1) := by
  intro r _ r' h run
  cases room : r.room with
  | zero =>
      rw [enter_of_zero room] at run
      cases run
  | succ n =>
      rw [enter_of_succ room] at run
      cases run
      exact Nat.succ_le_succ h

theorem within_beginObject : Ensures (Within depth) beginObject fun _ => Within (depth + 1) :=
  (within_take _).bind fun _ => within_enter _

theorem within_beginArray : Ensures (Within depth) beginArray fun _ => Within (depth + 1) :=
  (within_take _).bind fun _ => within_enter _

theorem within_endObject : Ensures (Within (depth + 1)) endObject fun _ => Within depth :=
  (within_take _).bind fun _ => .modify fun _ h => h.endContainer

theorem within_endArray : Ensures (Within (depth + 1)) endArray fun _ => Within depth :=
  (within_take _).bind fun _ => .modify fun _ h => h.endContainer

theorem within_nextName : Ensures (Within depth) nextName fun _ => Within depth := by
  refine (within_expect _ _).bind fun name =>
    .bind (.modify fun r h => ?_) fun _ => .pure fun _ h => h
  rw [Within, Reader.nameMember_length]
  exact h

end ReadM

namespace CheckedReadM

variable {α : Type} {o : Origin} {budget depth : Nat}

/-- The reader has that many containers around it for which a skipped value is counted. -/
def Inside (o : Origin) (budget depth : Nat) (m : StackReader) (r : Reader) : Prop :=
  Counted o budget m r ∧ r.Within depth

/-- The value is complete, or the depth to go on with is that of containers around the reader. -/
def Rounded (o : Origin) (budget : Nat) (next : Option Nat) (m : StackReader) (r : Reader) : Prop :=
  Counted o budget m r ∧ ∀ depth, next = some depth → r.Within depth

/-- A container that has been entered is within the limit, which the counter can hold. -/
theorem realizes_raise : Realizes (Inside o budget (depth + 1)) (raise depth)
    (pure (some (depth + 1))) (Rounded o budget) (Counted o budget) := by
  rintro m r ⟨h, within⟩
  have room : depth + 1 ≤ maxDepth :=
    Nat.le_trans within (Nat.le_trans h.represents.depth o.limit)
  unfold raise
  rw [CheckedM.demand_bind room]
  refine .ok ⟨h, fun _ same => ?_⟩
  cases same
  exact within

theorem realizes_lower : Realizes (Inside o budget depth) (lower (depth + 1))
    (pure (if depth = 0 then none else some depth)) (Rounded o budget)
    (Counted o budget) := by
  rintro m r ⟨h, within⟩
  unfold lower
  rw [CheckedM.demand_bind (Nat.le_add_left 1 depth), Nat.add_sub_cancel]
  refine .ok ⟨h, fun _ same => ?_⟩
  split at same
  · cases same
  · cases same
    exact within

theorem realizes_part {x : CheckedReadM α} {y : ReadM α} {f : CheckedReadM (Option Nat)}
    {g : ReadM (Option Nat)} {behind : Nat} {l : Lexeme} (hx : Follows o budget x y)
    (hy : Ensures (Within depth) y fun _ => Within behind)
    (hf : Realizes (Inside o budget behind) f g (Rounded o budget) (Counted o budget)) :
    Realizes (fun m r => (Counted o budget m r ∧ r.lookahead = some l) ∧ r.Within depth)
      (do let _ ← x; f) (do let _ ← y; g) (Rounded o budget) (Counted o budget) :=
  ((Realizes.starting hx fun _ _ h => h.1.1).ensuring hy
    fun _ _ h => h.2).bind fun _ => hf

theorem realizes_scalar {l : Lexeme} (more : l ≠ .endDocument) :
    Realizes (fun m r => (Counted o budget m r ∧ r.lookahead = some l) ∧ r.Within depth)
      (do modify StackReader.consumeScalar; pure (if depth = 0 then none else some depth)
        : CheckedReadM (Option Nat))
      (do modify Reader.endScalar; pure (if depth = 0 then none else some depth))
      (Rounded o budget) (Counted o budget) := by
  refine Realizes.bind (Q := fun _ => Inside o budget depth) (Realizes.modify ?_) fun _ =>
    Realizes.pure ?_
  · rintro m r ⟨⟨h, seen⟩, within⟩
    refine ⟨counted_endScalar h seen more, ?_⟩
    rw [Within, Reader.endScalar, Reader.endValue_length]
    exact within
  · rintro m r ⟨h, within⟩
    refine ⟨h, fun _ same => ?_⟩
    split at same
    · cases same
    · cases same
      exact within

theorem realizes_refusal {l : Lexeme} (error : Location → ReadError) :
    Realizes (fun m r => (Counted o budget m r ∧ r.lookahead = some l) ∧ r.Within depth)
      (fail error) (ReadM.fail error) (Rounded o budget) (Counted o budget) :=
  realizes_fail (fun _ _ h => h.1.1) error

/-- In no round is the depth stepped outside the range of the counter. -/
theorem realizes_skipRound (depth : Nat) :
    Realizes (Inside o budget depth) (skipRound depth) (ReadM.skipRound depth)
      (Rounded o budget) (Counted o budget) := by
  have looking : Realizes (Inside o budget depth) peekLexeme ReadM.peekLexeme
      (fun l m r => (Counted o budget m r ∧ r.lookahead = some l) ∧ r.Within depth)
      (Counted o budget) :=
    (realizes_peekLexeme.starting fun _ _ h => h.1).ensuring
      ReadM.within_peekLexeme fun _ _ h => h.2
  refine looking.bind fun l => ?_
  cases l with
  | beginObject => exact realizes_part follows_beginObject ReadM.within_beginObject realizes_raise
  | beginArray => exact realizes_part follows_beginArray ReadM.within_beginArray realizes_raise
  | endObject =>
      cases depth with
      | zero => exact realizes_refusal _
      | succ d => exact realizes_part follows_endObject ReadM.within_endObject realizes_lower
  | endArray =>
      cases depth with
      | zero => exact realizes_refusal _
      | succ d => exact realizes_part follows_endArray ReadM.within_endArray realizes_lower
  | name s =>
      refine realizes_part follows_nextName ReadM.within_nextName (Realizes.pure ?_)
      rintro m r ⟨h, within⟩
      refine ⟨h, fun _ same => ?_⟩
      cases same
      exact within
  | string s | number s | boolean b | null => exact realizes_scalar nofun
  | endDocument => exact realizes_refusal _

theorem skipFrom_step (depth : Nat) :
    skipFrom depth = (do
      match ← skipRound depth with
      | none => pure ()
      | some d => skipFrom d) := by
  rw [skipFrom, CheckedM.loop_step, bind_assoc]
  refine bind_congr fun next => ?_
  cases next <;> rfl

/-- Fuel for more rounds than there are units is fuel enough. -/
theorem realizes_skipFrom (fuel depth : Nat) :
    Realizes (fun m r => Inside o budget depth m r ∧ r.unitsLeft < fuel) (skipFrom depth)
      (ReadM.skipWithin fuel depth) (fun _ => Counted o budget) (Counted o budget) := by
  induction fuel generalizing depth with
  | zero => exact fun _ r h => absurd h.2 (Nat.not_lt_zero _)
  | succ fuel ih =>
      rw [skipFrom_step, ReadM.skipWithin]
      have round : Realizes (fun m r => Inside o budget depth m r ∧ r.unitsLeft < fuel + 1)
          (skipRound depth) (ReadM.skipRound depth)
          (fun next m r => Rounded o budget next m r ∧ r.unitsLeft < fuel)
          (Counted o budget) :=
        ((realizes_skipRound depth).starting fun _ _ h => h.1).ensuring
          (ReadM.ensures_skipRound depth fuel)
            fun _ _ h => Nat.le_of_lt_succ h.2
      refine round.bind fun next => ?_
      cases next with
      | none => exact Realizes.pure fun _ _ h => h.1.1
      | some d =>
          exact (ih d).starting fun _ _ h => ⟨⟨h.1.1, h.1.2 d rfl⟩, h.2⟩

theorem follows_skipValue : Follows o budget skipValue ReadM.skipValue := by
  intro m r h
  exact realizes_skipFrom (r.unitsLeft + 1) 0 m r
    ⟨⟨h, Nat.zero_le _⟩, Nat.lt_succ_self _⟩

end CheckedReadM

end TypedJson
