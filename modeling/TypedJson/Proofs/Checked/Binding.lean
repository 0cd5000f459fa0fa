import TypedJson.Proofs.Checked.Schema
import TypedJson.Proofs.Schema.Fuel

/-!
# Typed reading with checks comes to what it comes to without

The loops over elements go on for as many rounds as there are units at most, since every round takes
one, and calls are nested as deep at most, since every record takes one.
-/

set_option autoImplicit false
set_option relaxedAutoImplicit false

namespace TypedJson

open Operation
open BindM (Shrinks)

variable {α β κ : Type} {o : Origin} {budget n fuel : Nat}

/-- The units consumed keep to the budget, and fewer than a number are left. -/
def Few (o : Origin) (budget n : Nat) (m : StackReader) (r : Reader) : Prop :=
  Counted o budget m r ∧ r.unitsLeft < n

def Beside (P : StackReader → Reader → Prop) (s : StackReader × β) (t : Reader × β) : Prop :=
  P s.1 t.1 ∧ s.2 = t.2

namespace CheckedBindM

variable {P E : StackReader → Reader → Prop} {Q : α → StackReader → Reader → Prop}

theorem realizes_read {x : CheckedReadM α} {y : ReadM α} (hx : Realizes P x y Q E) :
    Realizes P (read x) (BindM.read y) Q E := by
  intro m r h
  have run := hx m r h
  unfold read CheckedM.onPart BindM.read
  dsimp only [id]
  generalize x m = outcome at run ⊢
  generalize y r = result at run ⊢
  cases run with
  | ok h => exact .ok h
  | error h => exact .error h

theorem realizes_within {x : CheckedBindM α} {y : BindM α} (hx : Realizes P x y Q E)
    (context : Option String) (name : String) :
    Realizes P (within context name x) (BindM.within context name y) Q E := by
  intro m r h
  have run := hx m r h
  unfold within BindM.within
  generalize x m = outcome at run ⊢
  generalize y r = result at run ⊢
  cases run with
  | ok h => cases context <;> exact .ok h
  | error h => cases context <;> exact .error h

theorem realizes_resolve (s : Schema κ) (hE : ∀ m r, P m r → E m r) :
    Realizes P (resolve s) (BindM.resolve s) (fun _ => P) E := by
  unfold resolve BindM.resolve
  cases s.descriptor with
  | ok d => exact Realizes.pure fun _ _ h => h
  | error fault => exact Realizes.fail hE

theorem realizes_collecting {x : CheckedFillM β Unit} {y : FillM β Unit}
    {R : StackReader → Reader → Prop}
    (hx : Realizes (Beside P) x y (fun _ => Beside R) (Beside E)) (start : β) :
    Realizes P (collecting start x) (BindM.collecting start y) (fun _ => R) E := by
  intro m r h
  have run := hx (m, start) (r, start) ⟨h, rfl⟩
  unfold collecting BindM.collecting
  generalize x (m, start) = outcome at run ⊢
  generalize y (r, start) = result at run ⊢
  cases run with
  | @ok a s t h =>
      obtain ⟨m', b⟩ := s
      obtain ⟨r', b'⟩ := t
      obtain ⟨h, rfl⟩ := h
      exact .ok h
  | @error e s t h => exact .error h.1

end CheckedBindM

namespace CheckedFillM

variable {P E : StackReader → Reader → Prop} {Q : α → StackReader → Reader → Prop}

theorem realizes_typed {x : CheckedBindM α} {y : BindM α} (hx : Realizes P x y Q E) :
    Realizes (Beside (β := β) P) (typed x) (FillM.typed y) (fun a => Beside (Q a)) (Beside E) := by
  rintro ⟨m, b⟩ ⟨r, _⟩ ⟨h, rfl⟩
  have run := hx m r h
  unfold typed CheckedM.onPart FillM.typed
  dsimp only
  generalize x m = outcome at run ⊢
  generalize y r = result at run ⊢
  cases run with
  | ok h => exact .ok ⟨h, rfl⟩
  | error h => exact .error ⟨h, rfl⟩

theorem realizes_read {x : CheckedReadM α} {y : ReadM α} (hx : Realizes P x y Q E) :
    Realizes (Beside (β := β) P) (read x) (FillM.read y) (fun a => Beside (Q a)) (Beside E) :=
  realizes_typed (CheckedBindM.realizes_read hx)

theorem realizes_update (f : β → β) :
    Realizes (Beside P) (update f) (FillM.update f) (fun _ => Beside P) (Beside E) :=
  Realizes.modify fun _ _ h => ⟨h.1, congrArg f h.2⟩

end CheckedFillM

/-! Units that are left. -/

theorem Few.mono {k : Nat} {m : StackReader} {r : Reader} (h : Few o budget k m r) (le : k ≤ n) :
    Few o budget n m r :=
  ⟨h.1, Nat.lt_of_lt_of_le h.2 le⟩

namespace CheckedReadM

variable {x : CheckedReadM α} {y : ReadM α}

theorem realizes_keeping (hx : Follows o budget x y)
    (hy : ∀ k, Ensures (fun r => r.unitsLeft ≤ k) y fun _ r => r.unitsLeft ≤ k) :
    Realizes (Few o budget n) x y (fun _ => Few o budget n) (Counted o budget) := by
  have keeps : Ensures (fun r => r.unitsLeft < n) y fun _ r => r.unitsLeft < n :=
    fun r a r' few run => Nat.lt_of_le_of_lt (hy _ r a r' (Nat.le_refl _) run) few
  exact (Realizes.starting hx fun _ _ h => h.1).ensuring keeps
    fun _ _ h => h.2

theorem realizes_taking (hx : Follows o budget x y)
    (hy : ∀ k, Ensures (fun r => r.unitsLeft ≤ k) y fun _ r => r.unitsLeft < k) :
    Realizes (Few o budget (n + 1)) x y (fun _ => Few o budget n) (Counted o budget) := by
  have takes : Ensures (fun r => r.unitsLeft < n + 1) y fun _ r => r.unitsLeft < n :=
    fun r a r' few run =>
      Nat.lt_of_lt_of_le (hy _ r a r' (Nat.le_refl _) run) (Nat.le_of_lt_succ few)
  exact (Realizes.starting hx fun _ _ h => h.1).ensuring takes
    fun _ _ h => h.2

theorem realizes_hasNext :
    Realizes (Few o budget n) hasNext ReadM.hasNext (fun _ => Few o budget n)
      (Counted o budget) := by
  refine realizes_keeping follows_hasNext fun k => (ReadM.ensures_peekLexeme k).bind fun l => ?_
  have answer (b : Bool) : Ensures (fun r => r.unitsLeft ≤ k ∧ r.lookahead = some l)
      (pure b : ReadM Bool) fun _ r => r.unitsLeft ≤ k := .pure fun _ h => h.1
  cases l <;> exact answer _

theorem realizes_peek :
    Realizes (Few o budget n) peek ReadM.peek (fun _ => Few o budget n) (Counted o budget) :=
  realizes_keeping follows_peek fun k => (ReadM.ensures_peekLexeme k).bind fun _ =>
    .pure fun _ h => h.1

theorem realizes_skipValue (enough : n ≤ fuel) :
    Realizes (Few o budget n) skipValue (ReadM.skipWithin fuel 0) (fun _ => Few o budget n)
      (Counted o budget) := by
  have keeps : Ensures (fun r => r.unitsLeft < n) (ReadM.skipWithin fuel 0)
      fun _ r => r.unitsLeft < n :=
    fun r _ r' few run => Nat.lt_of_le_of_lt (Schema.unitsLeft_of_skipWithin run) few
  exact ((realizes_skipFrom fuel 0).starting fun _ _ h =>
    ⟨⟨h.1, Nat.zero_le _⟩, Nat.lt_of_lt_of_le h.2 enough⟩).ensuring keeps fun _ _ h => h.2

end CheckedReadM

namespace CheckedBindM

variable {x : CheckedBindM α} {y : BindM α}

/-- From readers of which one stands for the other, with fewer units left than a number, the checked
operation comes to what the other does, and leaves such readers. -/
def Follows (o : Origin) (budget n : Nat) (x : CheckedBindM α) (y : BindM α) : Prop :=
  Realizes (Few o budget n) x y (fun _ => Counted o budget) (Counted o budget)

theorem Follows.shrinking {k : Nat} (hx : Follows o budget n x y) (shrinks : Shrinks n y)
    (le : k ≤ n) : Realizes (Few o budget k) x y (fun _ => Few o budget (k - 1))
      (Counted o budget) := by
  have takes : Ensures (fun r => r.unitsLeft < k) y fun _ r => r.unitsLeft < k - 1 :=
    fun r a r' few run => Nat.lt_of_lt_of_le (shrinks r a r' (Nat.lt_of_lt_of_le few le) run)
      (Nat.le_sub_one_of_lt few)
  exact (Realizes.starting hx fun _ _ h => h.mono le).ensuring takes
    fun _ _ h => h.2

end CheckedBindM

namespace CheckedFillM

variable {body : CheckedFillM β Unit} {body' : FillM β Unit}

theorem each_step :
    each body = (do
      if ← read CheckedReadM.hasNext then
        body
        each body) := by
  refine (CheckedM.loop_step _ ()).trans ?_
  rw [bind_assoc]
  refine bind_congr fun more => ?_
  cases more with
  | false => rfl
  | true =>
      rw [if_pos rfl, if_pos rfl, bind_assoc]
      rfl

/-- Every round takes a unit, so that units are rounds enough. -/
theorem realizes_each
    (round : ∀ k < n, Realizes (Beside (Few o budget (k + 1))) body body'
      (fun _ => Beside (Few o budget k)) (Beside (Counted o budget)))
    (enough : n ≤ fuel) :
    Realizes (Beside (Few o budget n)) (each body) (FillM.each body' fuel)
      (fun _ => Beside (Counted o budget)) (Beside (Counted o budget)) := by
  induction fuel generalizing n with
  | zero => exact fun _ _ h => absurd (Nat.lt_of_lt_of_le h.1.2 enough) (Nat.not_lt_zero _)
  | succ fuel ih =>
      rw [each_step, FillM.each]
      refine (realizes_read CheckedReadM.realizes_hasNext).bind fun more => ?_
      cases more with
      | false => exact Realizes.pure fun _ _ h => ⟨h.1.1, h.2⟩
      | true =>
          cases n with
          | zero => exact fun _ _ h => absurd h.1.2 (Nat.not_lt_zero _)
          | succ n =>
              exact (round n (Nat.lt_succ_self n)).bind fun _ =>
                ih (fun k less => round k (Nat.lt_succ_of_lt less)) (Nat.le_of_succ_le_succ enough)

theorem realizes_items {x : CheckedBindM α} {y : BindM α}
    (hx : CheckedBindM.Follows o budget n x y) (shrinks : Shrinks n y) (enough : n ≤ fuel) :
    Realizes (Beside (Few o budget n)) (items x) (FillM.items fuel y)
      (fun _ => Beside (Counted o budget)) (Beside (Counted o budget)) := by
  have opening : Realizes (Few o budget n) CheckedReadM.beginArray ReadM.beginArray
      (fun _ => Few o budget n) (Counted o budget) :=
    CheckedReadM.realizes_keeping CheckedReadM.follows_beginArray fun k =>
      (ReadM.ensures_beginArray k).weaken (fun _ h => h) fun _ _ h => Nat.le_of_lt h
  refine (realizes_read opening).bind fun _ => (realizes_each (fun k less => ?_) enough).bind
    fun _ => realizes_read CheckedReadM.follows_endArray
  exact (realizes_typed (hx.shrinking shrinks less)).bind fun v => realizes_update _

end CheckedFillM

namespace CheckedBindM

theorem Follows.itemsAfter {x : CheckedBindM α} {y : BindM α} (hx : Follows o budget n x y)
    (shrinks : Shrinks n y) (enough : n ≤ fuel) (initial : List α) :
    Follows o budget n (itemsAfter initial x) (BindM.itemsAfter fuel initial y) :=
  (realizes_collecting (CheckedFillM.realizes_items hx shrinks enough) _).bind fun _ =>
    Realizes.pure fun _ _ h => h

end CheckedBindM

namespace CheckedFillM

variable [DecidableEq κ] {s : Schema κ} {d : Descriptor κ}
variable {readField : FieldType κ → CheckedBindM (Value κ)}
variable {readField' : FieldType κ → BindM (Value κ)}

theorem realizes_property (hf : ∀ t, CheckedBindM.Follows o budget n (readField t) (readField' t))
    (shrinks : ∀ t, Shrinks n (readField' t)) {k : Nat} (le : k ≤ n) (p : Property κ) :
    Realizes (Beside (Few o budget k)) (property readField s p) (s.fillPropertyBy readField' p)
      (fun _ => Beside (Few o budget k)) (Beside (Counted o budget)) := by
  unfold property Schema.fillPropertyBy
  cases s.readSlot p with
  | none => exact Realizes.pure fun _ _ h => h
  | some slot =>
      have value := (hf slot.type).shrinking (shrinks slot.type) le
      refine (realizes_typed (CheckedBindM.realizes_within value _ _)).bind fun v =>
        (realizes_update _).bind fun _ => Realizes.pure fun _ _ h => ?_
      exact ⟨h.1.mono (Nat.sub_le k 1), h.2⟩

theorem realizes_member (hf : ∀ t, CheckedBindM.Follows o budget n (readField t) (readField' t))
    (shrinks : ∀ t, Shrinks n (readField' t)) (enough : n ≤ fuel) {k : Nat} (less : k < n) :
    Realizes (Beside (Few o budget (k + 1))) (member readField s d)
      (s.fillMemberBy fuel readField' d) (fun _ => Beside (Few o budget k))
      (Beside (Counted o budget)) := by
  have naming : Realizes (Few o budget (k + 1)) CheckedReadM.nextName ReadM.nextName
      (fun _ => Few o budget k) (Counted o budget) :=
    CheckedReadM.realizes_taking CheckedReadM.follows_nextName ReadM.ensures_nextName
  refine (realizes_read naming).bind fun name => ?_
  have rest (handled : Bool) : Realizes (Beside (Few o budget k))
      (if !handled then read CheckedReadM.skipValue else pure ()
        : CheckedFillM (List (Value κ)) Unit)
      (if !handled then FillM.read (ReadM.skipWithin fuel 0) else pure ())
      (fun _ => Beside (Few o budget k)) (Beside (Counted o budget)) := by
    cases handled with
    | true => exact Realizes.pure fun _ _ h => h
    | false => exact realizes_read (CheckedReadM.realizes_skipValue (by omega))
  cases d.find name with
  | none => exact rest false
  | some p => exact (realizes_property hf shrinks (Nat.le_of_lt less) p).bind rest

theorem realizes_object (hf : ∀ t, CheckedBindM.Follows o budget n (readField t) (readField' t))
    (shrinks : ∀ t, Shrinks n (readField' t)) (enough : n ≤ fuel) (s : Schema κ) :
    Realizes (Beside (Few o budget (n + 1))) (object readField s) (s.fillBy fuel readField')
      (fun _ => Beside (Counted o budget)) (Beside (Counted o budget)) := by
  have opening : Realizes (Few o budget (n + 1)) CheckedReadM.beginObject ReadM.beginObject
      (fun _ => Few o budget n) (Counted o budget) :=
    CheckedReadM.realizes_taking CheckedReadM.follows_beginObject ReadM.ensures_beginObject
  refine (realizes_typed (CheckedBindM.realizes_resolve s fun _ _ h => h.1)).bind fun d =>
    (realizes_read opening).bind fun _ =>
      (realizes_each (fun k less => realizes_member hf shrinks enough less) enough).bind fun _ =>
        realizes_read CheckedReadM.follows_endObject

end CheckedFillM

namespace CheckedBindM

variable [DecidableEq κ] {catalog : Catalog κ} {depth : Nat}

theorem follows_object {readField : FieldType κ → CheckedBindM (Value κ)}
    {readField' : FieldType κ → BindM (Value κ)}
    (hf : ∀ t, Follows o budget n (readField t) (readField' t))
    (shrinks : ∀ t, Shrinks n (readField' t)) (enough : n ≤ fuel) (s : Schema κ) :
    Follows o budget (n + 1) (object readField s) (s.readBy fuel readField') :=
  (realizes_collecting (CheckedFillM.realizes_object hf shrinks enough s) _).bind fun _ =>
    Realizes.pure fun _ _ h => h

theorem follows_fieldBy (shallow : n ≤ depth) (enough : n ≤ fuel)
    (hr : ∀ k, Follows o budget n (record catalog depth k)
      (BindM.recordWithin catalog fuel depth k)) (t : FieldType κ) :
    Follows o budget n (fieldBy (record catalog depth) t)
      (BindM.fieldBy fuel (BindM.recordWithin catalog fuel depth) t) := by
  induction t with
  | scalar t =>
      rw [fieldBy, BindM.fieldBy]
      refine Realizes.bind (Q := fun _ => Counted o budget) ?_ fun _ => Realizes.pure fun _ _ h => h
      exact (realizes_read (CheckedReadM.follows_nextScalar t)).starting fun _ _ h => h.1
  | optional t ih =>
      rw [fieldBy, BindM.fieldBy]
      refine (realizes_read CheckedReadM.realizes_peek).bind fun token => ?_
      split
      · refine Realizes.bind (Q := fun _ => Counted o budget) ?_ fun _ =>
          Realizes.pure fun _ _ h => h
        exact (realizes_read CheckedReadM.follows_nextNull).starting fun _ _ h => h.1
      · exact Realizes.bind ih fun _ => Realizes.pure fun _ _ h => h
  | boxed t ih =>
      rw [fieldBy, BindM.fieldBy]
      exact ih
  | list t ih =>
      rw [fieldBy, BindM.fieldBy]
      exact Realizes.bind (ih.itemsAfter (BindM.shrinks_fieldBy shallow enough t) enough [])
        fun _ => Realizes.pure fun _ _ h => h
  | record k =>
      rw [fieldBy, BindM.fieldBy]
      exact hr k

/-- Calls for as many units as are left are nested as deep at most. -/
theorem follows_record (shallow : n ≤ depth) (enough : n ≤ fuel) (k : κ) :
    Follows o budget n (record catalog depth k) (BindM.recordWithin catalog fuel depth k) := by
  induction n generalizing depth k with
  | zero => exact fun _ _ h => absurd h.2 (Nat.not_lt_zero _)
  | succ n ih =>
      obtain ⟨depth, rfl⟩ : ∃ d, depth = d + 1 := ⟨depth - 1, by omega⟩
      have inner (t : FieldType κ) : Follows o budget n (fieldBy (record catalog depth) t)
          (BindM.fieldBy fuel (BindM.recordWithin catalog fuel depth) t) :=
        follows_fieldBy (by omega) (by omega) (fun k => ih (by omega) (by omega) k) t
      exact follows_object inner (fun t => BindM.shrinks_fieldBy (by omega) (by omega) t) (by omega)
        (catalog k)

theorem follows_fieldWithin (catalog : Catalog κ) (t : FieldType κ) :
    Follows o budget depth (field catalog depth t) (BindM.fieldWithin catalog depth t) :=
  follows_fieldBy (Nat.le_refl _) (Nat.le_refl _)
    (follows_record (Nat.le_refl _) (Nat.le_refl _)) t

/-! Calls nested deep enough come to what they come to without checks and without a bound. -/

theorem follows_field (catalog : Catalog κ) (t : FieldType κ) :
    Follows o budget depth (field catalog depth t) (BindM.field catalog t) := by
  intro m r h
  rw [← BindM.fieldWithin_eq_field h.2]
  exact follows_fieldWithin catalog t m r h

theorem follows_collection (catalog : Catalog κ) (t : FieldType κ) (initial : List (Value κ)) :
    Follows o budget depth (collection catalog depth t initial)
      (BindM.collection catalog t initial) := by
  have shrinks (n : Nat) (le : n ≤ depth) :
      Shrinks n (BindM.fieldWithin catalog depth t) := BindM.shrinks_fieldBy le le t
  intro m r h
  have agree : BindM.Agree (r.unitsLeft + 1) (BindM.fieldWithin catalog depth t)
      (BindM.fieldWithin catalog (r.unitsLeft + 1) t) := by
    intro q few
    rw [BindM.fieldWithin_eq_field few, BindM.fieldWithin_eq_field (Nat.lt_of_lt_of_le few h.2)]
  have same := agree.itemsAfter (shrinks _ h.2) h.2 (Nat.le_refl _) initial r (Nat.lt_succ_self _)
  have run := (follows_fieldWithin catalog t).itemsAfter (shrinks _ (Nat.le_refl _))
    (Nat.le_refl _) initial m r h
  rw [same] at run
  exact run

end CheckedBindM

namespace CheckedFillM

variable [DecidableEq κ] {depth : Nat}

theorem realizes_fill (catalog : Catalog κ) (s : Schema κ) :
    Realizes (Beside (Few o budget depth)) (fill catalog depth s) (s.fill catalog)
      (fun _ => Beside (Counted o budget)) (Beside (Counted o budget)) := by
  have shrinks (n : Nat) (le : n ≤ depth) (t : FieldType κ) :
      Shrinks n (BindM.fieldWithin catalog depth t) := BindM.shrinks_fieldBy le le t
  rintro ⟨m, fields⟩ ⟨r, _⟩ ⟨h, rfl⟩
  have agree (t : FieldType κ) : BindM.Agree r.unitsLeft (BindM.fieldWithin catalog depth t)
      (BindM.fieldWithin catalog (r.unitsLeft + 1) t) := by
    intro q few
    rw [BindM.fieldWithin_eq_field (Nat.lt_succ_of_lt few),
      BindM.fieldWithin_eq_field (Nat.lt_trans few h.2)]
  have less := Nat.le_of_lt h.2
  have same : s.fillBy depth (BindM.fieldWithin catalog depth) (r, fields) =
      s.fill catalog (r, fields) :=
    Schema.fillBy_congr agree (shrinks _ less) (Nat.le_refl _) less (Nat.le_succ _)
  rw [← same]
  exact realizes_object (CheckedBindM.follows_fieldWithin catalog) (shrinks _ (Nat.le_refl _))
    (Nat.le_refl _) s (m, fields) (r, fields) ⟨h.mono (Nat.le_succ _), rfl⟩

end CheckedFillM

end TypedJson
