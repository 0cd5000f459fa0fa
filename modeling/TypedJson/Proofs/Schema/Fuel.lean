import TypedJson.Proofs.Reader.Passage
import TypedJson.Proofs.Schema.Loop
import TypedJson.Proofs.Schema.Members

set_option autoImplicit false
set_option relaxedAutoImplicit false

namespace TypedJson

open Operation

variable {α β κ : Type} {n fuel fuel' : Nat} {r r' : Reader}

namespace BindM

def Agree (n : Nat) (x x' : BindM α) : Prop :=
  ∀ r, r.unitsLeft < n → x r = x' r

def Shrinks (n : Nat) (x : BindM α) : Prop :=
  ∀ r a r', r.unitsLeft < n → x r = .ok a r' → r'.unitsLeft < r.unitsLeft

variable {x x' : BindM α}

theorem Agree.within (h : Agree n x x') (context : Option String) (name : String) :
    Agree n (within context name x) (within context name x') := by
  intro r few
  simp only [BindM.within, h r few]

end BindM

namespace FillM

open BindM (Agree Shrinks)

variable {x x' : BindM α} {b b' : β}

theorem typed_congr (same : x r = x' r) : (typed x : FillM β α) (r, b) = typed x' (r, b) := by
  simp only [typed, same]

theorem items_congr (agree : Agree n x x') (shrinks : Shrinks n x) (few : r.unitsLeft < n)
    (enough : n ≤ fuel) (enough' : n ≤ fuel') {vs : List α} :
    items fuel x (r, vs) = items fuel' x' (r, vs) := by
  refine bind_congr rfl ?_
  rintro _ ⟨r₁, vs₁⟩ opening
  obtain ⟨begun, rfl⟩ := read_eq_ok opening
  have less := ReadM.ensures_beginArray _ _ _ _ (Nat.le_refl _) begun
  refine bind_congr ?_ fun _ _ _ => rfl
  apply each_congr (n := n)
  · intro r vs few
    exact bind_congr (typed_congr (agree r few)) fun _ _ _ => rfl
  · intro r vs r' vs' few element
    obtain ⟨v, ⟨r₂, vs₂⟩, run, pushed⟩ := bind_eq_ok.mp element
    cases pushed
    exact shrinks r v _ few (typed_eq_ok run).1
  · omega
  · omega
  · omega

end FillM

namespace BindM

variable {x x' : BindM α}

theorem collecting_congr {y y' : FillM β Unit} {start : β} (same : y (r, start) = y' (r, start)) :
    collecting start y r = collecting start y' r := by
  simp only [collecting, same]

theorem Agree.itemsAfter (agree : Agree n x x') (shrinks : Shrinks n x) (enough : n ≤ fuel)
    (enough' : n ≤ fuel') (initial : List α) :
    Agree n (itemsAfter fuel initial x) (itemsAfter fuel' initial x') := by
  intro r few
  refine bind_congr (collecting_congr ?_) fun _ _ _ => rfl
  exact FillM.items_congr agree shrinks few enough enough'

end BindM

namespace Schema

open BindM (Agree Shrinks)

variable [DecidableEq κ] {s : Schema κ} {d : Descriptor κ}
variable {readField readField' : FieldType κ → BindM (Value κ)} {fields fields' : List (Value κ)}

theorem unitsLeft_of_skipWithin {rounds depth : Nat}
    (h : ReadM.skipWithin rounds depth r = .ok () r') : r'.unitsLeft ≤ r.unitsLeft := by
  obtain ⟨evs, consumes⟩ := ReadM.consumes_of_skipWithin h
  exact consumes.unitsLeft_le

theorem shrinks_fillMemberBy (hf : ∀ t, Shrinks n (readField t)) (few : r.unitsLeft < n)
    (h : s.fillMemberBy fuel readField d (r, fields) = .ok () (r', fields')) :
    r'.unitsLeft < r.unitsLeft := by
  rw [fillMemberBy_eq] at h
  obtain ⟨name, ⟨r₁, fields₁⟩, naming, rest⟩ := bind_eq_ok.mp h
  have less := ReadM.ensures_nextName _ _ _ _ (Nat.le_refl _) (FillM.read_eq_ok naming).1
  cases target : s.slotOf d name with
  | none =>
      rw [target] at rest
      have fewer := unitsLeft_of_skipWithin (FillM.read_eq_ok rest).1
      omega
  | some slot =>
      rw [target] at rest
      obtain ⟨v, ⟨r₂, fields₂⟩, reading, updated⟩ := bind_eq_ok.mp rest
      cases updated
      have fewer := hf slot.type r₁ v _ (by omega)
        (BindM.within_eq_ok (FillM.typed_eq_ok reading).1)
      omega

theorem fillMemberBy_congr (agree : ∀ t, Agree n (readField t) (readField' t))
    (few : r.unitsLeft < n) (enough : n ≤ fuel) (enough' : n ≤ fuel') :
    s.fillMemberBy fuel readField d (r, fields) =
      s.fillMemberBy fuel' readField' d (r, fields) := by
  rw [fillMemberBy_eq, fillMemberBy_eq]
  refine bind_congr rfl ?_
  rintro name ⟨r₁, fields₁⟩ naming
  have less := ReadM.ensures_nextName _ _ _ _ (Nat.le_refl _) (FillM.read_eq_ok naming).1
  cases s.slotOf d name with
  | none =>
      have same : ReadM.skipWithin fuel 0 r₁ = ReadM.skipWithin fuel' 0 r₁ :=
        ReadM.skipWithin_congr (by omega) (by omega)
      apply FillM.typed_congr
      simp only [BindM.read, same]
  | some slot =>
      refine bind_congr (FillM.typed_congr ?_) fun _ _ _ => rfl
      exact (agree slot.type).within slot.context name r₁ (by omega)

theorem fillBy_congr (agree : ∀ t, Agree n (readField t) (readField' t))
    (shrinks : ∀ t, Shrinks n (readField t)) (few : r.unitsLeft ≤ n) (enough : n ≤ fuel)
    (enough' : n ≤ fuel') :
    s.fillBy fuel readField (r, fields) = s.fillBy fuel' readField' (r, fields) := by
  refine bind_congr rfl ?_
  rintro d ⟨r₁, fields₁⟩ resolving
  obtain ⟨resolved, rfl⟩ := FillM.typed_eq_ok resolving
  obtain rfl := BindM.state_of_resolve resolved
  refine bind_congr rfl ?_
  rintro _ ⟨r₂, fields₂⟩ opening
  have less := ReadM.ensures_beginObject _ _ _ _ few (FillM.read_eq_ok opening).1
  refine bind_congr ?_ fun _ _ _ => rfl
  apply FillM.each_congr (n := n)
  · intro r fields few
    exact fillMemberBy_congr agree few enough enough'
  · intro r fields r' fields' few member
    exact shrinks_fillMemberBy shrinks few member
  · exact less
  · omega
  · omega

end Schema

namespace BindM

variable [DecidableEq κ] {catalog : Catalog κ}

theorem shrinks_fieldBy {depth : Nat} (shallow : n ≤ depth) (enough : n ≤ fuel)
    (t : FieldType κ) : Shrinks n (fieldBy fuel (recordWithin catalog fuel depth) t) := by
  intro r v r' few h
  have takes : Takes r.settings r.unitsLeft (fieldBy fuel (recordWithin catalog fuel depth) t)
      (Assembled catalog r.settings.lenient t) :=
    takes_fieldBy (takes_recordWithin (by omega) (by omega)) t
  obtain ⟨⟨tree, consumes⟩, -⟩ := takes r v r' rfl (Nat.le_refl _) h
  obtain ⟨e, es, head, -⟩ := tree.events_head
  rw [head] at consumes
  exact consumes.unitsLeft_lt

theorem agree_fieldBy {depth depth' : Nat} (shallow : n ≤ depth) (enough : n ≤ fuel)
    (enough' : n ≤ fuel')
    (agree : ∀ k, Agree n (recordWithin catalog fuel depth k)
      (recordWithin catalog fuel' depth' k)) (t : FieldType κ) :
    Agree n (fieldBy fuel (recordWithin catalog fuel depth) t)
      (fieldBy fuel' (recordWithin catalog fuel' depth') t) := by
  induction t with
  | scalar t =>
      rw [fieldBy, fieldBy]
      exact fun _ _ => rfl
  | optional t ih =>
      intro r few
      rw [fieldBy, fieldBy]
      refine bind_congr rfl ?_
      intro token r₁ looking
      obtain ⟨l, r₂, look, ⟨⟩⟩ := bind_eq_ok.mp (read_eq_ok looking)
      have fewer := (ReadM.ensures_peekLexeme _ _ _ _ (Nat.le_refl _) look).1
      split
      · rfl
      · exact bind_congr (ih r₁ (by omega)) fun _ _ _ => rfl
  | boxed t ih =>
      rw [fieldBy, fieldBy]
      exact ih
  | list t ih =>
      intro r few
      rw [fieldBy, fieldBy]
      have items := ih.itemsAfter (shrinks_fieldBy shallow enough t) enough enough' []
      exact bind_congr (items r few) fun _ _ _ => rfl
  | record k =>
      rw [fieldBy, fieldBy]
      exact agree k

theorem agree_recordWithin {depth depth' : Nat} (shallow : n ≤ depth) (shallow' : n ≤ depth')
    (enough : n ≤ fuel) (enough' : n ≤ fuel') (k : κ) :
    Agree n (recordWithin catalog fuel depth k) (recordWithin catalog fuel' depth' k) := by
  induction n generalizing depth depth' k with
  | zero => exact fun r few => absurd few (Nat.not_lt_zero _)
  | succ n ih =>
      obtain ⟨depth, rfl⟩ : ∃ m, depth = m + 1 := ⟨depth - 1, by omega⟩
      obtain ⟨depth', rfl⟩ : ∃ m, depth' = m + 1 := ⟨depth' - 1, by omega⟩
      intro r few
      have inner (t : FieldType κ) : Agree n (fieldBy fuel (recordWithin catalog fuel depth) t)
          (fieldBy fuel' (recordWithin catalog fuel' depth') t) :=
        agree_fieldBy (by omega) (by omega) (by omega)
          (fun k => ih (by omega) (by omega) (by omega) (by omega) k) t
      refine bind_congr (collecting_congr ?_) fun _ _ _ => rfl
      exact Schema.fillBy_congr inner (fun t => shrinks_fieldBy (by omega) (by omega) t)
        (by omega) (by omega) (by omega)

/-- Reading by a type does not depend on its fuel, once that exceeds the units left. -/
theorem fieldBy_eq_field {depth : Nat} {t : FieldType κ} (shallow : r.unitsLeft < depth)
    (enough : r.unitsLeft < fuel) :
    fieldBy fuel (recordWithin catalog fuel depth) t r = field catalog t r := by
  have few := Nat.lt_succ_self r.unitsLeft
  have agree (k : κ) : Agree (r.unitsLeft + 1) (recordWithin catalog fuel depth k)
      (recordWithin catalog (r.unitsLeft + 1) (r.unitsLeft + 1) k) :=
    agree_recordWithin shallow (Nat.le_refl _) enough (Nat.le_refl _) k
  exact agree_fieldBy shallow enough (Nat.le_refl _) agree t r few

theorem fieldWithin_eq_field {t : FieldType κ} (enough : r.unitsLeft < fuel) :
    fieldWithin catalog fuel t r = field catalog t r :=
  fieldBy_eq_field enough enough

end BindM

end TypedJson
