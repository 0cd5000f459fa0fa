import TypedJson.Proofs.Reader.Decoding
import TypedJson.Proofs.Schema.Fuel

set_option autoImplicit false
set_option relaxedAutoImplicit false

namespace TypedJson

open Operation
open Reader (Consumes)
open ReadM (nextEvent peekLexeme)

/-! The function of the tree. -/

section

variable {κ : Type}

/-- Decoding by a type, given whether the value is null, and what it is as a scalar, as a list and
as a record. -/
def FieldType.decodeBy (null : Bool) (scalar : ScalarType → Option Scalar)
    (list : FieldType κ → Option (List (Value κ))) (record : κ → Option (Value κ)) :
    FieldType κ → Option (Value κ)
  | .scalar t => (scalar t).map .scalar
  | .optional t =>
      if null then some .absent else (decodeBy null scalar list record t).map .present
  | .boxed t => decodeBy null scalar list record t
  | .list t => (list t).map .list
  | .record k => record k

variable [DecidableEq κ] (catalog : Catalog κ) (lenient : Bool)

mutual

/-- The value of a type that a tree stands for, if there is one. -/
def Tree.decode : Tree → FieldType κ → Option (Value κ)
  | .object members, t =>
      t.decodeBy false (ScalarType.decode lenient none none) (fun _ => none) fun k => do
        let d ← (catalog k).descriptor.toOption
        let fields ← decodeMembers (catalog k) d members ((catalog k).fields.map Field.initial)
        some (.record (catalog k).key fields)
  | .array items, t =>
      t.decodeBy false (ScalarType.decode lenient none none) (fun t => decodeItems t items)
        fun _ => none
  | .string text, t =>
      t.decodeBy false (ScalarType.decode lenient (some text) none) (fun _ => none) fun _ => none
  | .number literal, t =>
      t.decodeBy false (ScalarType.decode lenient (some literal) none) (fun _ => none)
        fun _ => none
  | .boolean value, t =>
      t.decodeBy false (ScalarType.decode lenient none (some value)) (fun _ => none) fun _ => none
  | .null, t =>
      t.decodeBy true (ScalarType.decode lenient none none) (fun _ => none) fun _ => none

/-- The values of a type that the items of an array stand for. -/
def Tree.decodeItems (t : FieldType κ) : List Tree → Option (List (Value κ))
  | [] => some []
  | item :: items => do
      let v ← item.decode t
      let vs ← decodeItems t items
      some (v :: vs)

def Tree.decodeMembers (s : Schema κ) (d : Descriptor κ) :
    List (String × Tree) → List (Value κ) → Option (List (Value κ))
  | [], fields => some fields
  | (name, value) :: members, fields =>
      match s.slotOf d name with
      | some slot => do
          let v ← value.decode slot.type
          decodeMembers s d members (fields.set slot.position v)
      | none => decodeMembers s d members fields

end

end

/-! What operations come to if they succeed. -/

section

variable {α β : Type} {r r₁ r' : Reader} {l : Lexeme} {a : α} {b : β}

theorem BindM.success?_read (x : ReadM α) (r : Reader) : success? (read x r) = success? (x r) := by
  unfold read
  cases x r <;> rfl

theorem BindM.success?_within (context : Option String) (name : String) (x : BindM α)
    (r : Reader) : success? (within context name x r) = success? (x r) := by
  unfold within
  cases x r with
  | ok a r' => cases context <;> rfl
  | error e r' => cases context <;> rfl

theorem BindM.success?_collecting (start : β) (x : FillM β Unit) (r : Reader) :
    success? (collecting start x r) =
      (success? (x (r, start))).map fun p => (p.2.2, p.2.1) := by
  unfold collecting
  cases x (r, start) <;> rfl

theorem FillM.success?_typed (x : BindM α) (r : Reader) (b : β) :
    success? ((typed x : FillM β α) (r, b)) = (success? (x r)).map fun p => (p.1, p.2, b) := by
  unfold typed
  dsimp only
  cases x r <;> rfl

theorem FillM.read_of_ok {x : ReadM α} (h : x r = .ok a r') :
    (read x : FillM β α) (r, b) = .ok a (r', b) := by
  simp only [read, typed, BindM.read, h]

/-- The loop over elements and what closes the container come to a fold over the elements, if the
elements, one by one, come to its steps. -/
theorem FillM.success?_each {ι : Type} {units : ι → List Event} {body : FillM β Unit}
    {f : β → ι → Option β} {closing : Event} {close : ReadM Unit} {settings : ReaderSettings}
    {n fuel : Nat} {xs : List ι} (closes : closing.closes = true)
    (closed : ∀ r r', nextEvent r = .ok (some closing) r' → close r = .ok () r')
    (opens : ∀ x, ∃ e es, units x = e :: es ∧ e.closes = false)
    (step : ∀ x ∈ xs, ∀ r r₁ r' l b, r.settings = settings → r.unitsLeft < n →
      Consumes (units x) r r' → peekLexeme r = .ok l r₁ →
      success? (body (r₁, b)) = (f b x).map fun b' => ((), r', b'))
    (same : r.settings = settings) (few : r.unitsLeft < n) (enough : r.unitsLeft < fuel)
    (h : Consumes (xs.flatMap units ++ [closing]) r r') :
    success? ((do each body fuel; read close : FillM β Unit) (r, b)) =
      (xs.foldlM f b).map fun b' => ((), r', b') := by
  induction fuel generalizing r b xs with
  | zero => exact absurd enough (Nat.not_lt_zero _)
  | succ fuel ih =>
      cases xs with
      | nil =>
          cases h with
          | cons last rest =>
              cases rest
              obtain ⟨l, r₁, look, event, -⟩ := ReadM.nextEvent_eq_ok last
              have ends : l.ends = true := (Lexeme.ends_eq_closes event).trans closes
              have again : nextEvent r₁ = .ok (some closing) r' :=
                (ReadM.nextEvent_of_peeked look).symm.trans last
              rw [bind_of_ok (each_of_ends look ends), read_of_ok (closed r₁ r' again)]
              rfl
      | cons x xs =>
          obtain ⟨e, es, head, opening⟩ := opens x
          rw [List.flatMap_cons, List.append_assoc] at h
          obtain ⟨r₂, first, rest⟩ := Reader.consumes_append_iff.mp h
          have kept := first.settings_eq
          have own : Consumes (e :: es) r r₂ := head ▸ first
          have less := own.unitsLeft_lt
          obtain ⟨q, unit⟩ : ∃ q, nextEvent r = .ok (some e) q := by
            cases own with
            | cons unit _ => exact ⟨_, unit⟩
          obtain ⟨l, r₁, look, event, -⟩ := ReadM.nextEvent_eq_ok unit
          have more : l.ends = false := (Lexeme.ends_eq_closes event).trans opening
          have element := step x List.mem_cons_self r r₁ r₂ l b same few first look
          rw [success?_bind, each_of_element look more, success?_bind, element, List.foldlM_cons]
          cases f b x with
          | none => rfl
          | some b' =>
              have later := fun x hx => step x (List.mem_cons_of_mem _ hx)
              have rest := ih later (kept.trans same) (by omega) (by omega) rest (b := b')
              rw [success?_bind] at rest
              exact rest

end

variable {κ : Type} [DecidableEq κ] {catalog : Catalog κ} {r r₁ r' : Reader} {l : Lexeme}

theorem Tree.consumes_peeked {t : Tree} (h : Consumes t.events r r')
    (look : peekLexeme r = .ok l r₁) : Consumes t.events r₁ r' := by
  obtain ⟨e, es, head, -⟩ := t.events_head
  rw [head] at h ⊢
  cases h with
  | cons unit rest => exact .cons ((ReadM.nextEvent_of_peeked look).symm.trans unit) rest

def Tree.Reads (catalog : Catalog κ) (t : Tree) : Prop :=
  ∀ type r r', Consumes t.events r r' → success? (BindM.field catalog type r) =
    (t.decode catalog r.settings.lenient type).map (·, r')

/-! Objects. -/

namespace Schema

variable {s : Schema κ} {d : Descriptor κ} {fuel : Nat} {fields : List (Value κ)}
variable {readField : FieldType κ → BindM (Value κ)}

/-- The fields of a record behind one member of an object. -/
def assign (catalog : Catalog κ) (lenient : Bool) (s : Schema κ) (d : Descriptor κ)
    (fields : List (Value κ)) (m : String × Tree) : Option (List (Value κ)) :=
  match s.slotOf d m.1 with
  | some slot => (m.2.decode catalog lenient slot.type).map fun v => fields.set slot.position v
  | none => some fields

theorem decodeMembers_eq (lenient : Bool) (members : List (String × Tree)) :
    Tree.decodeMembers catalog lenient s d members fields =
      members.foldlM (s.assign catalog lenient d) fields := by
  induction members generalizing fields with
  | nil => rfl
  | cons m members ih =>
      obtain ⟨name, value⟩ := m
      rw [Tree.decodeMembers, List.foldlM_cons, assign]
      cases s.slotOf d name with
      | none => exact ih
      | some slot =>
          dsimp only
          cases value.decode catalog lenient slot.type with
          | none => rfl
          | some v => exact ih

theorem success?_fillMemberBy {m : String × Tree} (reads : m.2.Reads catalog)
    (same : ∀ t q, q.unitsLeft < r.unitsLeft → readField t q = BindM.field catalog t q)
    (few : r.unitsLeft ≤ fuel) (h : Consumes (Tree.ofMember m) r r')
    (look : peekLexeme r = .ok l r₁) :
    success? (s.fillMemberBy fuel readField d (r₁, fields)) =
      (s.assign catalog r.settings.lenient d fields m).map fun fields' => ((), r', fields') := by
  cases h with
  | @cons _ _ _ r₂ _ name value =>
      have less := (Consumes.single name).unitsLeft_lt
      have kept := (Consumes.single name).behind.2
      have again : ReadM.nextName r₁ = .ok m.1 r₂ :=
        ReadM.nextName_of_event ((ReadM.nextEvent_of_peeked look).symm.trans name)
      rw [fillMemberBy_eq, bind_of_ok (FillM.read_of_ok again), assign]
      cases s.slotOf d m.1 with
      | none =>
          have skipped : ReadM.skipWithin fuel 0 r₂ = .ok () r' := by
            rw [ReadM.skipWithin_congr (by omega) (Nat.lt_succ_self r₂.unitsLeft)]
            exact ReadM.skipValue_of_consumes value
          dsimp only
          rw [FillM.read_of_ok skipped]
          rfl
      | some slot =>
          dsimp only
          rw [success?_bind, FillM.success?_typed, BindM.success?_within, same _ _ less,
            reads _ _ _ value, kept]
          cases m.2.decode catalog r.settings.lenient slot.type <;> rfl

theorem fillBy_of_described (described : s.descriptor = .ok d) :
    s.fillBy fuel readField (r, fields) = (do
      FillM.read ReadM.beginObject
      FillM.each (s.fillMemberBy fuel readField d) fuel
      FillM.read ReadM.endObject : FillM (List (Value κ)) Unit) (r, fields) := by
  have resolved : (FillM.typed (BindM.resolve s) : FillM (List (Value κ)) _) (r, fields) =
      .ok d (r, fields) := by
    unfold FillM.typed BindM.resolve
    rw [described]
    rfl
  rw [fillBy, bind_of_ok resolved]

theorem success?_fillBy {members : List (String × Tree)}
    (reads : ∀ m ∈ members, m.2.Reads catalog) (described : s.descriptor = .ok d)
    (same : ∀ t q, q.unitsLeft < r.unitsLeft → readField t q = BindM.field catalog t q)
    (few : r.unitsLeft ≤ fuel) (h : Consumes (Tree.object members).events r r') :
    success? (s.fillBy fuel readField (r, fields)) =
      (members.foldlM (s.assign catalog r.settings.lenient d) fields).map
        fun fields' => ((), r', fields') := by
  rw [Tree.events, Tree.memberEvents_eq] at h
  cases h with
  | @cons _ _ _ r₂ _ opening rest =>
      have less := (Consumes.single opening).unitsLeft_lt
      obtain ⟨-, kept⟩ := (Consumes.single opening).behind
      have begun := FillM.read_of_ok (b := fields) (ReadM.beginObject_of_event opening)
      rw [fillBy_of_described described, bind_of_ok begun, ← kept]
      have step (m : String × Tree) (hm : m ∈ members) (q q₁ q' : Reader) (l : Lexeme)
          (fields : List (Value κ)) (settings : q.settings = r₂.settings)
          (fewer : q.unitsLeft < r.unitsLeft) (member : Consumes (Tree.ofMember m) q q')
          (look : peekLexeme q = .ok l q₁) :
          success? (s.fillMemberBy fuel readField d (q₁, fields)) =
            (s.assign catalog r₂.settings.lenient d fields m).map
              fun fields' => ((), q', fields') := by
        rw [← settings]
        exact success?_fillMemberBy (reads m hm) (fun t q less => same t q (by omega)) (by omega)
          member look
      exact FillM.success?_each rfl (fun _ _ => ReadM.endObject_of_event) Tree.ofMember_opens step
        rfl less (Nat.lt_of_lt_of_le less few) rest

end Schema

/-! Arrays. -/

theorem Tree.foldlM_decode (lenient : Bool) (type : FieldType κ) (items : List Tree)
    (vs : List (Value κ)) :
    items.foldlM (fun vs item => (item.decode catalog lenient type).map (· :: vs)) vs =
      (decodeItems catalog lenient type items).map fun ws => ws.reverse ++ vs := by
  induction items generalizing vs with
  | nil => rfl
  | cons item items ih =>
      rw [List.foldlM_cons, decodeItems]
      cases item.decode catalog lenient type with
      | none => rfl
      | some v =>
          simp only [Option.map_some, bind, Option.bind_some, ih]
          cases decodeItems catalog lenient type items with
          | none => rfl
          | some ws => simp

theorem FillM.success?_items {items : List Tree} {type : FieldType κ} {fuel : Nat}
    {readItem : BindM (Value κ)} {vs : List (Value κ)} (reads : ∀ x ∈ items, x.Reads catalog)
    (same : ∀ q, q.unitsLeft < r.unitsLeft → readItem q = BindM.field catalog type q)
    (few : r.unitsLeft ≤ fuel) (h : Consumes (Tree.array items).events r r') :
    success? (FillM.items fuel readItem (r, vs)) =
      (Tree.decodeItems catalog r.settings.lenient type items).map
        fun ws => ((), r', ws.reverse ++ vs) := by
  rw [Tree.events, Tree.itemEvents_eq] at h
  cases h with
  | @cons _ _ _ r₂ _ opening rest =>
      have less := (Consumes.single opening).unitsLeft_lt
      obtain ⟨-, kept⟩ := (Consumes.single opening).behind
      have begun := FillM.read_of_ok (b := vs) (ReadM.beginArray_of_event opening)
      have step (x : Tree) (hx : x ∈ items) (q q₁ q' : Reader) (l : Lexeme) (vs : List (Value κ))
          (settings : q.settings = r₂.settings) (fewer : q.unitsLeft < r.unitsLeft)
          (item : Consumes x.events q q') (look : peekLexeme q = .ok l q₁) :
          success? (FillM.push readItem (q₁, vs)) =
            ((x.decode catalog r₂.settings.lenient type).map (· :: vs)).map
              fun vs => ((), q', vs) := by
        have seen := Tree.consumes_peeked item look
        have behind := (ReadM.ensures_peekLexeme _ _ _ _ (Nat.le_refl _) look).1
        rw [FillM.push, success?_bind, FillM.success?_typed, same q₁ (by omega),
          reads x hx _ _ _ seen, Reader.settings_of_peekLexeme look, settings]
        cases x.decode catalog r₂.settings.lenient type <;> rfl
      have folded := FillM.success?_each (b := vs) rfl (fun _ _ => ReadM.endArray_of_event)
        Tree.events_opens step rfl less (Nat.lt_of_lt_of_le less few) rest
      rw [FillM.items, bind_of_ok begun, folded, Tree.foldlM_decode, kept, Option.map_map]
      rfl

/-! Values of all types. -/

theorem BindM.field_list (type : FieldType κ) (r : Reader) :
    field catalog (.list type) r = (itemsAfter (r.unitsLeft + 1) []
      (fieldWithin catalog (r.unitsLeft + 1) type) >>= fun vs => pure (.list vs)) r :=
  rfl

theorem BindM.field_record (k : κ) (r : Reader) :
    field catalog (.record k) r = (catalog k).readBy (r.unitsLeft + 1)
      (fieldBy (r.unitsLeft + 1) (recordWithin catalog (r.unitsLeft + 1) r.unitsLeft)) r :=
  rfl

theorem Tree.first_unit {t : Tree} (h : Consumes t.events r r') :
    ∃ e q, nextEvent r = .ok (some e) q ∧ (e = .beginArray → ∃ items, t = .array items) ∧
      (e = .beginObject → ∃ members, t = .object members) := by
  cases t with
  | object members =>
      rw [Tree.events] at h
      cases h with
      | cons unit _ => exact ⟨_, _, unit, nofun, fun _ => ⟨members, rfl⟩⟩
  | array items =>
      rw [Tree.events] at h
      cases h with
      | cons unit _ => exact ⟨_, _, unit, fun _ => ⟨items, rfl⟩, nofun⟩
  | string | number | boolean | null =>
      rw [Tree.events] at h
      cases h with
      | cons unit _ => exact ⟨_, _, unit, nofun, nofun⟩

theorem Tree.list_of_other {t : Tree} {type : FieldType κ} (other : ∀ items, t ≠ .array items)
    (h : Consumes t.events r r') : success? (BindM.field catalog (.list type) r) = none := by
  obtain ⟨e, q, unit, array, -⟩ := first_unit h
  have begun : success? (ReadM.beginArray r) = none := by
    cases run : ReadM.beginArray r with
    | error e r' => rfl
    | ok a r' =>
        cases unit.symm.trans (ReadM.event_of_beginArray run)
        obtain ⟨items, rfl⟩ := array rfl
        exact absurd rfl (other items)
  rw [BindM.field_list, success?_bind, BindM.itemsAfter, success?_bind,
    BindM.success?_collecting, FillM.items, success?_bind, FillM.read, FillM.success?_typed,
    BindM.success?_read, begun]
  rfl

theorem Tree.record_of_other {t : Tree} {k : κ} (other : ∀ members, t ≠ .object members)
    (h : Consumes t.events r r') : success? (BindM.field catalog (.record k) r) = none := by
  obtain ⟨e, q, unit, -, object⟩ := first_unit h
  have begun : success? (ReadM.beginObject r) = none := by
    cases run : ReadM.beginObject r with
    | error e r' => rfl
    | ok a r' =>
        cases unit.symm.trans (ReadM.event_of_beginObject run)
        obtain ⟨members, rfl⟩ := object rfl
        exact absurd rfl (other members)
  rw [BindM.field_record, Schema.readBy, success?_bind, BindM.success?_collecting,
    Schema.fillBy, success?_bind, FillM.success?_typed, BindM.resolve]
  cases (catalog k).descriptor with
  | error fault => rfl
  | ok d =>
      change (Option.map _ (success? ((FillM.read ReadM.beginObject >>= _) _))).bind _ = none
      rw [success?_bind, FillM.read, FillM.success?_typed, BindM.success?_read, begun]
      rfl

theorem Tree.record_of_object {members : List (String × Tree)} {k : κ}
    (reads : ∀ m ∈ members, m.2.Reads catalog)
    (h : Consumes (Tree.object members).events r r') :
    success? (BindM.field catalog (.record k) r) = (do
      let d ← (catalog k).descriptor.toOption
      let fields ← Tree.decodeMembers catalog r.settings.lenient (catalog k) d members
        ((catalog k).fields.map Field.initial)
      some (Value.record (catalog k).key fields)).map (·, r') := by
  rw [BindM.field_record, Schema.readBy, success?_bind, BindM.success?_collecting]
  cases described : (catalog k).descriptor with
  | error fault =>
      have unresolved : success? ((FillM.typed (BindM.resolve (catalog k)) :
          FillM (List (Value κ)) _) (r, (catalog k).fields.map Field.initial)) = none := by
        rw [FillM.success?_typed, BindM.resolve, described]
        rfl
      rw [Schema.fillBy, success?_bind, unresolved]
      rfl
  | ok d =>
      have same (t : FieldType κ) (q : Reader) (less : q.unitsLeft < r.unitsLeft) :
          BindM.fieldBy (r.unitsLeft + 1)
            (BindM.recordWithin catalog (r.unitsLeft + 1) r.unitsLeft) t q =
              BindM.field catalog t q :=
        BindM.fieldBy_eq_field less (by omega)
      rw [Schema.success?_fillBy reads described same (Nat.le_succ _) h,
        ← Schema.decodeMembers_eq]
      change _ = Option.map _ (Option.bind (decodeMembers catalog r.settings.lenient (catalog k) d
        members ((catalog k).fields.map Field.initial)) _)
      cases decodeMembers catalog r.settings.lenient (catalog k) d members
        ((catalog k).fields.map Field.initial) <;> rfl

theorem Tree.list_of_array {items : List Tree} {type : FieldType κ}
    (reads : ∀ x ∈ items, x.Reads catalog) (h : Consumes (Tree.array items).events r r') :
    success? (BindM.field catalog (.list type) r) =
      (Tree.decodeItems catalog r.settings.lenient type items).map fun vs => (.list vs, r') := by
  have same (q : Reader) (less : q.unitsLeft < r.unitsLeft) :
      BindM.fieldWithin catalog (r.unitsLeft + 1) type q = BindM.field catalog type q :=
    BindM.fieldWithin_eq_field (by omega)
  have collected : success? (FillM.items (r.unitsLeft + 1)
      (BindM.fieldWithin catalog (r.unitsLeft + 1) type) (r, [])) = _ :=
    FillM.success?_items reads same (Nat.le_succ _) h
  rw [BindM.field_list, success?_bind, BindM.itemsAfter, success?_bind, BindM.success?_collecting,
    List.reverse_nil, collected]
  cases Tree.decodeItems catalog r.settings.lenient type items with
  | none => rfl
  | some vs =>
      change some (Value.list (vs.reverse ++ []).reverse, r') = _
      rw [List.append_nil, List.reverse_reverse]
      rfl

theorem Tree.looked_of_optional (catalog : Catalog κ) (type : FieldType κ) {t : Tree}
    (h : Consumes t.events r r') :
    ∃ (l : Lexeme) (r₁ : Reader), BindM.field catalog (.optional type) r = (do
        if l.token = .null then
          BindM.read ReadM.nextNull
          pure .absent
        else
          pure (.present (← BindM.fieldBy (r.unitsLeft + 1)
            (BindM.recordWithin catalog (r.unitsLeft + 1) (r.unitsLeft + 1)) type)) :
          BindM (Value κ)) r₁ ∧
      (l.token = .null ↔ t = .null) ∧ Consumes t.events r₁ r' ∧
        r₁.settings = r.settings ∧ r₁.unitsLeft ≤ r.unitsLeft := by
  obtain ⟨e, es, head, -, nullHead⟩ := t.events_head
  have units := h
  rw [head] at units
  cases units with
  | @cons _ _ _ q _ unit rest =>
      obtain ⟨l, r₁, look, event, -⟩ := ReadM.nextEvent_eq_ok unit
      have looked : (BindM.read ReadM.peek) r = .ok l.token r₁ := by
        simp only [BindM.read, ReadM.peek_of_peek look]
      have fewer := (ReadM.ensures_peekLexeme _ _ _ _ (Nat.le_refl _) look).1
      refine ⟨l, r₁, bind_of_ok looked, ?_, Tree.consumes_peeked h look,
        Reader.settings_of_peekLexeme look, fewer⟩
      rw [← nullHead]
      cases l <;> cases event <;> simp [Lexeme.token]

theorem Tree.reads_of_parts {t : Tree} {null : Bool} (scalar : Bool → ScalarType → Option Scalar)
    (list : Bool → FieldType κ → Option (List (Value κ))) (record : Bool → κ → Option (Value κ))
    (decodes : ∀ lenient type, t.decode catalog lenient type =
      type.decodeBy null (scalar lenient) (list lenient) (record lenient))
    (isNull : null = true ↔ t = .null)
    (scalars : ∀ type r r', Consumes t.events r r' → success? (ReadM.nextScalar type r) =
      (scalar r.settings.lenient type).map (·, r'))
    (lists : ∀ type r r', Consumes t.events r r' → success? (BindM.field catalog (.list type) r) =
      (list r.settings.lenient type).map fun vs => (.list vs, r'))
    (records : ∀ k r r', Consumes t.events r r' → success? (BindM.field catalog (.record k) r) =
      (record r.settings.lenient k).map (·, r')) : t.Reads catalog := by
  intro type
  induction type with
  | scalar type =>
      intro r r' h
      have run : BindM.field catalog (.scalar type) r =
          (BindM.read (ReadM.nextScalar type) >>= fun s => pure (Value.scalar s)) r := rfl
      rw [run, success?_bind, BindM.success?_read, scalars type r r' h, decodes,
        FieldType.decodeBy]
      cases scalar r.settings.lenient type <;> rfl
  | optional type ih =>
      intro r r' h
      obtain ⟨l, r₁, run, token, seen, kept, fewer⟩ := looked_of_optional catalog type h
      rw [run, decodes, FieldType.decodeBy]
      by_cases absent : t = .null
      · subst absent
        rw [events] at seen
        cases seen with
        | cons unit rest =>
            cases rest
            have taken : (BindM.read ReadM.nextNull) r₁ = .ok () r' := by
              simp only [BindM.read, ReadM.nextNull_of_event unit]
            rw [if_pos (token.mpr rfl), bind_of_ok taken, if_pos (isNull.mpr rfl)]
            rfl
      · rw [if_neg (mt token.mp absent), success?_bind,
          BindM.fieldBy_eq_field (by omega) (by omega), ih r₁ r' seen, kept,
          if_neg (mt isNull.mp absent), decodes]
        cases type.decodeBy null (scalar r.settings.lenient) (list r.settings.lenient)
          (record r.settings.lenient) <;> rfl
  | boxed type ih =>
      intro r r' h
      rw [decodes, FieldType.decodeBy, ← decodes]
      exact ih r r' h
  | list type ih =>
      intro r r' h
      rw [lists type r r' h, decodes, FieldType.decodeBy]
      cases list r.settings.lenient type <;> rfl
  | record k =>
      intro r r' h
      rw [records k r r' h, decodes, FieldType.decodeBy]

theorem Tree.reads_scalar {t : Tree} {l : Lexeme} {e : Event} (single : t.events = [e])
    (event : l.event? = some e) (behind : ∀ r : Reader, r.behind l = r.endScalar)
    (decodes : ∀ lenient type, t.decode catalog lenient type = type.decodeBy (l = .null)
      (ScalarType.decode lenient (ReadM.textOrLiteral? l) l.flag?) (fun _ => none) fun _ => none)
    (isNull : l = .null ↔ t = .null) (noArray : ∀ items, t ≠ .array items)
    (noObject : ∀ members, t ≠ .object members) : t.Reads catalog := by
  refine reads_of_parts (fun lenient => ScalarType.decode lenient (ReadM.textOrLiteral? l) l.flag?)
    (fun _ _ => none) (fun _ _ => none) decodes ?_ ?_ ?_ ?_
  · rw [decide_eq_true_iff]
    exact isNull
  · intro type r r' h
    rw [single] at h
    cases h with
    | cons unit rest =>
        cases rest
        obtain ⟨l', r₁, look, event', -, rfl⟩ := ReadM.nextEvent_eq_ok unit
        obtain rfl : l' = l := Lexeme.event?_inj (event'.trans event.symm)
        rw [ReadM.success?_nextScalar look, behind]
  · intro type r r' h
    exact list_of_other noArray h
  · intro k r r' h
    exact record_of_other noObject h

/-- Typed reading decodes the tree of the value that comes next. -/
theorem Tree.reads (t : Tree) : t.Reads catalog := by
  -- no unit that begins a container is a scalar
  have scalar {e : Event} {es : List Event} {r r' : Reader} {type : ScalarType}
      (opens : e = .beginObject ∨ e = .beginArray) (h : Consumes (e :: es) r r') :
      success? (ReadM.nextScalar type r) =
        (type.decode r.settings.lenient none none).map (·, r') := by
    cases h with
    | cons unit rest =>
        obtain ⟨l, r₁, look, event, -⟩ := ReadM.nextEvent_eq_ok unit
        have nothing : ReadM.textOrLiteral? l = none ∧ l.flag? = none := by
          rcases opens with rfl | rfl
          · obtain rfl : l = .beginObject := Lexeme.event?_inj event
            exact ⟨rfl, rfl⟩
          · obtain rfl : l = .beginArray := Lexeme.event?_inj event
            exact ⟨rfl, rfl⟩
        rw [ReadM.success?_nextScalar look, nothing.1, nothing.2, ScalarType.decode_none]
        rfl
  induction t using Tree.induction with
  | object members ih =>
      have isNull : false = true ↔ object members = .null := ⟨nofun, nofun⟩
      refine reads_of_parts (fun lenient => ScalarType.decode lenient none none) (fun _ _ => none)
        _ (fun _ _ => by rw [decode]) isNull ?_ ?_ ?_
      · intro type r r' h
        rw [events] at h
        exact scalar (.inl rfl) h
      · intro type r r' h
        exact list_of_other (t := .object members) nofun h
      · intro k r r' h
        exact record_of_object ih h
  | array items ih =>
      have isNull : false = true ↔ array items = .null := ⟨nofun, nofun⟩
      refine reads_of_parts (fun lenient => ScalarType.decode lenient none none)
        (fun lenient type => decodeItems catalog lenient type items) (fun _ _ => none)
        (fun _ _ => by rw [decode]) isNull ?_ ?_ ?_
      · intro type r r' h
        rw [events] at h
        exact scalar (.inr rfl) h
      · intro type r r' h
        exact list_of_array ih h
      · intro k r r' h
        exact record_of_other (t := .array items) nofun h
  | string text =>
      exact reads_scalar (l := .string text) (by rw [events]) rfl (fun _ => rfl)
        (fun _ _ => by rw [decode]; rfl) ⟨nofun, nofun⟩ nofun nofun
  | number literal =>
      exact reads_scalar (l := .number literal) (by rw [events]) rfl (fun _ => rfl)
        (fun _ _ => by rw [decode]; rfl) ⟨nofun, nofun⟩ nofun nofun
  | boolean value =>
      exact reads_scalar (l := .boolean value) (by rw [events]) rfl (fun _ => rfl)
        (fun _ _ => by rw [decode]; rfl) ⟨nofun, nofun⟩ nofun nofun
  | null =>
      exact reads_scalar (l := .null) (by rw [events]) rfl (fun _ => rfl)
        (fun _ _ => by rw [decode]; rfl) ⟨fun _ => rfl, fun _ => rfl⟩ nofun nofun

end TypedJson
