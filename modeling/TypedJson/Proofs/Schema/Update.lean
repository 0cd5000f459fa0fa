import TypedJson.Proofs.Schema.Context
import TypedJson.Proofs.Schema.Decoding

/-!
# Reading into a record

Reading an object into a record is an update directed by names. Of the members of one name the last
counts, members that no field is named for count nothing, and a read that fails leaves what the
members before the failure have made of the record.
-/

set_option autoImplicit false
set_option relaxedAutoImplicit false

namespace TypedJson

open Operation
open Reader (Between Consumes)
open ReadM (nextEvent peekLexeme)

/-- The members of an object that have a name. -/
def membersNamed (name : String) (members : List (String × Tree)) : List (String × Tree) :=
  members.filter fun m => m.1 = name

theorem membersNamed_of_last {name : String} {front back : List (String × Tree)}
    {m : String × Tree} (same : m.1 = name) (last : ∀ m' ∈ back, m'.1 ≠ name) :
    membersNamed name (front ++ m :: back) = membersNamed name front ++ [m] := by
  have behind : back.filter (fun m => decide (m.1 = name)) = [] := by
    rw [List.filter_eq_nil_iff]
    intro m' hm'
    simpa using last m' hm'
  simp only [membersNamed, List.filter_append, List.filter_cons, same, decide_true, if_true, behind]

theorem membersNamed_of_none {name : String} {members : List (String × Tree)}
    (none : ∀ m ∈ members, m.1 ≠ name) : membersNamed name members = [] := by
  rw [membersNamed, List.filter_eq_nil_iff]
  intro m hm
  simpa using none m hm

variable {κ : Type} [DecidableEq κ] {catalog : Catalog κ} {r r₁ r₂ r' : Reader}

namespace Schema

variable {s : Schema κ} {d : Descriptor κ} {lenient : Bool} {fields fields' : List (Value κ)}
variable {members members' : List (String × Tree)} {m : String × Tree} {f : Field κ} {i : Nat}

/-! One member. -/

theorem length_of_assign (h : s.assign catalog lenient d fields m = some fields') :
    fields'.length = fields.length := by
  unfold assign at h
  cases target : s.slotOf d m.1 with
  | none =>
      rw [target] at h
      cases h
      rfl
  | some slot =>
      rw [target] at h
      obtain ⟨v, -, rfl⟩ := Option.map_eq_some_iff.mp h
      exact List.length_set

namespace Dispatches

theorem assign_of_field (h : s.Dispatches d) (hf : s.fields[i]? = some f)
    (below : i < fields.length) (same : m.1 = f.jsonName)
    (assigned : s.assign catalog lenient d fields m = some fields') :
    fields'[i]? = m.2.decode catalog lenient f.type := by
  obtain ⟨context, target⟩ := h.slotOf_of_field hf
  rw [assign, same, target] at assigned
  obtain ⟨v, decoded, rfl⟩ := Option.map_eq_some_iff.mp assigned
  rw [List.getElem?_set_self below]
  exact decoded.symm

theorem assign_of_other (h : s.Dispatches d) (hf : s.fields[i]? = some f)
    (other : m.1 ≠ f.jsonName) (assigned : s.assign catalog lenient d fields m = some fields') :
    fields'[i]? = fields[i]? := by
  unfold assign at assigned
  cases target : s.slotOf d m.1 with
  | none =>
      rw [target] at assigned
      cases assigned
      rfl
  | some slot =>
      rw [target] at assigned
      obtain ⟨v, -, rfl⟩ := Option.map_eq_some_iff.mp assigned
      obtain ⟨f', at_, named, -⟩ := h.field_of_slotOf target
      have apart : slot.position ≠ i := by
        rintro rfl
        cases hf.symm.trans at_
        exact other named.symm
      exact List.getElem?_set_ne apart

theorem isSome_assign_iff (h : s.Dispatches d) :
    (s.assign catalog lenient d fields m).isSome ↔
      ∀ f ∈ s.fields, m.1 = f.jsonName → (m.2.decode catalog lenient f.type).isSome := by
  unfold assign
  cases target : s.slotOf d m.1 with
  | none =>
      have free := h.slotOf_eq_none_iff.mp target
      exact ⟨fun _ f hf same => absurd same.symm (free f hf), fun _ => rfl⟩
  | some slot =>
      obtain ⟨f, at_, named, type⟩ := h.field_of_slotOf target
      simp only [Option.isSome_map]
      constructor
      · intro decoded f' hf' same
        obtain ⟨j, at'⟩ := List.mem_iff_getElem?.mp hf'
        obtain ⟨context, target'⟩ := h.slotOf_of_field at'
        rw [← same, target] at target'
        cases target'
        exact decoded
      · intro decoded
        rw [← type]
        exact decoded f (List.mem_of_getElem? at_) named.symm

/-! All members. -/

theorem length_of_foldlM
    (folded : members.foldlM (s.assign catalog lenient d) fields = some fields') :
    fields'.length = fields.length := by
  induction members generalizing fields with
  | nil =>
      cases folded
      rfl
  | cons m members ih =>
      rw [List.foldlM_cons] at folded
      obtain ⟨fields₁, assigned, rest⟩ := Option.bind_eq_some_iff.mp folded
      exact (ih rest).trans (length_of_assign assigned)

/-- A field holds what the last member of its name stands for, and what it has held before if there
is none. -/
theorem getElem?_of_foldlM (h : s.Dispatches d) (hf : s.fields[i]? = some f)
    (below : i < fields.length)
    (folded : members.foldlM (s.assign catalog lenient d) fields = some fields') :
    fields'[i]? = match (membersNamed f.jsonName members).getLast? with
      | none => fields[i]?
      | some m => m.2.decode catalog lenient f.type := by
  induction members generalizing fields with
  | nil =>
      cases folded
      rfl
  | cons m members ih =>
      rw [List.foldlM_cons] at folded
      obtain ⟨fields₁, assigned, rest⟩ := Option.bind_eq_some_iff.mp folded
      have length := length_of_assign assigned
      have later := ih (by omega) rest
      rw [membersNamed] at later ⊢
      by_cases same : m.1 = f.jsonName
      · have first := h.assign_of_field hf below same assigned
        rw [List.filter_cons_of_pos (by simpa using same), later, List.getLast?_cons]
        cases (members.filter fun m => decide (m.1 = f.jsonName)).getLast? with
        | none => exact first
        | some m' => rfl
      · have first := h.assign_of_other hf same assigned
        rw [List.filter_cons_of_neg (by simpa using same), later, first]

theorem isSome_foldlM_iff (h : s.Dispatches d) :
    (members.foldlM (s.assign catalog lenient d) fields).isSome ↔ ∀ m ∈ members,
      ∀ f ∈ s.fields, m.1 = f.jsonName → (m.2.decode catalog lenient f.type).isSome := by
  induction members generalizing fields with
  | nil => exact ⟨fun _ => nofun, fun _ => rfl⟩
  | cons m members ih =>
      have first : (s.assign catalog lenient d fields m).isSome ↔ _ := h.isSome_assign_iff
      rw [List.foldlM_cons, List.forall_mem_cons, ← first]
      cases s.assign catalog lenient d fields m with
      | none => simp
      | some fields₁ => simpa using ih

/-- Only the members of each name count, in their order. -/
theorem foldlM_congr (h : s.Dispatches d) (full : fields.length = s.fields.length)
    (same : ∀ f ∈ s.fields, membersNamed f.jsonName members' = membersNamed f.jsonName members)
    (folded : members.foldlM (s.assign catalog lenient d) fields = some fields') :
    members'.foldlM (s.assign catalog lenient d) fields = some fields' := by
  have decodes := h.isSome_foldlM_iff.mp (Option.isSome_of_eq_some folded)
  have succeeds : (members'.foldlM (s.assign catalog lenient d) fields).isSome := by
    rw [h.isSome_foldlM_iff]
    intro m hm f hf named
    have among : m ∈ membersNamed f.jsonName members' :=
      List.mem_filter.mpr ⟨hm, decide_eq_true named⟩
    rw [same f hf] at among
    exact decodes m (List.mem_filter.mp among).1 f hf named
  obtain ⟨fields'', folded'⟩ := Option.isSome_iff_exists.mp succeeds
  have length := length_of_foldlM folded
  have length' := length_of_foldlM folded'
  have equal : fields'' = fields' := by
    apply List.ext_getElem?
    intro i
    by_cases below : i < fields.length
    · have declared : i < s.fields.length := by omega
      have hf : s.fields[i]? = some s.fields[i] := List.getElem?_eq_getElem declared
      rw [h.getElem?_of_foldlM hf below folded, h.getElem?_of_foldlM hf below folded',
        same _ (List.mem_of_getElem? hf)]
    · rw [List.getElem?_eq_none (by omega), List.getElem?_eq_none (by omega)]
  rw [folded', equal]

end Dispatches

/-! What has become of a record. -/

/-- Between two states lie the members of an object, and some fields have been updated by them: the
last member of a field's name replaces the field by what reading by its type answers for the member,
from the state behind its name; without such a member the field is what it was. -/
structure LastWins (catalog : Catalog κ) (s : Schema κ) (members : List (String × Tree))
    (r r' : Reader) (fields fields' : List (Value κ)) : Prop where
  consumed : Consumes (members.flatMap Tree.ofMember) r r'
  length_eq : fields'.length = fields.length
  kept : ∀ {i : Nat} {f : Field κ}, s.fields[i]? = some f → (∀ m ∈ members, m.1 ≠ f.jsonName) →
    fields'[i]? = fields[i]?
  replaced : ∀ {i : Nat} {f : Field κ} {front back : List (String × Tree)} {m : String × Tree},
    s.fields[i]? = some f → members = front ++ m :: back → m.1 = f.jsonName →
    (∀ m' ∈ back, m'.1 ≠ f.jsonName) →
    ∃ q v q', Consumes (front.flatMap Tree.ofMember ++ [.name m.1]) r q ∧
      BindM.field catalog f.type q = .ok v q' ∧ Consumes m.2.events q q' ∧
      Consumes (back.flatMap Tree.ofMember) q' r' ∧ fields'[i]? = some v

theorem Dispatches.lastWins (h : s.Dispatches d) (full : fields.length = s.fields.length)
    (consumed : Consumes (members.flatMap Tree.ofMember) r r')
    (folded : members.foldlM (s.assign catalog r.settings.lenient d) fields = some fields') :
    s.LastWins catalog members r r' fields fields' where
  consumed := consumed
  length_eq := length_of_foldlM folded
  kept {i f} hf none := by
    have below : i < fields.length := by
      rw [full]
      exact (List.getElem?_eq_some_iff.mp hf).1
    rw [h.getElem?_of_foldlM hf below folded, membersNamed_of_none none]
    rfl
  replaced {i f front back m} hf parts same last := by
    have below : i < fields.length := by
      rw [full]
      exact (List.getElem?_eq_some_iff.mp hf).1
    have value := h.getElem?_of_foldlM hf below folded
    subst parts
    rw [membersNamed_of_last same last, List.getLast?_append, List.getLast?_singleton] at value
    rw [List.flatMap_append, List.flatMap_cons] at consumed
    obtain ⟨q₁, before, rest⟩ := Reader.consumes_append_iff.mp consumed
    obtain ⟨q', member, behind⟩ := Reader.consumes_append_iff.mp rest
    cases member with
    | @cons _ _ _ q _ name content =>
        have named := before.append (Consumes.single name)
        have reads : success? (BindM.field catalog f.type q) = _ := m.2.reads f.type q q' content
        rw [named.settings_eq] at reads
        obtain ⟨v, hv⟩ : ∃ v, fields'[i]? = some v := by
          refine ⟨_, List.getElem?_eq_getElem ?_⟩
          rw [length_of_foldlM folded]
          exact below
        have decoded : m.2.decode catalog r.settings.lenient f.type = some v :=
          value.symm.trans hv
        rw [decoded] at reads
        exact ⟨q, v, q', named, success?_eq_some_iff.mp reads, content, behind, hv⟩

/-- What keeps an object from being read into a record, from a state between its members: the next
unit cannot be had, a member that no field is named for cannot be skipped, or the value of a field
cannot be read. -/
inductive Breaks (catalog : Catalog κ) (s : Schema κ) (r : Reader) : BindError → Reader → Prop where
  | unread {cause : ReadError} {r' : Reader} :
      ReadM.hasNext r = .error cause r' → Breaks catalog s r (.reading cause) r'
  | unskipped {name : String} {cause : ReadError} {r₁ r' : Reader} :
      ReadM.nextName r = .ok name r₁ → (∀ f ∈ s.fields, f.jsonName ≠ name) →
      ReadM.skipValue r₁ = .error cause r' → Breaks catalog s r (.reading cause) r'
  | unfilled {f : Field κ} {schema : String} {e : BindError} {r₁ r' : Reader} :
      f ∈ s.fields → ReadM.nextName r = .ok f.jsonName r₁ →
      BindM.field catalog f.type r₁ = .error e r' →
      Breaks catalog s r (.property schema f.jsonName e) r'

/-! The run of the loop. -/

variable {fuel : Nat} {l : Lexeme} {readField : FieldType κ → BindM (Value κ)}

theorem member_of_fillMemberBy
    (same : ∀ t q, q.unitsLeft < r.unitsLeft → readField t q = BindM.field catalog t q)
    (few : r.unitsLeft ≤ fuel) (unseen : r.lookahead = none) (look : peekLexeme r = .ok l r₁)
    (h : s.fillMemberBy fuel readField d (r₁, fields) = .ok () (r', fields')) :
    ∃ m, Consumes (Tree.ofMember m) r r' ∧
      s.assign catalog r.settings.lenient d fields m = some fields' := by
  have run := h
  rw [fillMemberBy_eq] at run
  obtain ⟨name, ⟨r₂, fields₂⟩, naming, rest⟩ := bind_eq_ok.mp run
  obtain ⟨named, rfl⟩ := FillM.read_eq_ok naming
  have unit : nextEvent r = .ok (some (.name name)) r₂ :=
    (ReadM.nextEvent_of_peeked look).trans (ReadM.event_of_nextName named)
  have less := (Consumes.single unit).unitsLeft_lt
  have value : ∃ t : Tree, Consumes t.events r₂ r' := by
    cases target : s.slotOf d name with
    | none =>
        rw [target] at rest
        obtain ⟨places, inside⟩ := ReadM.named_of_nextEvent unseen unit
        exact ReadM.tree_of_skipWithin (Consumes.single unit).behind.1 inside (by omega)
          (FillM.read_eq_ok rest).1
    | some slot =>
        rw [target] at rest
        obtain ⟨v, ⟨r₃, fields₃⟩, reading, updated⟩ := bind_eq_ok.mp rest
        cases updated
        have read := BindM.within_eq_ok (FillM.typed_eq_ok reading).1
        rw [same _ _ less] at read
        exact (BindM.field_eq_ok read).1
  obtain ⟨t, value⟩ := value
  have member : Consumes (Tree.ofMember (name, t)) r r' := .cons unit value
  have assigned : success? (s.fillMemberBy fuel readField d (r₁, fields₂)) = _ :=
    success?_fillMemberBy t.reads same few member look
  rw [h] at assigned
  obtain ⟨_, assigned, ⟨⟩⟩ := Option.map_eq_some_iff.mp assigned.symm
  exact ⟨(name, t), member, assigned⟩

theorem breaks_of_fillMemberBy (declared : ∃ own bases, s = .declared own bases)
    (h : s.Dispatches d)
    (same : ∀ t q, q.unitsLeft < r.unitsLeft → readField t q = BindM.field catalog t q)
    (few : r.unitsLeft ≤ fuel) (look : peekLexeme r = .ok l r₁) {name : String}
    (member : l = .name name) {e : BindError}
    (failed : s.fillMemberBy fuel readField d (r₁, fields) = .error e (r', fields')) :
    fields' = fields ∧ s.Breaks catalog r e r' := by
  subst member
  have named := ReadM.nextName_of_peek look
  have again := ReadM.nextName_of_peek (ReadM.peekLexeme_of_some (ReadM.lookahead_of_peek look))
  have less := (Consumes.single (ReadM.event_of_nextName named)).unitsLeft_lt
  rw [fillMemberBy_eq, bind_of_ok (FillM.read_of_ok again)] at failed
  cases target : s.slotOf d name with
  | none =>
      rw [target] at failed
      obtain ⟨cause, rfl, skipping⟩ := BindM.read_eq_error (FillM.typed_eq_error failed)
      rw [ReadM.skipWithin_congr (by omega) (Nat.lt_succ_self _)] at skipping
      exact ⟨FillM.kept_of_typed_error failed,
        .unskipped named (h.slotOf_eq_none_iff.mp target) skipping⟩
  | some slot =>
      rw [target] at failed
      obtain reading | ⟨_, _, -, ⟨⟩⟩ := bind_eq_error.mp failed
      obtain ⟨f, hf, rfl, type⟩ := h.field_of_slotOf target
      obtain ⟨own, bases, layers⟩ := declared
      obtain ⟨schema, context⟩ := context_of_slotOf layers target
      have run := FillM.typed_eq_error reading
      rw [context] at run
      obtain ⟨inner, rfl, broken⟩ := BindM.within_eq_error run
      rw [same _ _ less, ← type] at broken
      exact ⟨FillM.kept_of_typed_error reading, .unfilled (List.mem_of_getElem? hf) named broken⟩

/-- The reader stands between the members of an object that began in front of `r₁`, and the members
so far have made `b` of the first fields. -/
structure Underway (catalog : Catalog κ) (s : Schema κ) (d : Descriptor κ) (outer : List PathStep)
    (r₁ : Reader) (fields : List (Value κ)) (r : Reader) (b : List (Value κ)) : Prop where
  between : Between .object r₁.settings r₁.unitsLeft outer r
  updated : ∃ members : List (String × Tree), Consumes (members.flatMap Tree.ofMember) r₁ r ∧
    members.foldlM (s.assign catalog r₁.settings.lenient d) fields = some b

theorem Underway.of_opening (unit : nextEvent r = .ok (some .beginObject) r₁) :
    Underway catalog s d r.steps r₁ fields r₁ fields where
  between := by
    rw [(Consumes.single unit).behind.2]
    exact .of_opening unit rfl
  updated := ⟨[], .nil, rfl⟩

theorem Underway.after_member {outer : List PathStep} {b b' : List (Value κ)}
    (h : Underway catalog s d outer r₁ fields r b) (member : Consumes (Tree.ofMember m) r r')
    (assigned : s.assign catalog r.settings.lenient d b m = some b') :
    Underway catalog s d outer r₁ fields r' b' ∧ r'.unitsLeft < r.unitsLeft := by
  obtain ⟨between, members, consumed, folded⟩ := h
  obtain ⟨after, shorter⟩ := between.after_member member
  refine ⟨⟨after, members ++ [m], ?_, ?_⟩, shorter⟩
  · rw [List.flatMap_append, List.flatMap_singleton]
    exact consumed.append member
  · rw [between.same] at assigned
    rw [List.foldlM_append, folded]
    exact (bind_pure _).trans assigned

theorem fill_of_not_begun (described : s.descriptor = .ok d) {cause : ReadError}
    (failed : ReadM.beginObject r = .error cause r') :
    s.fill catalog (r, fields) = .error (.reading cause) (r', fields) := by
  have unread : (FillM.read ReadM.beginObject : FillM (List (Value κ)) Unit) (r, fields) =
      .error (.reading cause) (r', fields) := by
    simp only [FillM.read, FillM.typed, BindM.read, failed]
  refine (fillBy_of_described described).trans ?_
  rw [bind_of_error unread]

/-- Behind the beginning of an object some members are read, which update the fields, and then the
object ends or the next member cannot be read. -/
theorem fill_of_begun (declared : ∃ own bases, s = .declared own bases)
    (described : s.descriptor = .ok d) (h : s.Dispatches d)
    (begun : ReadM.beginObject r = .ok () r₁) :
    ∃ (members : List (String × Tree)) (r₂ : Reader) (fields' : List (Value κ)),
      Consumes (members.flatMap Tree.ofMember) r₁ r₂ ∧
      members.foldlM (s.assign catalog r₁.settings.lenient d) fields = some fields' ∧
      ((∃ r', ReadM.endObject r₂ = .ok () r' ∧
          s.fill catalog (r, fields) = .ok () (r', fields')) ∨
        ∃ e r', s.Breaks catalog r₂ e r' ∧
          s.fill catalog (r, fields) = .error e (r', fields')) := by
  have unit := ReadM.event_of_beginObject begun
  have less := (Consumes.single unit).unitsLeft_lt
  have same (t : FieldType κ) (q : Reader) (fewer : q.unitsLeft < r.unitsLeft) :
      BindM.fieldWithin catalog (r.unitsLeft + 1) t q = BindM.field catalog t q :=
    BindM.fieldWithin_eq_field (by omega)
  have step (q q₁ q' : Reader) (l : Lexeme) (b b' : List (Value κ))
      (underway : Underway catalog s d r.steps r₁ fields q b) (look : peekLexeme q = .ok l q₁)
      (element : s.fillMemberBy (r.unitsLeft + 1) (BindM.fieldWithin catalog (r.unitsLeft + 1)) d
        (q₁, b) = .ok () (q', b')) :
      Underway catalog s d r.steps r₁ fields q' b' ∧ q'.unitsLeft < q.unitsLeft := by
    have few := underway.between.few
    obtain ⟨m, member, assigned⟩ := member_of_fillMemberBy
      (fun t p fewer => same t p (by omega)) (by omega) underway.between.unseen look element
    exact underway.after_member member assigned
  obtain ⟨r₂, b, ⟨between, members, consumed, folded⟩, stops⟩ :=
    FillM.each_stops step (.of_opening unit) (show r₁.unitsLeft < r.unitsLeft + 1 by omega)
  have few := between.few
  have run : s.fill catalog (r, fields) = _ := fillBy_of_described described
  rw [bind_of_ok (FillM.read_of_ok begun)] at run
  refine ⟨members, r₂, b, consumed, folded, ?_⟩
  rw [run]
  generalize looped : FillM.each _ _ _ = result at stops
  cases stops with
  | @unread cause r' look =>
      rw [bind_of_error looped]
      exact .inr ⟨_, r', .unread (bind_of_error look), rfl⟩
  | @ended l r₃ look last =>
      obtain rfl | ⟨name, rfl⟩ := between.name_or_end look
      · have again := ReadM.endObject_of_peek
          (ReadM.peekLexeme_of_some (ReadM.lookahead_of_peek look))
        rw [bind_of_ok looped]
        exact .inl ⟨_, ReadM.endObject_of_peek look, FillM.read_of_ok again⟩
      · cases last
  | @failed l r₃ e state look more element =>
      obtain ⟨r', b'⟩ := state
      obtain rfl | ⟨name, member⟩ := between.name_or_end look
      · cases more
      obtain ⟨rfl, breaks⟩ := breaks_of_fillMemberBy declared h
        (fun t p fewer => same t p (by omega)) (by omega) look member element
      rw [bind_of_error looped]
      exact .inr ⟨e, r', breaks, rfl⟩

/-- Where the units of an object come next, it is read into a record as its members say. -/
theorem fill_of_consumes (described : s.descriptor = .ok d)
    (folded : members.foldlM (s.assign catalog r.settings.lenient d) fields = some fields')
    (h : Consumes (Tree.object members).events r r') :
    s.fill catalog (r, fields) = .ok () (r', fields') := by
  have same (t : FieldType κ) (q : Reader) (fewer : q.unitsLeft < r.unitsLeft) :
      BindM.fieldWithin catalog (r.unitsLeft + 1) t q = BindM.field catalog t q :=
    BindM.fieldWithin_eq_field (by omega)
  have filled : success? (s.fill catalog (r, fields)) = _ :=
    success?_fillBy (fun m _ => m.2.reads) described same (Nat.le_succ _) h
  rw [folded] at filled
  exact success?_eq_some_iff.mp filled

/-- Reading an object into a record that succeeds has updated the fields by the members, the last of
each name counting. Any other object in which the members of each field's name are the same, in the
same order, is read to the same fields. -/
theorem lastWins_of_fill (declared : s.IsDeclared) (full : fields.length = s.fields.length)
    (h : s.fill catalog (r, fields) = .ok () (r', fields')) :
    ∃ (members : List (String × Tree)) (r₁ r₂ : Reader), ReadM.beginObject r = .ok () r₁ ∧
      s.LastWins catalog members r₁ r₂ fields fields' ∧ ReadM.endObject r₂ = .ok () r' ∧
      ∀ (members' : List (String × Tree)) (q q' : Reader),
        q.settings.lenient = r.settings.lenient →
        (∀ f ∈ s.fields, membersNamed f.jsonName members' = membersNamed f.jsonName members) →
        Consumes (Tree.object members').events q q' →
        s.fill catalog (q, fields) = .ok () (q', fields') := by
  obtain ⟨d, described, dispatches⟩ := declared.dispatches
  cases begun : ReadM.beginObject r with
  | error cause r₁ => cases h.symm.trans (fill_of_not_begun described begun)
  | ok _ r₁ =>
      obtain ⟨members, r₂, b, consumed, folded, ⟨r₃, ended, run⟩ | ⟨e, r₃, -, run⟩⟩ :=
        fill_of_begun declared.declared described dispatches begun
      · cases h.symm.trans run
        refine ⟨members, r₁, r₂, rfl, dispatches.lastWins full consumed folded, ended, ?_⟩
        intro members' q q' lenient same object
        have kept := (Consumes.single (ReadM.event_of_beginObject begun)).settings_eq
        rw [kept, ← lenient] at folded
        exact fill_of_consumes described (dispatches.foldlM_congr full same folded) object
      · cases h.symm.trans run

/-- A record of a type that extends another: a name twice, a name without a field, and a field
without a member. -/
theorem lastWins_of_fill_document :
    ∃ r fields r' fields', r = Reader.new ⟨[.data 0x20 (Utf8.encode
        "\x7b\"version\":1,\"x\":[\x7b\x7d],\"id\":5,\"version\":2\x7d".toList)], .endOfData⟩ ∧
      fields = [.scalar (.integer 9), .absent, .scalar (.text "t")] ∧
      Value.scalarsOf fields' = [.integer 5, .integer 2, .text "t"] ∧
      (Sample.catalog .document).fill Sample.catalog (r, fields) = .ok () (r', fields') ∧
      ∃ (members : List (String × Tree)) (r₁ r₂ : Reader), ReadM.beginObject r = .ok () r₁ ∧
        (Sample.catalog .document).LastWins Sample.catalog members r₁ r₂ fields fields' ∧
        ReadM.endObject r₂ = .ok () r' := by
  have declared : (Sample.catalog .document).IsDeclared :=
    ⟨⟨_, _, rfl⟩, by decide, _, rfl⟩
  have answer : (success? ((Sample.catalog .document).fill Sample.catalog (Reader.new
      ⟨[.data 0x20 (Utf8.encode
        "\x7b\"version\":1,\"x\":[\x7b\x7d],\"id\":5,\"version\":2\x7d".toList)], .endOfData⟩,
      [.scalar (.integer 9), .absent, .scalar (.text "t")]))).map
        (fun p => Value.scalarsOf p.2.2) = some [.integer 5, .integer 2, .text "t"] := by
    decide +kernel
  obtain ⟨⟨_, r', fields'⟩, succeeded, scalars⟩ := Option.map_eq_some_iff.mp answer
  have run := success?_eq_some_iff.mp succeeded
  obtain ⟨members, r₁, r₂, begun, updated, ended, -⟩ := lastWins_of_fill declared rfl run
  exact ⟨_, _, r', fields', rfl, rfl, scalars, run, members, r₁, r₂, begun, updated, ended⟩

/-- Reading an object into a record that fails has left the record alone if the object does not even
begin. Otherwise it has updated the fields by the members in front of the one that cannot be read,
just as an object of those members alone would. -/
theorem lastWins_of_failed_fill (declared : s.IsDeclared)
    (full : fields.length = s.fields.length) {e : BindError}
    (h : s.fill catalog (r, fields) = .error e (r', fields')) :
    (∃ cause, ReadM.beginObject r = .error cause r' ∧ e = .reading cause ∧ fields' = fields) ∨
      ∃ (members : List (String × Tree)) (r₁ r₂ : Reader), ReadM.beginObject r = .ok () r₁ ∧
        s.LastWins catalog members r₁ r₂ fields fields' ∧ s.Breaks catalog r₂ e r' ∧
        ∀ q q', q.settings.lenient = r.settings.lenient →
          Consumes (Tree.object members).events q q' →
          s.fill catalog (q, fields) = .ok () (q', fields') := by
  obtain ⟨d, described, dispatches⟩ := declared.dispatches
  cases begun : ReadM.beginObject r with
  | error cause r₁ =>
      cases h.symm.trans (fill_of_not_begun described begun)
      exact .inl ⟨cause, rfl, rfl, rfl⟩
  | ok _ r₁ =>
      obtain ⟨members, r₂, b, consumed, folded, ⟨r₃, -, run⟩ | ⟨e', r₃, breaks, run⟩⟩ :=
        fill_of_begun declared.declared described dispatches begun
      · cases h.symm.trans run
      · cases h.symm.trans run
        refine .inr ⟨members, r₁, r₂, rfl, dispatches.lastWins full consumed folded, breaks, ?_⟩
        intro q q' lenient object
        have kept := (Consumes.single (ReadM.event_of_beginObject begun)).settings_eq
        rw [kept, ← lenient] at folded
        exact fill_of_consumes described folded object

/-- A number out of the range of its field, behind two members and in front of another. -/
theorem lastWins_of_failed_fill_document :
    ∃ r fields e r' fields', r = Reader.new ⟨[.data 0x20 (Utf8.encode
        "\x7b\"title\":\"x\",\"id\":5,\"version\":300,\"id\":6\x7d".toList)], .endOfData⟩ ∧
      fields = [.scalar (.integer 9), .absent, .scalar (.text "t")] ∧
      Value.scalarsOf fields' = [.integer 5, .text "x"] ∧
      (Sample.catalog .document).fill Sample.catalog (r, fields) = .error e (r', fields') ∧
      ∃ (members : List (String × Tree)) (r₁ r₂ : Reader), ReadM.beginObject r = .ok () r₁ ∧
        (Sample.catalog .document).LastWins Sample.catalog members r₁ r₂ fields fields' ∧
        (Sample.catalog .document).Breaks Sample.catalog r₂ e r' := by
  have declared : (Sample.catalog .document).IsDeclared :=
    ⟨⟨_, _, rfl⟩, by decide, _, rfl⟩
  let fields : List (Value Sample.Key) := [.scalar (.integer 9), .absent, .scalar (.text "t")]
  let result := (Sample.catalog .document).fill Sample.catalog (Reader.new
    ⟨[.data 0x20 (Utf8.encode
      "\x7b\"title\":\"x\",\"id\":5,\"version\":300,\"id\":6\x7d".toList)], .endOfData⟩, fields)
  have failure : (error? result).isSome = true ∧
      Value.scalarsOf (final result).2 = [.integer 5, .text "x"] := by
    decide +kernel
  obtain ⟨e, error⟩ := Option.isSome_iff_exists.mp failure.1
  obtain ⟨⟨r', fields'⟩, run⟩ := error?_eq_some error
  have scalars : Value.scalarsOf fields' = [.integer 5, .text "x"] := by
    have left := failure.2
    rw [run] at left
    exact left
  obtain ⟨-, -, -, unchanged⟩ | ⟨members, r₁, r₂, begun, updated, breaks, -⟩ :=
    lastWins_of_failed_fill declared rfl run
  · rw [unchanged] at scalars
    exact absurd scalars (by decide)
  · exact ⟨_, fields, e, r', fields', rfl, rfl, scalars, run, members, r₁, r₂, begun, updated,
      breaks⟩

end Schema

end TypedJson
