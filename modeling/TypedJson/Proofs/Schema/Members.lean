import TypedJson.Proofs.Schema.Dispatch
import TypedJson.Schema.Reading

set_option autoImplicit false
set_option relaxedAutoImplicit false

namespace TypedJson.Schema

variable {κ : Type} [DecidableEq κ] {s : Schema κ} {d : Descriptor κ} {name : String}

/-- The field that a member of this name fills, if there is one. -/
def slotOf (s : Schema κ) (d : Descriptor κ) (name : String) : Option (Slot κ) :=
  (d.find name).bind s.readSlot

/-- Reading a member depends on its name only through the field that it fills. -/
theorem fillMemberBy_eq (fuel : Nat) (readField : FieldType κ → BindM (Value κ)) :
    s.fillMemberBy fuel readField d = (do
      let name ← FillM.read ReadM.nextName
      match s.slotOf d name with
      | some slot => do
          let v ← FillM.typed (BindM.within slot.context name (readField slot.type))
          FillM.update fun fields => fields.set slot.position v
      | none => FillM.read (ReadM.skipWithin fuel 0)) := by
  unfold fillMemberBy
  refine congrArg (FillM.read ReadM.nextName >>= ·) (funext fun name => ?_)
  unfold slotOf
  cases found : d.find name with
  | none => rfl
  | some p =>
      rw [Option.bind_some]
      have jsonName := Descriptor.jsonName_of_find found
      unfold fillPropertyBy
      dsimp only
      cases target : s.readSlot p with
      | none => rfl
      | some slot =>
          dsimp only
          rw [jsonName]
          simp only [bind_assoc, pure_bind, Bool.not_true, Bool.false_eq_true, if_false,
            bind_pure_unit]

theorem exists_field_of_slotOf {slot : Slot κ} (h : s.slotOf d name = some slot) :
    ∃ f, s.fields[slot.position]? = some f ∧ f.type = slot.type := by
  obtain ⟨p, -, target⟩ := Option.bind_eq_some_iff.mp h
  exact field_of_readSlot target

theorem context_of_slotOf {own : Layer κ} {bases : List (String × Layer κ)}
    (declared : s = .declared own bases) {slot : Slot κ} (h : s.slotOf d name = some slot) :
    ∃ schema, slot.context = some schema := by
  subst declared
  obtain ⟨p, -, target⟩ := Option.bind_eq_some_iff.mp h
  exact context_of_slotIn target

omit [DecidableEq κ] in
theorem mem_allProperties_of_find {p : Property κ} (h : d.find name = some p) :
    p ∈ d.allProperties := by
  obtain ⟨l, hl, found⟩ := List.exists_of_findSome?_eq_some h
  exact List.mem_flatMap.mpr ⟨l, List.mem_reverse.mpr hl, (Level.mem_of_findName found).1⟩

namespace Dispatches

theorem slotOf_of_field (h : s.Dispatches d) {i : Nat} {f : Field κ}
    (hf : s.fields[i]? = some f) :
    ∃ context, s.slotOf d f.jsonName = some ⟨i, f.type, context⟩ := by
  have below : i < s.fields.length := (List.getElem?_eq_some_iff.mp hf).1
  rw [← h.length_eq] at below
  have hp : d.allProperties[i]? = some d.allProperties[i] := List.getElem?_eq_getElem below
  obtain ⟨jsonName, found, context, slot, -⟩ := h.entry hf hp
  refine ⟨context, ?_⟩
  rw [slotOf, ← jsonName, found]
  exact slot

theorem field_of_slotOf (h : s.Dispatches d) {slot : Slot κ} (found : s.slotOf d name = some slot) :
    ∃ f, s.fields[slot.position]? = some f ∧ f.jsonName = name ∧ f.type = slot.type := by
  obtain ⟨p, hp, target⟩ := Option.bind_eq_some_iff.mp found
  obtain ⟨i, at_⟩ := List.mem_iff_getElem?.mp (mem_allProperties_of_find hp)
  have below : i < s.fields.length := by
    rw [← h.length_eq]
    exact (List.getElem?_eq_some_iff.mp at_).1
  have hf : s.fields[i]? = some s.fields[i] := List.getElem?_eq_getElem below
  obtain ⟨jsonName, -, context, slot', -⟩ := h.entry hf at_
  cases target.symm.trans slot'
  exact ⟨_, hf, jsonName.symm.trans (Descriptor.jsonName_of_find hp), rfl⟩

theorem slotOf_eq_none_iff (h : s.Dispatches d) :
    s.slotOf d name = none ↔ ∀ f ∈ s.fields, f.jsonName ≠ name := by
  constructor
  · intro none f hf same
    obtain ⟨i, at_⟩ := List.mem_iff_getElem?.mp hf
    obtain ⟨context, slot⟩ := h.slotOf_of_field at_
    rw [same, none] at slot
    cases slot
  · intro none
    cases found : s.slotOf d name with
    | none => rfl
    | some slot =>
        obtain ⟨f, at_, same, -⟩ := h.field_of_slotOf found
        exact absurd same (none f (List.mem_of_getElem? at_))

end Dispatches

end TypedJson.Schema
