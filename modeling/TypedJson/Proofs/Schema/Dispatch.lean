import TypedJson.Proofs.Schema.Descriptor

set_option autoImplicit false
set_option relaxedAutoImplicit false

namespace TypedJson

variable {κ : Type}

namespace Layer

/-- The level of a layer in a descriptor. -/
def level (l : Layer κ) : Level κ :=
  .of l.id l.properties

theorem length_properties (l : Layer κ) : l.properties.length = l.fields.length :=
  List.length_mapIdx

theorem describe_spec {own : Layer κ} {bases : List (Layer κ)} {d : Descriptor κ}
    (h : own.describe bases = .ok d) : d.chain = (own :: bases).map level ∧ d.Resolves := by
  have built {draft : Draft κ} {name : String} {d : Descriptor κ}
      (h : draft.build.mapError (ResolutionFault.invalidSchema name) = .ok d) :
      draft.build = .ok d := by
    cases hb : draft.build with
    | error fault => rw [hb] at h; cases h
    | ok d' => rw [hb] at h; cases h; rfl
  induction bases generalizing own d with
  | nil =>
      obtain ⟨⟨id, described, chain⟩, resolves⟩ := Draft.build_spec (built h) nofun
      cases described
      exact ⟨chain, resolves⟩
  | cons next bases ih =>
      unfold describe at h
      cases hb : describe next bases with
      | error fault => rw [hb] at h; cases h
      | ok base =>
          rw [hb] at h
          obtain ⟨chain, resolves⟩ := ih hb
          have hd : (own.draft (some base)).build = .ok d := built h
          obtain ⟨⟨id, described, chain'⟩, resolves'⟩ := Draft.build_spec hd (by
            intro base' same
            cases same
            exact resolves)
          cases described
          refine ⟨?_, resolves'⟩
          rw [chain', List.map_cons, ← chain]
          rfl

/-- All properties of some layers, those of the last layer first. -/
def allProperties (layers : List (Layer κ)) : List (Property κ) :=
  layers.reverse.flatMap properties

def allFields (layers : List (Layer κ)) : List (Field κ) :=
  layers.reverse.flatMap fields

theorem allProperties_cons (l : Layer κ) (bases : List (Layer κ)) :
    allProperties (l :: bases) = allProperties bases ++ l.properties := by
  simp [allProperties, List.flatMap_append]

theorem allFields_cons (l : Layer κ) (bases : List (Layer κ)) :
    allFields (l :: bases) = allFields bases ++ l.fields := by
  simp [allFields, List.flatMap_append]

theorem length_allProperties (layers : List (Layer κ)) :
    (allProperties layers).length = (allFields layers).length := by
  induction layers with
  | nil => rfl
  | cons l bases ih =>
      rw [allProperties_cons, allFields_cons, List.length_append, List.length_append, ih,
        length_properties]

theorem countFields_eq (layers : List (Layer κ)) :
    countFields layers = (allFields layers).length := by
  induction layers with
  | nil => rfl
  | cons l bases ih =>
      rw [allFields_cons, List.length_append, ← ih]
      simp [countFields, Nat.add_comm]

theorem getElem?_allProperties {layers : List (Layer κ)} {i : Nat} {f : Field κ}
    (hf : (allFields layers)[i]? = some f) :
    ∃ l ∈ layers, ∃ j, (allProperties layers)[i]? = some (.ofIndex f.jsonName f.name j l.id) := by
  induction layers with
  | nil => cases hf
  | cons l bases ih =>
      rw [allFields_cons] at hf
      rw [allProperties_cons]
      have same := length_allProperties bases
      by_cases inherited : i < (allFields bases).length
      · rw [List.getElem?_append_left inherited] at hf
        rw [List.getElem?_append_left (by omega)]
        obtain ⟨base, hb, j, hj⟩ := ih hf
        exact ⟨base, List.mem_cons_of_mem _ hb, j, hj⟩
      · rw [List.getElem?_append_right (by omega)] at hf
        rw [List.getElem?_append_right (by omega), same]
        refine ⟨l, List.mem_cons_self, i - (allFields bases).length, ?_⟩
        rw [properties, List.getElem?_mapIdx, hf]
        rfl

end Layer

namespace Schema

variable [DecidableEq κ]

theorem slotIn_eq {layers : List (Layer κ)} (distinct : (layers.map fun l => l.id.key).Nodup)
    {i : Nat} {f : Field κ} {p : Property κ} (hf : (Layer.allFields layers)[i]? = some f)
    (hp : (Layer.allProperties layers)[i]? = some p) :
    ∃ context, slotIn p.reader.key p.readIndex layers = some ⟨i, f.type, context⟩ := by
  induction layers with
  | nil => cases hf
  | cons l bases ih =>
      rw [List.map_cons, List.nodup_cons] at distinct
      rw [Layer.allFields_cons] at hf
      rw [Layer.allProperties_cons] at hp
      have same := Layer.length_allProperties bases
      have count := Layer.countFields_eq bases
      unfold slotIn
      by_cases inherited : i < (Layer.allFields bases).length
      · rw [List.getElem?_append_left inherited] at hf
        rw [List.getElem?_append_left (by omega)] at hp
        obtain ⟨base, hb, j, hj⟩ := Layer.getElem?_allProperties hf
        have owner : l.id.key ≠ p.reader.key := by
          cases hp.symm.trans hj
          intro key
          exact distinct.1 (List.mem_map.mpr ⟨base, hb, key.symm⟩)
        rw [if_neg owner]
        exact ih distinct.2 hf hp
      · rw [List.getElem?_append_right (by omega)] at hf
        rw [List.getElem?_append_right (by omega), same, Layer.properties, List.getElem?_mapIdx,
          hf] at hp
        have property := Option.some.inj hp
        have owner : l.id.key = p.reader.key := by
          rw [← property]
          rfl
        have index : p.readIndex = i - (Layer.allFields bases).length := by
          rw [← property]
          rfl
        refine ⟨some l.id.name, ?_⟩
        rw [if_pos owner, index, hf, Option.map_some, count]
        have position : (Layer.allFields bases).length + (i - (Layer.allFields bases).length) =
            i := by omega
        rw [position]

theorem field_of_slotIn {layers : List (Layer κ)} {owner : κ} {index : Nat} {slot : Slot κ}
    (h : slotIn owner index layers = some slot) :
    ∃ f, (Layer.allFields layers)[slot.position]? = some f ∧ f.type = slot.type := by
  induction layers with
  | nil => cases h
  | cons l bases ih =>
      rw [Layer.allFields_cons]
      have count := Layer.countFields_eq bases
      unfold slotIn at h
      by_cases own : l.id.key = owner
      · rw [if_pos own] at h
        obtain ⟨f, hf, rfl⟩ := Option.map_eq_some_iff.mp h
        refine ⟨f, ?_, rfl⟩
        rw [List.getElem?_append_right (by simp [count]), count, Nat.add_sub_cancel_left]
        exact hf
      · rw [if_neg own] at h
        obtain ⟨f, hf, same⟩ := ih h
        have inherited : slot.position < (Layer.allFields bases).length :=
          (List.getElem?_eq_some_iff.mp hf).1
        exact ⟨f, (List.getElem?_append_left inherited).trans hf, same⟩

theorem context_of_slotIn {layers : List (Layer κ)} {owner : κ} {index : Nat} {slot : Slot κ}
    (h : slotIn owner index layers = some slot) : ∃ schema, slot.context = some schema := by
  induction layers with
  | nil => cases h
  | cons l bases ih =>
      unfold slotIn at h
      by_cases own : l.id.key = owner
      · rw [if_pos own] at h
        obtain ⟨f, -, rfl⟩ := Option.map_eq_some_iff.mp h
        exact ⟨l.id.name, rfl⟩
      · rw [if_neg own] at h
        exact ih h

theorem field_of_readSlot {s : Schema κ} {p : Property κ} {slot : Slot κ}
    (h : s.readSlot p = some slot) :
    ∃ f, s.fields[slot.position]? = some f ∧ f.type = slot.type := by
  cases s with
  | declared own bases => exact field_of_slotIn h
  | custom c =>
      obtain ⟨position, -, rest⟩ := Option.bind_eq_some_iff.mp h
      obtain ⟨f, hf, ⟨⟩⟩ := Option.bind_eq_some_iff.mp rest
      refine ⟨f, ?_, rfl⟩
      rw [fields, layers]
      simpa using hf

/-- The properties of a descriptor stand for the fields of a schema one by one. -/
structure Dispatches (s : Schema κ) (d : Descriptor κ) : Prop where
  length_eq : d.allProperties.length = s.fields.length
  entry : ∀ {i : Nat} {f : Field κ} {p : Property κ}, s.fields[i]? = some f →
    d.allProperties[i]? = some p → p.jsonName = f.jsonName ∧ d.find p.jsonName = some p ∧
      ∃ context, s.readSlot p = some ⟨i, f.type, context⟩ ∧
        ∀ fields, s.writeAction p fields = some (.field i context)

/-- A schema that is declared by its fields, with a valid descriptor. A record holds the records of
the types it extends within itself, so no two of its layers can be of one type. -/
structure IsDeclared (s : Schema κ) : Prop where
  declared : ∃ own bases, s = .declared own bases
  distinct : (s.layers.map fun l => l.id.key).Nodup
  valid : ∃ d, s.descriptor = .ok d

theorem IsDeclared.dispatches {s : Schema κ} (h : s.IsDeclared) :
    ∃ d, s.descriptor = .ok d ∧ s.Dispatches d := by
  obtain ⟨⟨own, bases, rfl⟩, distinct, d, hd⟩ := h
  obtain ⟨chain, resolves⟩ := Layer.describe_spec hd
  have properties : d.allProperties = Layer.allProperties (own :: bases.map Prod.snd) := by
    rw [Descriptor.allProperties, chain, ← List.map_reverse, List.flatMap_map]
    rfl
  refine ⟨d, hd, ?_, ?_⟩
  · rw [properties]
    exact Layer.length_allProperties _
  · intro i f p hf hp
    have found : d.find p.jsonName = some p := by
      obtain ⟨l, hl, hm⟩ := List.mem_flatMap.mp (List.mem_of_getElem? hp)
      exact resolves l (List.mem_reverse.mp hl) p hm
    rw [properties] at hp
    obtain ⟨context, slot⟩ := slotIn_eq distinct hf hp
    obtain ⟨l, -, j, hj⟩ := Layer.getElem?_allProperties hf
    cases hp.symm.trans hj
    refine ⟨rfl, found, context, slot, fun fields => ?_⟩
    have written : slotIn l.id.key j (layers (.declared own bases)) =
        some ⟨i, f.type, context⟩ := slot
    simp only [writeAction, Property.ofIndex, written, Option.map_some]

end Schema

end TypedJson
