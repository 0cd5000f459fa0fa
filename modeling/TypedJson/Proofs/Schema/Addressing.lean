import TypedJson.Proofs.Schema.Dispatch
import TypedJson.Proofs.Schema.Writing
import TypedJson.Sample.Catalog

set_option autoImplicit false
set_option relaxedAutoImplicit false

namespace TypedJson

open Operation

variable {κ : Type}

namespace Layer

/-- Among the layers there is one of the owner's, and it declares the field at the index. In a
record the fields of a layer stand behind those of the layers it extends. -/
structure Addresses (layers : List (Layer κ)) (owner : κ) (index : Nat) (l : Layer κ)
    (f : Field κ) (position : Nat) : Prop where
  owned : l.id.key = owner
  declares : l.fields[index]? = some f
  stands : ∃ above below, layers = above ++ l :: below ∧
    position = (allFields below).length + index

variable {layers : List (Layer κ)} {owner : κ} {index position : Nat} {l : Layer κ} {f : Field κ}

theorem Addresses.field (h : Addresses layers owner index l f position) :
    (allFields layers)[position]? = some f := by
  obtain ⟨above, below, rfl, rfl⟩ := h.stands
  induction above with
  | nil =>
      rw [List.nil_append, allFields_cons, List.getElem?_append_right (by omega),
        Nat.add_sub_cancel_left]
      exact h.declares
  | cons first above ih =>
      have field := ih ⟨h.owned, h.declares, above, below, rfl, rfl⟩
      rw [List.cons_append, allFields_cons,
        List.getElem?_append_left (List.getElem?_eq_some_iff.mp field).1]
      exact field

theorem addresses_of_getElem? {i : Nat} (h : (allFields layers)[i]? = some f) :
    ∃ l j, (allProperties layers)[i]? = some (.ofIndex f.jsonName f.name j l.id) ∧
      Addresses layers l.id.key j l f i := by
  induction layers with
  | nil => cases h
  | cons l bases ih =>
      have same := length_allProperties bases
      rw [allFields_cons] at h
      rw [allProperties_cons]
      by_cases inherited : i < (allFields bases).length
      · rw [List.getElem?_append_left inherited] at h
        rw [List.getElem?_append_left (by omega)]
        obtain ⟨base, j, property, owned, declares, above, below, rfl, stands⟩ := ih h
        exact ⟨base, j, property, owned, declares, l :: above, below, rfl, stands⟩
      · rw [List.getElem?_append_right (by omega)] at h
        rw [List.getElem?_append_right (by omega), same]
        refine ⟨l, i - (allFields bases).length, ?_, rfl, h, [], bases, rfl, by omega⟩
        rw [properties, List.getElem?_mapIdx, h]
        rfl

/-- Some field is addressed if and only if the owner is one of the layers and has that many. -/
theorem exists_addresses_iff :
    (∃ l f position, Addresses layers owner index l f position) ↔
      ∃ l ∈ layers, l.id.key = owner ∧ index < l.fields.length := by
  constructor
  · rintro ⟨l, f, position, owned, declares, above, below, rfl, -⟩
    exact ⟨l, by simp, owned, (List.getElem?_eq_some_iff.mp declares).1⟩
  · rintro ⟨l, hl, owned, lt⟩
    obtain ⟨above, below, rfl⟩ := List.append_of_mem hl
    exact ⟨l, l.fields[index], _, owned, List.getElem?_eq_getElem lt, above, below, rfl, rfl⟩

end Layer

namespace Schema

variable [DecidableEq κ] {layers : List (Layer κ)} {owner : κ} {index : Nat}

theorem slotIn_append {above : List (Layer κ)} (others : ∀ l ∈ above, l.id.key ≠ owner) :
    slotIn owner index (above ++ layers) = slotIn owner index layers := by
  induction above with
  | nil => rfl
  | cons l above ih =>
      rw [List.cons_append, slotIn, if_neg (others l List.mem_cons_self)]
      exact ih fun b hb => others b (List.mem_cons_of_mem l hb)

theorem slotIn_of_addresses (distinct : (layers.map fun l => l.id.key).Nodup) {l : Layer κ}
    {f : Field κ} {position : Nat} (h : Layer.Addresses layers owner index l f position) :
    slotIn owner index layers = some ⟨position, f.type, some l.id.name⟩ := by
  obtain ⟨above, below, rfl, rfl⟩ := h.stands
  have others : ∀ b ∈ above, b.id.key ≠ owner := by
    rintro b hb same
    rw [List.map_append, List.nodup_append] at distinct
    refine distinct.2.2 b.id.key (List.mem_map_of_mem hb) l.id.key ?_ (same.trans h.owned.symm)
    exact List.mem_map_of_mem List.mem_cons_self
  rw [slotIn_append others, slotIn, if_pos h.owned, h.declares, Layer.countFields_eq]
  rfl

theorem addresses_of_slotIn {slot : Slot κ} (h : slotIn owner index layers = some slot) :
    ∃ l f position, Layer.Addresses layers owner index l f position := by
  induction layers with
  | nil => cases h
  | cons l bases ih =>
      rw [slotIn] at h
      split at h
      · rename_i owned
        obtain ⟨f, declares, -⟩ := Option.map_eq_some_iff.mp h
        exact ⟨l, f, _, owned, declares, [], bases, rfl, rfl⟩
      · obtain ⟨base, f, position, owned, declares, above, below, rfl, stands⟩ := ih h
        exact ⟨base, f, position, owned, declares, l :: above, below, rfl, stands⟩

theorem slotIn_eq_none
    (free : ¬ ∃ l f position, Layer.Addresses layers owner index l f position) :
    slotIn owner index layers = none := by
  cases h : slotIn owner index layers with
  | none => rfl
  | some slot => exact absurd (addresses_of_slotIn h) free

variable {catalog : Catalog κ} {own : Layer κ} {bases : List (String × Layer κ)} {p : Property κ}

/-- Reading a property of a declared schema reads the field that it addresses, with an error that
names the schema of the field. -/
theorem fillProperty_of_slot {slot : Slot κ} {schema : String}
    (h : slotIn p.reader.key p.readIndex (own :: bases.map Prod.snd) = some slot)
    (context : slot.context = some schema) (r : Reader) (fields : List (Value κ)) :
    (Schema.declared own bases).fillProperty catalog p (r, fields) =
      match BindM.field catalog slot.type r with
      | .ok v r' => .ok true (r', fields.set slot.position v)
      | .error e r' => .error (.property schema p.jsonName e) (r', fields) := by
  have chosen : (Schema.declared own bases).readSlot p = some slot := h
  have run : (Schema.declared own bases).fillProperty catalog p (r, fields) =
      (FillM.typed (BindM.within slot.context p.jsonName
        (BindM.fieldWithin catalog (r.unitsLeft + 1) slot.type)) >>= fun v => do
          FillM.update fun fields => fields.set slot.position v
          pure true) (r, fields) := by
    rw [fillProperty, FillM.bounded, fillPropertyBy, chosen]
  have field : BindM.field catalog slot.type r =
    BindM.fieldWithin catalog (r.unitsLeft + 1) slot.type r := rfl
  rw [run, field, context]
  cases read : BindM.fieldWithin catalog (r.unitsLeft + 1) slot.type r with
  | ok v r' =>
      have typed : FillM.typed (BindM.within (some schema) p.jsonName
          (BindM.fieldWithin catalog (r.unitsLeft + 1) slot.type)) (r, fields) =
          .ok v (r', fields) := by
        simp only [FillM.typed, BindM.within, read]
      exact bind_of_ok typed
  | error e r' =>
      refine bind_of_error ?_
      simp only [FillM.typed, BindM.within, read]

theorem fillProperty_of_none
    (h : slotIn p.reader.key p.readIndex (own :: bases.map Prod.snd) = none) (r : Reader)
    (fields : List (Value κ)) :
    (Schema.declared own bases).fillProperty catalog p (r, fields) = .ok false (r, fields) := by
  have chosen : (Schema.declared own bases).readSlot p = none := h
  rw [fillProperty, FillM.bounded, fillPropertyBy, chosen]
  rfl

end Schema

namespace EmitM

variable [DecidableEq κ] {catalog : Catalog κ} {own : Layer κ} {bases : List (String × Layer κ)}
variable {k : κ} {p : Property κ} {fields : List (Value κ)}

theorem property_of_slot {slot : Slot κ} {v : Value κ} (declared : catalog k = .declared own bases)
    (h : Schema.slotIn p.writer.key p.writeIndex (own :: bases.map Prod.snd) = some slot)
    (hv : fields[slot.position]? = some v) :
    property catalog (.record k fields) p = (do
      write (WriteM.name p.jsonName)
      within slot.context p.jsonName (value catalog v)
      pure true) := by
  have action : (catalog k).writeAction p fields = some (.field slot.position slot.context) := by
    rw [declared, Schema.writeAction]
    exact congrArg (Option.map _) h
  have writer : (writers catalog fields)[slot.position]? = some (value catalog v) := by
    rw [writers_eq, List.getElem?_map, hv, Option.map_some]
  rw [property, Schema.writePropertyBy, action]
  simp only [writer]

theorem property_of_none (declared : catalog k = .declared own bases)
    (h : Schema.slotIn p.writer.key p.writeIndex (own :: bases.map Prod.snd) = none) :
    property catalog (.record k fields) p = pure false := by
  have action : (catalog k).writeAction p fields = none := by
    rw [declared, Schema.writeAction]
    exact congrArg (Option.map _) h
  rw [property, Schema.writePropertyBy, action]

end EmitM

namespace Schema

variable [DecidableEq κ] {catalog : Catalog κ} {own : Layer κ} {bases : List (String × Layer κ)}
variable {k : κ}

/-- Whatever property a declared schema is given: if it addresses a field, reading it replaces that
field by what is read for it, or fails in the name of the field's schema and replaces nothing, and
writing it writes its name and that field; if it addresses none, nothing is read or written. -/
theorem dispatch_exact (declared : catalog k = .declared own bases)
    (distinct : ((catalog k).layers.map fun l => l.id.key).Nodup) (p : Property κ)
    {fields : List (Value κ)} (complete : fields.length = (catalog k).fields.length) :
    (∀ l f position,
      Layer.Addresses (catalog k).layers p.reader.key p.readIndex l f position →
        (catalog k).fields[position]? = some f ∧ position < fields.length ∧
        ∀ r, (catalog k).fillProperty catalog p (r, fields) =
          match BindM.field catalog f.type r with
          | .ok v r' => .ok true (r', fields.set position v)
          | .error e r' => .error (.property l.id.name p.jsonName e) (r', fields)) ∧
    (∀ r, (∃ s, (catalog k).fillProperty catalog p (r, fields) = .ok true s) ↔
      ∃ l f position,
        Layer.Addresses (catalog k).layers p.reader.key p.readIndex l f position ∧
          ∃ v r', BindM.field catalog f.type r = .ok v r') ∧
    ((¬ ∃ l ∈ (catalog k).layers, l.id.key = p.reader.key ∧ p.readIndex < l.fields.length) →
      ∀ r, (catalog k).fillProperty catalog p (r, fields) = .ok false (r, fields)) ∧
    (∀ l f position,
      Layer.Addresses (catalog k).layers p.writer.key p.writeIndex l f position →
        (catalog k).fields[position]? = some f ∧ ∃ v, fields[position]? = some v ∧
          EmitM.property catalog (.record k fields) p = (do
            EmitM.write (WriteM.name p.jsonName)
            EmitM.within (some l.id.name) p.jsonName (EmitM.value catalog v)
            pure true)) ∧
    ((¬ ∃ l ∈ (catalog k).layers, l.id.key = p.writer.key ∧ p.writeIndex < l.fields.length) →
      EmitM.property catalog (.record k fields) p = pure false) := by
  have layers : (catalog k).layers = own :: bases.map Prod.snd := by
    rw [declared]
    rfl
  have reads (l f position)
      (h : Layer.Addresses (catalog k).layers p.reader.key p.readIndex l f position) (r : Reader) :
      (catalog k).fillProperty catalog p (r, fields) =
        match BindM.field catalog f.type r with
        | .ok v r' => .ok true (r', fields.set position v)
        | .error e r' => .error (.property l.id.name p.jsonName e) (r', fields) := by
    have slot := slotIn_of_addresses distinct h
    rw [layers] at slot
    rw [declared]
    exact fillProperty_of_slot slot rfl r fields
  have ignores (free : ¬ ∃ l f position,
      Layer.Addresses (catalog k).layers p.reader.key p.readIndex l f position) (r : Reader) :
      (catalog k).fillProperty catalog p (r, fields) = .ok false (r, fields) := by
    have slot := slotIn_eq_none free
    rw [layers] at slot
    rw [declared]
    exact fillProperty_of_none slot r fields
  refine ⟨fun l f position h => ?_, fun r => ⟨?_, ?_⟩, fun free r => ?_, fun l f position h => ?_,
    fun free => ?_⟩
  · have field := h.field
    refine ⟨field, ?_, reads l f position h⟩
    rw [complete]
    exact (List.getElem?_eq_some_iff.mp field).1
  · rintro ⟨s, run⟩
    by_cases addressed : ∃ l f position,
        Layer.Addresses (catalog k).layers p.reader.key p.readIndex l f position
    · obtain ⟨l, f, position, h⟩ := addressed
      refine ⟨l, f, position, h, ?_⟩
      rw [reads l f position h] at run
      cases read : BindM.field catalog f.type r with
      | ok v r' => exact ⟨v, r', rfl⟩
      | error e r' =>
          rw [read] at run
          cases run
    · rw [ignores addressed] at run
      cases run
  · rintro ⟨l, f, position, h, v, r', read⟩
    refine ⟨(r', fields.set position v), ?_⟩
    rw [reads l f position h, read]
  · exact ignores (fun addressed => free (Layer.exists_addresses_iff.mp addressed)) r
  · have field := h.field
    have slot := slotIn_of_addresses distinct h
    have lt : position < fields.length := by
      rw [complete]
      exact (List.getElem?_eq_some_iff.mp field).1
    rw [layers] at slot
    exact ⟨field, fields[position], List.getElem?_eq_getElem lt,
      EmitM.property_of_slot declared slot (List.getElem?_eq_getElem lt)⟩
  · have slot := slotIn_eq_none fun addressed => free (Layer.exists_addresses_iff.mp addressed)
    rw [layers] at slot
    exact EmitM.property_of_none declared slot

/-- A property that no schema describes: read, it stands for the version of an entity, two types up
the chain; written, for the title of a document. -/
theorem dispatch_exact_undescribed :
    let p : Property Sample.Key := ⟨"x", "", 1, 0, ⟨.entity, "E"⟩, ⟨.document, "D"⟩⟩
    let fields : List (Value Sample.Key) :=
      [.scalar (.integer 3), .absent, .scalar (.text "t"), .absent]
    (∀ r, (Sample.catalog .signedDocument).fillProperty Sample.catalog p (r, fields) =
      match BindM.field Sample.catalog (.optional Sample.uint8) r with
      | .ok v r' => .ok true (r', [.scalar (.integer 3), v, .scalar (.text "t"), .absent])
      | .error e r' => .error (.property "Entity" "x" e) (r', fields)) ∧
    EmitM.property Sample.catalog (.record .signedDocument fields) p = (do
      EmitM.write (WriteM.name "x")
      EmitM.within (some "Document") "x" (EmitM.value Sample.catalog (.scalar (.text "t")))
      pure true) := by
  intro p fields
  have declared : Sample.catalog .signedDocument = .declared Sample.signedDocument
      [("document", Sample.document), ("entity", Sample.entity)] := rfl
  have complete : fields.length = (Sample.catalog .signedDocument).fields.length := rfl
  obtain ⟨reads, -, -, writes, -⟩ := dispatch_exact declared (by decide) p complete
  refine ⟨fun r => ?_, ?_⟩
  · obtain ⟨-, -, run⟩ := reads Sample.entity _ 1
      ⟨rfl, rfl, [Sample.signedDocument, Sample.document], [], rfl, rfl⟩
    refine (run r).trans ?_
    have type : (Sample.plain "version" (.optional Sample.uint8)).type = .optional Sample.uint8 :=
      rfl
    rw [type]
    cases BindM.field Sample.catalog (.optional Sample.uint8) r <;> rfl
  · obtain ⟨-, v, hv, run⟩ := writes Sample.document _ 2
      ⟨rfl, rfl, [Sample.signedDocument], [Sample.entity], rfl, rfl⟩
    cases hv
    exact run

end Schema

end TypedJson
