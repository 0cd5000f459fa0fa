import TypedJson.Proofs.Schema.Addressing

/-!
# The order of the members

Writing a record goes down the chain of levels and comes back level by level; the list of all
properties of a descriptor is put together from the reversed chain. Both pass through the same
properties in the same order, and each property leads to the field that it was declared for, however
many types up the chain.
-/

set_option autoImplicit false
set_option relaxedAutoImplicit false

namespace TypedJson

open Operation

namespace EmitM

variable {α β : Type} {evs evs' : List Event}

/-- Whenever the operation succeeds, some calls for these units succeed and leave the same state. -/
def Emits (evs : List Event) (x : EmitM α) : Prop :=
  ∃ calls : List Writer.Call, calls.map Writer.Call.event = evs ∧
    ∀ w a w', x w = .ok a w' → calls.forM Writer.Call.run w = .ok () w'

theorem emits_pure (a : α) : Emits [] (pure a : EmitM α) := by
  refine ⟨[], rfl, ?_⟩
  rintro w _ _ ⟨⟩
  rfl

theorem emits_call (c : Writer.Call) : Emits [c.event] (write c.run) := by
  refine ⟨[c], rfl, fun w _ w' h => ?_⟩
  exact bind_of_ok (run_of_write h)

theorem emits_then {x : EmitM α} {y : EmitM β} (hx : Emits evs x) (hy : Emits evs' y) :
    Emits (evs ++ evs') (x >>= fun _ => y) := by
  obtain ⟨calls, rfl, run⟩ := hx
  obtain ⟨calls', rfl, run'⟩ := hy
  refine ⟨calls ++ calls', List.map_append, fun w b w'' h => ?_⟩
  obtain ⟨a, w', first, rest⟩ := bind_eq_ok.mp h
  have split : (calls ++ calls').forM Writer.Call.run =
      (do calls.forM Writer.Call.run; calls'.forM Writer.Call.run) := List.forM_append
  rw [split]
  exact (bind_of_ok (run w a w' first)).trans (run' w' b w'' rest)

theorem emits_within {x : EmitM α} (hx : Emits evs x) (context : Option String) (name : String) :
    Emits evs (within context name x) := by
  obtain ⟨calls, events, run⟩ := hx
  refine ⟨calls, events, fun w a w' h => run w a w' ?_⟩
  unfold within at h
  split at h
  · cases h
  · exact h

theorem emits_forM {ι δ : Type} {ps : List ι} {ds : List δ} {body : ι → EmitM Unit}
    {units : δ → List Event} (h : List.Forall₂ (fun p d => Emits (units d) (body p)) ps ds) :
    Emits (ds.flatMap units) (ps.forM body) := by
  induction h with
  | nil => exact emits_pure ()
  | cons first _ ih => exact emits_then first ih

end EmitM

/-! What is emitted for a value. -/

variable {κ : Type} [DecidableEq κ] {catalog : Catalog κ}

namespace Schema

variable {s : Schema κ} {fields : List (Value κ)} {writers : List (EmitM Unit)}

theorem exists_members_property
    (hw : ∀ x ∈ writers, ∃ t : Tree, EmitM.Emits t.events x) (p : Property κ) :
    ∃ members : List (String × Tree), EmitM.Emits (members.flatMap Tree.ofMember)
      (s.writePropertyBy fields writers p) := by
  have member {x : EmitM Unit} {t : Tree} (hx : EmitM.Emits t.events x) :
      EmitM.Emits ([(p.jsonName, t)].flatMap Tree.ofMember)
        (do EmitM.write (Writer.Call.name p.jsonName).run; x; pure true : EmitM Bool) := by
    have value := EmitM.emits_then hx (EmitM.emits_pure true)
    have whole := EmitM.emits_then (EmitM.emits_call (.name p.jsonName)) value
    rw [List.append_nil] at whole
    rw [List.flatMap_singleton]
    exact whole
  unfold writePropertyBy
  split
  · exact ⟨[], EmitM.emits_pure _⟩
  · exact ⟨[], EmitM.emits_pure _⟩
  · split
    · exact ⟨[], EmitM.emits_pure _⟩
    · rename_i context _ _ writer hx
      obtain ⟨t, emits⟩ := hw writer (List.mem_of_getElem? hx)
      exact ⟨_, member (EmitM.emits_within emits context p.jsonName)⟩
  · rename_i x _
    have number : EmitM.Emits (Tree.number (String.ofList x.numeral)).events
        (EmitM.write (WriteM.double x)) := EmitM.emits_call (.double x)
    exact ⟨_, member number⟩

theorem exists_tree_writeBy (hw : ∀ x ∈ writers, ∃ t : Tree, EmitM.Emits t.events x) :
    ∃ t : Tree, EmitM.Emits t.events (s.writeBy fields writers) := by
  cases described : s.descriptor with
  | error fault =>
      refine ⟨.null, [.null], rfl, fun w a w' h => ?_⟩
      rw [writeBy, EmitM.resolve, described] at h
      cases h
  | ok d =>
      have loop (ps : List (Property κ)) : ∃ members : List (String × Tree),
          EmitM.Emits (members.flatMap Tree.ofMember)
            (ps.forM fun p => (do let _ ← s.writePropertyBy fields writers p : EmitM Unit)) := by
        induction ps with
        | nil => exact ⟨[], EmitM.emits_pure ()⟩
        | cons p ps ih =>
            obtain ⟨members, first⟩ := exists_members_property hw p
            obtain ⟨more, rest⟩ := ih
            have unit := EmitM.emits_then first (EmitM.emits_pure ())
            rw [List.append_nil] at unit
            refine ⟨members ++ more, ?_⟩
            rw [List.flatMap_append]
            exact EmitM.emits_then unit rest
      obtain ⟨members, body⟩ := loop (d.chain.reverse.flatMap Level.properties)
      rw [← writeLevelsBy_eq] at body
      have closed := EmitM.emits_then body (EmitM.emits_call .endObject)
      have whole := EmitM.emits_then (EmitM.emits_call .beginObject) closed
      have resolved : (EmitM.resolve s : EmitM (Descriptor κ)) = pure d := by
        rw [EmitM.resolve, described]
      refine ⟨.object members, ?_⟩
      rw [Tree.events, Tree.memberEvents_eq, writeBy, resolved]
      exact whole

end Schema

namespace EmitM

mutual

/-- Whatever is written successfully is a JSON value. -/
theorem exists_tree_value : (v : Value κ) → ∃ t : Tree, Emits t.events (value catalog v)
  | .scalar s => by
      refine ⟨s.tree, ?_⟩
      rw [Scalar.tree_events, value, ← Scalar.call_run]
      exact emits_call s.call
  | .absent => by
      refine ⟨.null, ?_⟩
      rw [value]
      exact emits_call .null
  | .present v => by
      rw [value]
      exact exists_tree_value v
  | .list vs => by
      obtain ⟨ts, items⟩ := exists_trees vs
      have closed := emits_then (emits_forM items) (emits_call .endArray)
      have whole := emits_then (emits_call .beginArray) closed
      refine ⟨.array ts, ?_⟩
      rw [Tree.events, Tree.itemEvents_eq, value, items_eq]
      exact whole
  | .record k fields => by
      rw [value, writers_eq]
      refine Schema.exists_tree_writeBy fun x hx => ?_
      obtain ⟨v, hv, rfl⟩ := List.mem_map.mp hx
      obtain ⟨ts, values⟩ := exists_trees fields
      obtain ⟨i, hi, rfl⟩ := List.getElem_of_mem hv
      exact ⟨_, values.get hi (by rw [← values.length_eq]; exact hi)⟩

theorem exists_trees : (vs : List (Value κ)) →
    ∃ ts : List Tree, List.Forall₂ (fun v t => Emits t.events (value catalog v)) vs ts
  | [] => ⟨[], .nil⟩
  | v :: vs => by
      obtain ⟨t, first⟩ := exists_tree_value v
      obtain ⟨ts, rest⟩ := exists_trees vs
      exact ⟨t :: ts, .cons first rest⟩

end

end EmitM

/-! The members of a record. -/

namespace Schema

theorem Dispatches.names_nodup {s : Schema κ} {d : Descriptor κ} (h : s.Dispatches d) :
    (d.allProperties.map Property.jsonName).Nodup := by
  rw [List.nodup_iff_getElem?_ne_getElem?]
  intro i j lt hj same
  rw [List.length_map] at hj
  have hi : i < d.allProperties.length := by omega
  have property {n : Nat} (hn : n < d.allProperties.length) :
      d.find d.allProperties[n].jsonName = some d.allProperties[n] ∧
        ∃ t context, s.readSlot d.allProperties[n] = some ⟨n, t, context⟩ := by
    have lt : n < s.fields.length := by rw [← h.length_eq]; exact hn
    obtain ⟨-, found, context, slot, -⟩ := h.entry (List.getElem?_eq_getElem lt)
      (List.getElem?_eq_getElem hn)
    exact ⟨found, _, context, slot⟩
  obtain ⟨found, t, context, slot⟩ := property hi
  obtain ⟨found', t', context', slot'⟩ := property hj
  have name : d.allProperties[i].jsonName = d.allProperties[j].jsonName := by
    simpa [List.getElem?_eq_getElem hi, List.getElem?_eq_getElem hj] using same
  -- one name finds one property, and one property has one slot
  rw [name, found'] at found
  rw [← Option.some.inj found, slot'] at slot
  cases slot
  exact absurd lt (Nat.lt_irrefl _)

end Schema

namespace EmitM

def member (catalog : Catalog κ) (m : Property κ × Value κ) : EmitM Unit := do
  write (WriteM.name m.1.jsonName)
  within (some m.1.writer.name) m.1.jsonName (value catalog m.2)

theorem emits_member {t : Tree} {p : Property κ} {v : Value κ}
    (h : Emits t.events (value catalog v)) :
    Emits (Tree.ofMember (p.jsonName, t)) (member catalog (p, v)) :=
  emits_then (emits_call (.name p.jsonName)) (emits_within h _ _)

theorem emits_members {ps : List (Property κ)} {vs : List (Value κ)} {ts : List Tree}
    (same : ps.length = vs.length)
    (values : List.Forall₂ (fun v t => Emits t.events (value catalog v)) vs ts) :
    List.Forall₂ (fun m t => Emits (Tree.ofMember t) (member catalog m)) (ps.zip vs)
      ((ps.map Property.jsonName).zip ts) := by
  induction values generalizing ps with
  | nil =>
      rw [List.zip_nil_right, List.zip_nil_right]
      exact .nil
  | cons first _ ih =>
      cases ps with
      | nil => cases same
      | cons p ps => exact .cons (emits_member first) (ih (Nat.succ.inj same))

theorem forM_eq_zip {ps : List (Property κ)} {vs : List (Value κ)} {body : Property κ → EmitM Unit}
    (same : ps.length = vs.length)
    (h : ∀ (i : Nat) (p : Property κ) (v : Value κ), ps[i]? = some p → vs[i]? = some v →
      body p = member catalog (p, v)) :
    ps.forM body = (ps.zip vs).forM (member catalog) := by
  induction ps generalizing vs with
  | nil => rfl
  | cons p ps ih =>
      cases vs with
      | nil => cases same
      | cons v vs =>
          have first := h 0 p v rfl rfl
          have rest := ih (Nat.succ.inj same) fun i p v hp hv => h (i + 1) p v hp hv
          change (body p >>= fun _ => ps.forM body) = member catalog (p, v) >>= fun _ =>
            (ps.zip vs).forM (member catalog)
          rw [first, rest]

variable {own : Layer κ} {bases : List (String × Layer κ)} {d : Descriptor κ} {k : κ}
variable {fields : List (Value κ)}

theorem value_record (declared : catalog k = .declared own bases)
    (distinct : ((catalog k).layers.map fun l => l.id.key).Nodup)
    (described : (catalog k).descriptor = .ok d)
    (properties : d.allProperties = Layer.allProperties (catalog k).layers)
    (complete : fields.length = (catalog k).fields.length) :
    value catalog (.record k fields) = (do
      write WriteM.beginObject
      (d.allProperties.zip fields).forM (member catalog)
      write WriteM.endObject) := by
  have layers : (catalog k).layers = own :: bases.map Prod.snd := by
    rw [declared]
    rfl
  have loop : (catalog k).writeLevelsBy fields (writers catalog fields) d.chain =
      (d.allProperties.zip fields).forM (member catalog) := by
    rw [Schema.writeLevelsBy_eq]
    refine forM_eq_zip ?_ fun i p v hp hv => ?_
    · change d.allProperties.length = _
      rw [properties, Layer.length_allProperties, complete]
      rfl
    · have hp : d.allProperties[i]? = some p := hp
      obtain ⟨f, hf⟩ : ∃ f, (Layer.allFields (catalog k).layers)[i]? = some f := by
        have lt : i < (catalog k).fields.length := by
          rw [← complete]
          exact (List.getElem?_eq_some_iff.mp hv).1
        exact ⟨_, List.getElem?_eq_getElem lt⟩
      obtain ⟨l, j, found, addresses⟩ := Layer.addresses_of_getElem? hf
      rw [properties, found] at hp
      cases hp
      have slot := Schema.slotIn_of_addresses distinct addresses
      rw [layers] at slot
      let p : Property κ := .ofIndex f.jsonName f.name j l.id
      have written := property_of_slot (p := p) declared slot hv
      rw [property] at written
      rw [written, member]
      simp only [bind_assoc, pure_bind, bind_pure_unit]
      rfl
  have resolved : (resolve (catalog k) : EmitM (Descriptor κ)) = pure d := by
    rw [resolve, described]
  rw [value, Schema.writeBy, resolved, pure_bind, loop]

/-- A record of a declared schema is written as an object whose members are all properties of its
descriptor, the remotest ancestor's first, each once and under a name of its own; behind its name
comes what is written for the field that it was declared for. -/
theorem members_in_order (valid : (catalog k).IsDeclared)
    (complete : fields.length = (catalog k).fields.length) :
    ∃ d, (catalog k).descriptor = .ok d ∧
      d.allProperties = (catalog k).layers.reverse.flatMap Layer.properties ∧
      d.allProperties.length = fields.length ∧
      (d.allProperties.map Property.jsonName).Nodup ∧
      (∀ i f, (catalog k).fields[i]? = some f → ∃ l j,
        d.allProperties[i]? = some (.ofIndex f.jsonName f.name j l.id) ∧
          Layer.Addresses (catalog k).layers l.id.key j l f i) ∧
      value catalog (.record k fields) = (do
        write WriteM.beginObject
        (d.allProperties.zip fields).forM (member catalog)
        write WriteM.endObject) ∧
      ∃ ts : List Tree, List.Forall₂ (fun v t => Emits t.events (value catalog v)) fields ts ∧
        Emits (Tree.object ((d.allProperties.map Property.jsonName).zip ts)).events
          (value catalog (.record k fields)) := by
  obtain ⟨d, described, dispatches⟩ := valid.dispatches
  obtain ⟨⟨own, bases, declared⟩, distinct, -⟩ := valid
  have properties : d.allProperties = Layer.allProperties (catalog k).layers := by
    have description : own.describe (bases.map Prod.snd) = .ok d := by
      rw [declared] at described
      exact described
    rw [declared, Descriptor.allProperties, (Layer.describe_spec description).1, ← List.map_reverse,
      List.flatMap_map]
    rfl
  have same : d.allProperties.length = fields.length := by
    rw [dispatches.length_eq, complete]
  have run := value_record declared distinct described properties complete
  obtain ⟨ts, values⟩ := @exists_trees _ _ catalog fields
  refine ⟨d, described, properties, same, dispatches.names_nodup, fun i f hf => ?_, run, ts, values,
    ?_⟩
  · rw [properties]
    exact Layer.addresses_of_getElem? hf
  · have members := emits_members same values
    have closed := emits_then (emits_forM members) (emits_call .endObject)
    have whole := emits_then (emits_call .beginObject) closed
    rw [run, Tree.events, Tree.memberEvents_eq]
    exact whole

/-- A signed document, which extends a document, which extends an entity. -/
theorem members_in_order_signedDocument :
    let fields : List (Value Sample.Key) :=
      [.scalar (.integer 7), .absent, .scalar (.text "t"), .absent]
    ∃ d : Descriptor Sample.Key, (Sample.catalog .signedDocument).descriptor = .ok d ∧
      d.allProperties.map Property.jsonName = ["id", "version", "title", "signature"] ∧
      value Sample.catalog (.record .signedDocument fields) = (do
        write WriteM.beginObject
        (d.allProperties.zip fields).forM (member Sample.catalog)
        write WriteM.endObject) := by
  intro fields
  have valid : (Sample.catalog .signedDocument).IsDeclared := ⟨⟨_, _, rfl⟩, by decide, _, rfl⟩
  have complete : fields.length = (Sample.catalog .signedDocument).fields.length := rfl
  obtain ⟨d, described, properties, -, -, -, run, -⟩ := members_in_order valid complete
  exact ⟨d, described, by rw [properties]; rfl, run⟩

end EmitM

end TypedJson
