import Mathlib.Data.List.Pairwise
import TypedJson.Proofs.Schema.Members

set_option autoImplicit false
set_option relaxedAutoImplicit false

namespace TypedJson

variable {κ : Type}

/-- A draft has been built to this descriptor, and so have those that it extends. -/
inductive Descriptor.Built : Descriptor κ → Prop where
  | build (draft : Draft κ) {d : Descriptor κ} : draft.build = .ok d →
      (∀ base, draft.base = some base → Built base) → Built d

/-- Two levels have no name in common. -/
def Level.Apart (near far : Level κ) : Prop :=
  ∀ p ∈ near.properties, ∀ q ∈ far.properties, p.jsonName ≠ q.jsonName

instance : Std.Symm (Level.Apart (κ := κ)) :=
  ⟨fun _ _ apart p hp q hq same => apart q hq p hp same.symm⟩

/-- What the check of each draft makes of a whole chain of levels. -/
structure Level.Orderly (chain : List (Level κ)) : Prop where
  named : ∀ l ∈ chain, ∀ p ∈ l.properties, p.jsonName ≠ ""
  distinct : ∀ l ∈ chain, l.properties.Pairwise Property.Distinct
  apart : chain.Pairwise Level.Apart

namespace Level.Orderly

variable {l : Level κ} {inherited : List (Level κ)}

theorem nil : Orderly ([] : List (Level κ)) :=
  ⟨nofun, nofun, .nil⟩

theorem cons (h : Orderly inherited) (fresh : ∀ p ∈ l.properties, p.Fresh inherited)
    (distinct : l.properties.Pairwise Property.Distinct) : Orderly (l :: inherited) where
  named := List.forall_mem_cons.mpr ⟨fun p hp => (fresh p hp).nonEmpty, h.named⟩
  distinct := List.forall_mem_cons.mpr ⟨distinct, h.distinct⟩
  apart := by
    refine List.pairwise_cons.mpr ⟨fun far hfar p hp q hq same => ?_, h.apart⟩
    have unshadowed := Level.findName_eq_none.mp ((fresh p hp).unshadowed far hfar)
    exact unshadowed q hq same.symm

theorem unique (h : Orderly inherited) {a b : Level κ} (ha : a ∈ inherited) (hb : b ∈ inherited)
    {p q : Property κ} (hp : p ∈ a.properties) (hq : q ∈ b.properties)
    (same : p.jsonName = q.jsonName) : a = b := by
  by_contra other
  exact h.apart.forall ha hb other p hp q hq same

end Level.Orderly

theorem Draft.orderly_ancestors {draft : Draft κ}
    (orderly : ∀ base, draft.base = some base → Level.Orderly base.chain) :
    Level.Orderly draft.ancestors := by
  unfold ancestors
  cases extended : draft.base with
  | none => exact .nil
  | some base => exact orderly base extended

namespace Descriptor

variable {d : Descriptor κ} {p : Property κ} {name : String}

theorem Built.orderly (h : d.Built) : Level.Orderly d.chain := by
  induction h with
  | build _ built _ ih =>
      obtain ⟨id, -, rfl, fresh, distinct⟩ := Draft.build_eq_ok.mp built
      exact (Draft.orderly_ancestors ih).cons fresh distinct

theorem Built.resolves (h : d.Built) : d.Resolves := by
  induction h with
  | build _ built _ ih => exact (Draft.build_spec built ih).2

theorem mem_allProperties : p ∈ d.allProperties ↔ ∃ l ∈ d.chain, p ∈ l.properties := by
  simp [allProperties]

theorem nodup_names (h : Level.Orderly d.chain) :
    (d.allProperties.map Property.jsonName).Nodup := by
  refine List.pairwise_map.mpr (List.pairwise_flatMap.mpr ⟨fun l hl => ?_, ?_⟩)
  · exact (h.distinct l (List.mem_reverse.mp hl)).imp Property.Distinct.jsonName
  · -- the nearest level comes last among all properties
    exact List.pairwise_reverse.mpr (h.apart.imp fun apart => symm apart)

theorem Built.find_eq_some (h : d.Built) :
    d.find name = some p ↔ p ∈ d.allProperties ∧ p.jsonName = name := by
  constructor
  · exact fun found => ⟨Schema.mem_allProperties_of_find found, jsonName_of_find found⟩
  · rintro ⟨member, rfl⟩
    obtain ⟨l, hl, hp⟩ := mem_allProperties.mp member
    exact h.resolves l hl p hp

/-- Along the chain of a built descriptor all names are distinct, and none is empty. A name finds
exactly the property that has it, among all of them or among the own ones, and a position in the
read dispatch or in the write dispatch finds exactly the own property with that position. -/
theorem lookups_consistent (h : d.Built) :
    (∀ p ∈ d.allProperties, p.jsonName ≠ "") ∧
      (d.allProperties.map Property.jsonName).Nodup ∧
      (∀ name p, d.find name = some p ↔ p ∈ d.allProperties ∧ p.jsonName = name) ∧
      (∀ name p, d.own.findName name = some p ↔ d.find name = some p ∧ p ∈ d.own.properties) ∧
      (∀ index p, d.own.findRead index = some p ↔
        p ∈ d.own.properties ∧ p.readIndex = index) ∧
      (∀ index p, d.own.findWrite index = some p ↔
        p ∈ d.own.properties ∧ p.writeIndex = index) ∧
      ∀ p ∈ d.own.properties,
        d.own.findRead p.readIndex = some p ∧ d.own.findWrite p.writeIndex = some p := by
  have orderly := h.orderly
  have own : d.own.properties.Pairwise Property.Distinct :=
    orderly.distinct d.own List.mem_cons_self
  refine ⟨fun p hp => ?_, nodup_names orderly, fun _ _ => h.find_eq_some, fun name p => ?_,
    fun _ _ => Level.findRead_eq_some own, fun _ _ => Level.findWrite_eq_some own,
    fun p hp => ⟨(Level.findRead_eq_some own).mpr ⟨hp, rfl⟩,
      (Level.findWrite_eq_some own).mpr ⟨hp, rfl⟩⟩⟩
  · obtain ⟨l, hl, hp⟩ := mem_allProperties.mp hp
    exact orderly.named l hl p hp
  · rw [Level.findName_eq_some own, h.find_eq_some]
    constructor
    · rintro ⟨hp, named⟩
      exact ⟨⟨mem_allProperties.mpr ⟨d.own, List.mem_cons_self, hp⟩, named⟩, hp⟩
    · exact fun ⟨found, hp⟩ => ⟨hp, found.2⟩

/-- A type over another one, with the positions of its properties exchanged between the dispatches. -/
theorem lookups_consistent_exchanged :
    let first : SchemaId Nat := ⟨0, "Base"⟩
    let second : SchemaId Nat := ⟨1, "Derived"⟩
    let hash : Property Nat := ⟨"password-hash", "password_hash", 1, 7, second, second⟩
    let base : Descriptor Nat := ⟨.of first [.ofIndex "id" "id" 0 first], []⟩
    let name : Property Nat := ⟨"name", "name", 7, 1, second, second⟩
    let d : Descriptor Nat := ⟨.of second [name, hash], base.chain⟩
    d.Built ∧ d.find "id" = some (.ofIndex "id" "id" 0 first) ∧ d.own.findName "id" = none ∧
      d.find "password-hash" = some hash ∧ d.own.findRead 1 = some hash ∧
      d.own.findWrite 7 = some hash := by
  intro first second hash base name d
  have rooted : base.Built :=
    .build { described := some first, properties := base.own.properties } rfl nofun
  have built : d.Built := by
    refine .build { described := some second, base, properties := d.own.properties } rfl
      fun extended same => ?_
    cases same
    exact rooted
  obtain ⟨-, -, finds, -, reads, writes, -⟩ := lookups_consistent built
  have inherited : d.find "id" = some (.ofIndex "id" "id" 0 first) :=
    (finds _ _).mpr ⟨List.mem_cons_self, rfl⟩
  refine ⟨built, inherited, ?_, (finds _ _).mpr ⟨?_, rfl⟩, (reads _ _).mpr ⟨?_, rfl⟩,
    (writes _ _).mpr ⟨?_, rfl⟩⟩
  · rfl
  all_goals simp [d, base, allProperties, chain]

end Descriptor

end TypedJson
