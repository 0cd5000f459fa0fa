import Mathlib.Data.List.Nodup
import TypedJson.Schema.Dispatch

set_option autoImplicit false
set_option relaxedAutoImplicit false

namespace TypedJson

variable {κ : Type}

/-! Indexes. -/

namespace Index

section

variable {α : Type} {key : Property κ → α} {ps : List (Property κ)}

def of (key : Property κ → α) (ps : List (Property κ)) : Index key ps :=
  ⟨_, rfl⟩

/-- What has been entered tells what an index is. -/
instance : Subsingleton (Index key ps) where
  allEq
    | ⟨_, entered⟩, ⟨_, entered'⟩ => by
      cases entered.trans entered'.symm
      rfl

theorem mem_entries {x : Index key ps} {k : α} {i : Nat} :
    (k, i) ∈ x.entries ↔ ∃ p, ps[i]? = some p ∧ key p = k := by
  rw [x.entered, List.mem_reverse, List.mem_mapIdx]
  constructor
  · rintro ⟨j, below, same⟩
    obtain ⟨rfl, rfl⟩ := Prod.mk.inj same
    exact ⟨ps[j], List.getElem?_eq_getElem below, rfl⟩
  · rintro ⟨p, at_, rfl⟩
    obtain ⟨below, rfl⟩ := List.getElem?_eq_some_iff.mp at_
    exact ⟨i, below, rfl⟩

variable [BEq α] [LawfulBEq α] {x : Index key ps} {k : α} {p : Property κ}

theorem getElem?_of_lookup {i : Nat} (h : x.entries.lookup k = some i) :
    ∃ p, ps[i]? = some p ∧ key p = k := by
  obtain ⟨later, earlier, split, -⟩ := List.lookup_eq_some_iff.mp h
  have entry : (k, i) ∈ x.entries := by
    rw [split]
    exact List.mem_append_right later List.mem_cons_self
  exact mem_entries.mp entry

theorem lookup_of_mem (h : p ∈ ps) : ∃ i, x.entries.lookup (key p) = some i := by
  obtain ⟨i, at_⟩ := List.mem_iff_getElem?.mp h
  refine Option.ne_none_iff_exists'.mp fun absent => ?_
  have other := List.lookup_eq_none_iff.mp absent (key p, i) (mem_entries.mpr ⟨p, at_, rfl⟩)
  simp at other

theorem mem_of_find (h : x.find k = some p) : p ∈ ps ∧ key p = k := by
  obtain ⟨i, entry, at_⟩ := Option.bind_eq_some_iff.mp h
  obtain ⟨q, at_', same⟩ := getElem?_of_lookup entry
  cases at_.symm.trans at_'
  exact ⟨List.mem_of_getElem? at_, same⟩

theorem find_of_mem (h : p ∈ ps) : ∃ q, x.find (key p) = some q := by
  obtain ⟨i, entry⟩ := lookup_of_mem (x := x) h
  obtain ⟨q, at_, -⟩ := getElem?_of_lookup entry
  exact ⟨q, Option.bind_eq_some_iff.mpr ⟨i, entry, at_⟩⟩

theorem has_iff : x.has k = true ↔ ∃ q ∈ ps, key q = k := by
  rw [has, Option.isSome_iff_exists]
  constructor
  · rintro ⟨i, entry⟩
    obtain ⟨q, at_, same⟩ := getElem?_of_lookup entry
    exact ⟨q, List.mem_of_getElem? at_, same⟩
  · rintro ⟨q, hq, rfl⟩
    exact lookup_of_mem hq

theorem find_eq_none : x.find k = none ↔ ∀ p ∈ ps, key p ≠ k := by
  constructor
  · rintro absent p hp rfl
    obtain ⟨q, found⟩ := find_of_mem (x := x) hp
    cases absent.symm.trans found
  · intro none
    refine Option.eq_none_iff_forall_ne_some.mpr fun p found => ?_
    obtain ⟨hp, same⟩ := mem_of_find found
    exact none p hp same

theorem find_eq_some (distinct : (ps.map key).Nodup) :
    x.find k = some p ↔ p ∈ ps ∧ key p = k := by
  constructor
  · exact mem_of_find
  · rintro ⟨hp, rfl⟩
    obtain ⟨q, found⟩ := find_of_mem (x := x) hp
    obtain ⟨hq, same⟩ := mem_of_find found
    rw [found, List.inj_on_of_nodup_map distinct hq hp same]

end

end Index

/-! Accepted properties. -/

/-- Two properties of one type do not contradict each other. -/
structure Property.Distinct (p q : Property κ) : Prop where
  jsonName : p.jsonName ≠ q.jsonName
  readIndex : p.readIndex ≠ q.readIndex
  writeIndex : p.writeIndex ≠ q.writeIndex

structure Property.Fresh (ancestors : List (Level κ)) (p : Property κ) : Prop where
  nonEmpty : p.jsonName ≠ ""
  unshadowed : ∀ l ∈ ancestors, l.findName p.jsonName = none

namespace Level

def of (id : SchemaId κ) (ps : List (Property κ)) : Level κ :=
  ⟨id, ps, .of _ ps, .of _ ps, .of _ ps⟩

@[simp] theorem properties_of (id : SchemaId κ) (ps : List (Property κ)) :
    (of id ps).properties = ps := rfl

variable {l m : Level κ} {p : Property κ}

theorem eq_of_properties (described : l.described = m.described)
    (properties : l.properties = m.properties) : l = m := by
  obtain ⟨id, ps, names, reads, writes⟩ := l
  obtain ⟨id', ps', names', reads', writes'⟩ := m
  cases described
  cases properties
  rw [Subsingleton.elim names names', Subsingleton.elim reads reads',
    Subsingleton.elim writes writes']

theorem findName_eq_some (distinct : l.properties.Pairwise Property.Distinct) {name : String} :
    l.findName name = some p ↔ p ∈ l.properties ∧ p.jsonName = name :=
  Index.find_eq_some (List.pairwise_map.mpr (distinct.imp Property.Distinct.jsonName))

theorem findRead_eq_some (distinct : l.properties.Pairwise Property.Distinct) {index : Nat} :
    l.findRead index = some p ↔ p ∈ l.properties ∧ p.readIndex = index :=
  Index.find_eq_some (List.pairwise_map.mpr (distinct.imp Property.Distinct.readIndex))

theorem findWrite_eq_some (distinct : l.properties.Pairwise Property.Distinct) {index : Nat} :
    l.findWrite index = some p ↔ p ∈ l.properties ∧ p.writeIndex = index :=
  Index.find_eq_some (List.pairwise_map.mpr (distinct.imp Property.Distinct.writeIndex))

theorem findName_eq_none {name : String} :
    l.findName name = none ↔ ∀ p ∈ l.properties, p.jsonName ≠ name :=
  Index.find_eq_none

theorem mem_of_findName {name : String} (h : l.findName name = some p) :
    p ∈ l.properties ∧ p.jsonName = name :=
  Index.mem_of_find h

end Level

namespace Draft

variable {ancestors : List (Level κ)} {l m : Level κ} {p : Property κ}

theorem faultOf_eq_none :
    faultOf ancestors l p = none ↔ p.Fresh ancestors ∧ ∀ q ∈ l.properties, q.Distinct p := by
  have shadow : (ancestors.find? fun l => (l.findName p.jsonName).isSome) = none ↔
      ∀ l ∈ ancestors, l.findName p.jsonName = none := by
    simp [List.find?_eq_none]
  unfold faultOf
  simp only [Index.has_iff]
  constructor
  · intro h
    split at h
    · cases h
    · rename_i name
      split at h
      · cases h
      · rename_i names
        split at h
        · cases h
        · rename_i reads
          split at h
          · cases h
          · rename_i writes
            split at h
            · cases h
            · rename_i unshadowed
              refine ⟨⟨name, shadow.mp unshadowed⟩, fun q hq => ⟨fun same => ?_, fun same => ?_,
                fun same => ?_⟩⟩
              · exact names ⟨q, hq, same⟩
              · exact reads ⟨q, hq, same⟩
              · exact writes ⟨q, hq, same⟩
  · rintro ⟨⟨name, unshadowed⟩, distinct⟩
    have names : ¬ ∃ q ∈ l.properties, q.jsonName = p.jsonName :=
      fun ⟨q, hq, same⟩ => (distinct q hq).jsonName same
    have reads : ¬ ∃ q ∈ l.properties, q.readIndex = p.readIndex :=
      fun ⟨q, hq, same⟩ => (distinct q hq).readIndex same
    have writes : ¬ ∃ q ∈ l.properties, q.writeIndex = p.writeIndex :=
      fun ⟨q, hq, same⟩ => (distinct q hq).writeIndex same
    rw [if_neg name, if_neg names, if_neg reads, if_neg writes, shadow.mpr unshadowed]

/-- Some properties are added to a level if all are fresh and any two of them distinct, also from
those that are there. -/
theorem addAll_eq_ok {ps : List (Property κ)} :
    addAll ancestors ps l = .ok m ↔
      ((∀ p ∈ ps, p.Fresh ancestors) ∧ (∀ p ∈ ps, ∀ q ∈ l.properties, q.Distinct p) ∧
        ps.Pairwise Property.Distinct) ∧ m = .of l.described (l.properties ++ ps) := by
  induction ps generalizing l with
  | nil =>
      rw [addAll, List.append_nil, Except.ok.injEq]
      have whole : l = .of l.described l.properties := Level.eq_of_properties rfl rfl
      refine ⟨fun same => ⟨by simp, same.symm.trans whole⟩, fun ⟨_, same⟩ => whole.trans same.symm⟩
  | cons p rest ih =>
      rw [addAll]
      cases hf : faultOf ancestors l p with
      | some fault =>
          refine iff_of_false nofun ?_
          rintro ⟨⟨fresh, distinct, -⟩, -⟩
          have none : faultOf ancestors l p = none := faultOf_eq_none.mpr
            ⟨fresh p List.mem_cons_self, distinct p List.mem_cons_self⟩
          cases none.symm.trans hf
      | none =>
          obtain ⟨fresh, distinct⟩ := faultOf_eq_none.mp hf
          have added : (l.add p).properties = l.properties ++ [p] := rfl
          dsimp only
          rw [ih, added, List.append_assoc, List.singleton_append]
          refine and_congr_left fun _ => ?_
          rw [List.pairwise_cons, List.forall_mem_cons, List.forall_mem_cons]
          constructor
          · rintro ⟨others, apart, pairwise⟩
            refine ⟨⟨fresh, others⟩, ⟨distinct, fun q hq e he => ?_⟩, fun q hq => ?_, pairwise⟩
            · exact apart q hq e (List.mem_append_left _ he)
            · exact apart q hq p (List.mem_append_right _ List.mem_cons_self)
          · rintro ⟨⟨-, others⟩, ⟨-, apart⟩, first, pairwise⟩
            refine ⟨others, fun q hq => ?_, pairwise⟩
            exact List.forall_mem_append.mpr
              ⟨apart q hq, List.forall_mem_singleton.mpr (first q hq)⟩

end Draft

/-! Finding properties. -/

theorem Descriptor.jsonName_of_find {d : Descriptor κ} {name : String} {p : Property κ}
    (h : d.find name = some p) : p.jsonName = name := by
  obtain ⟨l, -, found⟩ := List.exists_of_findSome?_eq_some h
  exact (Level.mem_of_findName found).2

/-- Each property of a descriptor is the one that its name finds. -/
def Descriptor.Resolves (d : Descriptor κ) : Prop :=
  ∀ l ∈ d.chain, ∀ p ∈ l.properties, d.find p.jsonName = some p

/-- A draft is accepted if its properties are fresh and any two of them distinct, and then the
descriptor consists of them and of the levels of the extended types. -/
theorem Draft.build_eq_ok {draft : Draft κ} {d : Descriptor κ} :
    draft.build = .ok d ↔
      ∃ id, draft.described = some id ∧ d = ⟨.of id draft.properties, draft.ancestors⟩ ∧
        (∀ p ∈ draft.properties, p.Fresh draft.ancestors) ∧
        draft.properties.Pairwise Property.Distinct := by
  unfold build
  cases draft.described with
  | none => simp
  | some id =>
      have accepted {own : Level κ} :
          addAll draft.ancestors draft.properties (.empty id) = .ok own ↔ _ := addAll_eq_ok
      dsimp only
      cases added : addAll draft.ancestors draft.properties (.empty id) with
      | error f =>
          refine iff_of_false nofun ?_
          rintro ⟨_, -, -, fresh, distinct⟩
          cases (accepted.mpr ⟨⟨fresh, fun _ _ => nofun, distinct⟩, rfl⟩).symm.trans added
      | ok own =>
          obtain ⟨⟨fresh, -, distinct⟩, rfl⟩ := accepted.mp added
          constructor
          · intro built
            cases built
            exact ⟨id, rfl, rfl, fresh, distinct⟩
          · rintro ⟨_, ⟨⟩, rfl, -⟩
            rfl

/-- An accepted draft describes its own properties in front of those of the extended types, and what
is built over a descriptor that finds its properties does so too. -/
theorem Draft.build_spec {draft : Draft κ} {d : Descriptor κ} (h : draft.build = .ok d)
    (resolves : ∀ base, draft.base = some base → base.Resolves) :
    (∃ id, draft.described = some id ∧ d.chain = .of id draft.properties :: draft.ancestors) ∧
      d.Resolves := by
  obtain ⟨id, described, rfl, fresh, distinct⟩ := build_eq_ok.mp h
  refine ⟨⟨id, described, rfl⟩, ?_⟩
  intro l hl p hp
  change List.findSome? _ (_ :: draft.ancestors) = _
  rw [List.findSome?_cons]
  rcases List.mem_cons.mp hl with rfl | inherited
  · rw [(Level.findName_eq_some distinct).mpr ⟨hp, rfl⟩]
  · -- an own property of this name would shadow the inherited one
    have own : (Level.of id draft.properties).findName p.jsonName = none := by
      rw [Level.findName_eq_none]
      intro q hq same
      have unshadowed := (fresh q hq).unshadowed l inherited
      rw [same, Level.findName_eq_none] at unshadowed
      exact unshadowed p hp rfl
    rw [own]
    unfold ancestors at inherited ⊢
    cases hb : draft.base with
    | none =>
        rw [hb] at inherited
        cases inherited
    | some base =>
        rw [hb] at inherited
        exact resolves base hb l inherited p hp

end TypedJson
