import Mathlib.Data.List.Induction
import TypedJson.Proofs.Schema.Lookup

set_option autoImplicit false
set_option relaxedAutoImplicit false

namespace TypedJson

variable {κ : Type}

/-- Of several faults of one property the one of least rank is reported. -/
def DefinitionFault.rank : DefinitionFault → Nat
  | missingDescribedType => 0
  | emptyPropertyName .. => 1
  | duplicatePropertyName .. => 2
  | duplicateReadIndex .. => 3
  | duplicateWriteIndex .. => 4
  | shadowedPropertyName .. => 5

namespace Draft

/-! How a draft is made. -/

inductive Call (κ : Type) where
  | describe (id : SchemaId κ)
  | extend (base : Descriptor κ)
  | add (p : Property κ)

namespace Call

def apply (draft : Draft κ) : Call κ → Draft κ
  | describe id => { draft with described := some id }
  | extend base => { draft with base := some base }
  | add p => { draft with properties := draft.properties ++ [p] }

def described? : Call κ → Option (SchemaId κ)
  | describe id => some id
  | _ => none

def base? : Call κ → Option (Descriptor κ)
  | extend base => some base
  | _ => none

def property? : Call κ → Option (Property κ)
  | add p => some p
  | _ => none

end Call

def ofCalls (calls : List (Call κ)) : Draft κ :=
  calls.foldl Call.apply {}

/-- Of the types described and of those extended the last one counts, and of the properties all. -/
theorem ofCalls_eq (calls : List (Call κ)) :
    ofCalls calls =
      { described := (calls.filterMap Call.described?).getLast?
        base := (calls.filterMap Call.base?).getLast?
        properties := calls.filterMap Call.property? } := by
  induction calls using List.reverseRecOn with
  | nil => rfl
  | append_singleton calls c ih =>
      rw [ofCalls] at ih ⊢
      rw [List.foldl_append, ih]
      cases c <;> simp [Call.apply, Call.described?, Call.base?, Call.property?]

/-! The offences of a property. -/

/-- What a property offends against, given the properties before it and the inherited levels. It may
offend against several things at once. -/
inductive Offends (schema : String) (inherited : List (Level κ)) (before : List (Property κ))
    (p : Property κ) : DefinitionFault → Prop where
  | unnamed : p.jsonName = "" →
      Offends schema inherited before p (.emptyPropertyName schema p.internalName)
  | sameName {q : Property κ} : q ∈ before → q.jsonName = p.jsonName →
      Offends schema inherited before p (.duplicatePropertyName schema p.jsonName)
  | sameReadIndex {q : Property κ} : q ∈ before → q.readIndex = p.readIndex →
      Offends schema inherited before p (.duplicateReadIndex schema p.readIndex)
  | sameWriteIndex {q : Property κ} : q ∈ before → q.writeIndex = p.writeIndex →
      Offends schema inherited before p (.duplicateWriteIndex schema p.writeIndex)
  | shadows {l : Level κ} {q : Property κ} : l ∈ inherited → q ∈ l.properties →
      q.jsonName = p.jsonName →
      Offends schema inherited before p
        (.shadowedPropertyName schema p.jsonName l.described.name)

/-- The gravest offence of a property. -/
structure Blamed (schema : String) (inherited : List (Level κ)) (before : List (Property κ))
    (p : Property κ) (fault : DefinitionFault) : Prop where
  offends : Offends schema inherited before p fault
  gravest : ∀ other, Offends schema inherited before p other → fault.rank ≤ other.rank

section

variable {schema : String} {inherited : List (Level κ)} {before : List (Property κ)}
variable {l m : Level κ} {p : Property κ} {fault : DefinitionFault}

/-- Over levels of distinct names, offences of one rank are the same. -/
theorem Blamed.unique (orderly : Level.Orderly inherited) {other : DefinitionFault}
    (h : Blamed schema inherited before p fault) (h' : Blamed schema inherited before p other) :
    fault = other := by
  have rank := Nat.le_antisymm (h.gravest other h'.offends) (h'.gravest fault h.offends)
  cases h.offends with
  | shadows hl hq same =>
      cases h'.offends with
      | shadows hl' hq' same' => rw [orderly.unique hl hl' hq hq' (same.trans same'.symm)]
      | _ => cases rank
  | _ => cases h'.offends <;> first | rfl | cases rank

theorem offends_of_faultOf (h : faultOf inherited l p = some fault) :
    Offends l.described.name inherited l.properties p fault := by
  unfold faultOf at h
  dsimp only at h
  split at h
  · cases h
    exact .unnamed ‹_›
  split at h
  · rename_i taken
    cases h
    obtain ⟨q, hq, same⟩ := Index.has_iff.mp taken
    exact .sameName hq same
  split at h
  · rename_i taken
    cases h
    obtain ⟨q, hq, same⟩ := Index.has_iff.mp taken
    exact .sameReadIndex hq same
  split at h
  · rename_i taken
    cases h
    obtain ⟨q, hq, same⟩ := Index.has_iff.mp taken
    exact .sameWriteIndex hq same
  split at h
  · rename_i ancestor found
    cases h
    have declares : (ancestor.findName p.jsonName).isSome = true := by
      simpa using List.find?_some found
    obtain ⟨q, hq⟩ := Option.isSome_iff_exists.mp declares
    obtain ⟨declared, same⟩ := Level.mem_of_findName hq
    exact .shadows (List.mem_of_find?_eq_some found) declared same
  · cases h

theorem rank_le_of_faultOf (h : faultOf inherited l p = some fault) {other : DefinitionFault}
    (ho : Offends l.described.name inherited l.properties p other) : fault.rank ≤ other.rank := by
  unfold faultOf at h
  dsimp only at h
  cases ho with
  | unnamed empty =>
      rw [if_pos empty] at h
      cases h
      exact Nat.le_refl _
  | sameName hq same | sameReadIndex hq same | sameWriteIndex hq same =>
      rw [if_pos (Index.has_iff.mpr ⟨_, hq, same⟩)] at h
      repeat' split at h
      all_goals
        cases h
        simp [DefinitionFault.rank]
  | shadows => cases fault <;> simp [DefinitionFault.rank]

theorem faultOf_of_offends (h : Offends l.described.name inherited l.properties p fault) :
    ∃ reported, faultOf inherited l p = some reported := by
  cases checked : faultOf inherited l p with
  | some reported => exact ⟨reported, rfl⟩
  | none =>
      obtain ⟨⟨nonEmpty, unshadowed⟩, distinct⟩ := faultOf_eq_none.mp checked
      exfalso
      cases h with
      | unnamed empty => exact nonEmpty empty
      | sameName hq same => exact (distinct _ hq).jsonName same
      | sameReadIndex hq same => exact (distinct _ hq).readIndex same
      | sameWriteIndex hq same => exact (distinct _ hq).writeIndex same
      | shadows hl hq same => exact Level.findName_eq_none.mp (unshadowed _ hl) _ hq same

/-- What is reported for a property is the gravest of its offences. -/
theorem faultOf_eq_some (orderly : Level.Orderly inherited) :
    faultOf inherited l p = some fault ↔
      Blamed l.described.name inherited l.properties p fault := by
  constructor
  · exact fun h => ⟨offends_of_faultOf h, fun _ ho => rank_le_of_faultOf h ho⟩
  · intro h
    obtain ⟨reported, found⟩ := faultOf_of_offends h.offends
    have blamed : Blamed l.described.name inherited l.properties p reported :=
      ⟨offends_of_faultOf found, fun _ ho => rank_le_of_faultOf found ho⟩
    rw [found, h.unique orderly blamed]

/-! The loop over the properties. -/

theorem addAll_append (ps rest : List (Property κ)) (l : Level κ) :
    addAll inherited (ps ++ rest) l = addAll inherited ps l >>= addAll inherited rest := by
  induction ps generalizing l with
  | nil => rfl
  | cons p ps ih =>
      rw [List.cons_append, addAll, addAll]
      cases faultOf inherited l p with
      | some fault => rfl
      | none => exact ih (l.add p)

theorem addAll_eq_error {ps : List (Property κ)} :
    addAll inherited ps l = .error fault ↔
      ∃ before p after, ps = before ++ p :: after ∧
        ∃ m, addAll inherited before l = .ok m ∧ faultOf inherited m p = some fault := by
  constructor
  · intro h
    induction ps generalizing l with
    | nil => cases h
    | cons p ps ih =>
        rw [addAll] at h
        cases reported : faultOf inherited l p with
        | some f =>
            rw [reported] at h
            cases h
            exact ⟨[], p, ps, rfl, l, rfl, reported⟩
        | none =>
            rw [reported] at h
            obtain ⟨before, q, after, rfl, m, added, refused⟩ := ih h
            exact ⟨p :: before, q, after, rfl, m, by rw [addAll, reported]; exact added, refused⟩
  · rintro ⟨before, p, after, rfl, m, added, refused⟩
    rw [addAll_append, added]
    change addAll inherited (p :: after) m = _
    rw [addAll, refused]

theorem added_of_addAll {ps : List (Property κ)} (h : addAll inherited ps l = .ok m) :
    m.described = l.described ∧ m.properties = l.properties ++ ps := by
  obtain ⟨-, rfl⟩ := addAll_eq_ok.mp h
  exact ⟨rfl, rfl⟩

/-- The loop runs through if and only if no property offends. -/
theorem exists_addAll {ps : List (Property κ)} :
    (∃ m, addAll inherited ps l = .ok m) ↔
      ∀ before p after, ps = before ++ p :: after →
        ∀ fault, ¬ Offends l.described.name inherited (l.properties ++ before) p fault := by
  constructor
  · rintro ⟨m, added⟩ before p after rfl fault offends
    rw [addAll_append] at added
    cases first : addAll inherited before l with
    | error f =>
        rw [first] at added
        cases added
    | ok l' =>
        obtain ⟨described, properties⟩ := added_of_addAll first
        rw [← described, ← properties] at offends
        obtain ⟨reported, refused⟩ := faultOf_of_offends offends
        rw [first] at added
        change addAll inherited (p :: after) l' = _ at added
        rw [addAll, refused] at added
        cases added
  · intro harmless
    cases run : addAll inherited ps l with
    | ok m => exact ⟨m, rfl⟩
    | error fault =>
        obtain ⟨before, p, after, split, m, added, refused⟩ := addAll_eq_error.mp run
        obtain ⟨described, properties⟩ := added_of_addAll added
        have offends := offends_of_faultOf refused
        rw [described, properties] at offends
        exact absurd offends (harmless before p after split fault)

end

/-- Nothing is wrong with some properties, neither among themselves nor against the inherited ones. -/
structure Consistent (inherited : List (Level κ)) (ps : List (Property κ)) : Prop where
  named : ∀ p ∈ ps, p.jsonName ≠ ""
  jsonNames : (ps.map Property.jsonName).Nodup
  unshadowed : ∀ p ∈ ps, ∀ l ∈ inherited, ∀ q ∈ l.properties, q.jsonName ≠ p.jsonName
  readIndices : (ps.map Property.readIndex).Nodup
  writeIndices : (ps.map Property.writeIndex).Nodup

theorem consistent_iff {inherited : List (Level κ)} {ps : List (Property κ)} :
    Consistent inherited ps ↔
      (∀ p ∈ ps, p.Fresh inherited) ∧ ps.Pairwise Property.Distinct := by
  constructor
  · rintro ⟨named, jsonNames, unshadowed, readIndices, writeIndices⟩
    refine ⟨fun p hp => ⟨named p hp, fun l hl => Level.findName_eq_none.mpr ?_⟩, ?_⟩
    · exact unshadowed p hp l hl
    · have both := (List.pairwise_map.mp jsonNames).and
        ((List.pairwise_map.mp readIndices).and (List.pairwise_map.mp writeIndices))
      exact both.imp fun ⟨name, read, write⟩ => ⟨name, read, write⟩
  · rintro ⟨fresh, distinct⟩
    exact
      { named := fun p hp => (fresh p hp).nonEmpty
        jsonNames := List.pairwise_map.mpr (distinct.imp Property.Distinct.jsonName)
        unshadowed := fun p hp l hl => Level.findName_eq_none.mp ((fresh p hp).unshadowed l hl)
        readIndices := List.pairwise_map.mpr (distinct.imp Property.Distinct.readIndex)
        writeIndices := List.pairwise_map.mpr (distinct.imp Property.Distinct.writeIndex) }

theorem build_eq_error {draft : Draft κ} {id : SchemaId κ} {fault : DefinitionFault}
    (described : draft.described = some id) :
    draft.build = .error fault ↔
      addAll draft.ancestors draft.properties (.empty id) = .error fault := by
  unfold build
  rw [described]
  dsimp only
  cases addAll draft.ancestors draft.properties (.empty id) with
  | error f =>
      constructor <;>
      · intro same
        cases same
        rfl
  | ok own => exact iff_of_false nofun nofun

/-- However a draft for a type is made over built descriptors, building it succeeds exactly if its
properties are consistent, and they are then described in the order in which they were added. It
fails exactly with the gravest offence of the first property that offends against those before it or
against the inherited ones. -/
theorem build_blames_first (calls : List (Call κ)) {id : SchemaId κ}
    (described : (calls.filterMap Call.described?).getLast? = some id)
    (built : ∀ base, (calls.filterMap Call.base?).getLast? = some base → base.Built) :
    let inherited := ((calls.filterMap Call.base?).getLast?.map Descriptor.chain).getD []
    let properties := calls.filterMap Call.property?
    (∀ d, (ofCalls calls).build = .ok d ↔
      Consistent inherited properties ∧ d = ⟨.of id properties, inherited⟩) ∧
    ∀ fault, (ofCalls calls).build = .error fault ↔
      ∃ before p after, properties = before ++ p :: after ∧
        (∀ front q rest, before = front ++ q :: rest →
          ∀ offence, ¬ Offends id.name inherited front q offence) ∧
        Blamed id.name inherited before p fault := by
  intro inherited properties
  have draft := ofCalls_eq calls
  have described : (ofCalls calls).described = some id := by rw [draft]; exact described
  have added : (ofCalls calls).properties = properties := by rw [draft]
  have ancestors : (ofCalls calls).ancestors = inherited := by
    simp only [inherited, draft, Draft.ancestors]
    cases (calls.filterMap Call.base?).getLast? <;> rfl
  have orderly : Level.Orderly inherited := by
    rw [← ancestors]
    exact orderly_ancestors (by rw [draft]; exact fun base extended => (built base extended).orderly)
  refine ⟨fun d => ?_, fun fault => ?_⟩
  · rw [build_eq_ok, consistent_iff, added, ancestors, described]
    constructor
    · rintro ⟨_, ⟨⟩, rfl, valid⟩
      exact ⟨valid, rfl⟩
    · rintro ⟨valid, rfl⟩
      exact ⟨id, rfl, rfl, valid⟩
  · rw [build_eq_error described, added, ancestors, addAll_eq_error]
    refine exists_congr fun before => exists_congr fun p => exists_congr fun after =>
      and_congr_right fun _ => ?_
    have harmless : (∃ m, addAll inherited before (.empty id) = .ok m) ↔ _ := exists_addAll
    have blamed {m : Level κ} (begun : addAll inherited before (.empty id) = .ok m) :
        faultOf inherited m p = some fault ↔ Blamed id.name inherited before p fault := by
      obtain ⟨same, listed⟩ := added_of_addAll begun
      rw [faultOf_eq_some orderly, same, listed]
      rfl
    constructor
    · rintro ⟨m, begun, refused⟩
      exact ⟨harmless.mp ⟨m, begun⟩, (blamed begun).mp refused⟩
    · rintro ⟨unoffending, gravest⟩
      obtain ⟨m, begun⟩ := harmless.mpr unoffending
      exact ⟨m, begun, (blamed begun).mpr gravest⟩

/-- Behind a property that is in order comes one that repeats a read index and shadows an inherited
name, and then one without a name. -/
theorem build_blames_first_second :
    let first : SchemaId Nat := ⟨0, "Base"⟩
    let second : SchemaId Nat := ⟨1, "Derived"⟩
    let base : Descriptor Nat := ⟨.of first [.ofIndex "id" "id" 0 first], []⟩
    let calls : List (Call Nat) := [.describe first, .add (.ofIndex "name" "name" 0 second),
      .extend base, .add ⟨"id", "own_id", 0, 1, second, second⟩, .add (.ofIndex "" "" 2 second),
      .describe second]
    (calls.filterMap Call.described?).getLast? = some second ∧ base.Built ∧
      (ofCalls calls).build = .error (.duplicateReadIndex "Derived" 0) := by
  intro first second base calls
  have rooted : base.Built :=
    .build { described := some first, properties := base.own.properties } rfl nofun
  have described : (calls.filterMap Call.described?).getLast? = some second := rfl
  have blames := (build_blames_first calls described fun _ same => by
    cases same
    exact rooted).2 (.duplicateReadIndex "Derived" 0)
  refine ⟨described, rooted, blames.mpr ⟨[.ofIndex "name" "name" 0 second], _, [_], rfl, ?_, ?_, ?_⟩⟩
  · rintro front q rest split offence offends
    cases front with
    | nil =>
        cases split
        cases offends with
        | unnamed empty => exact absurd empty (by decide)
        | shadows hl hq same =>
            cases List.mem_singleton.mp hl
            cases List.mem_singleton.mp hq
            exact absurd same (by decide)
        | _ => contradiction
    | cons _ front => simp at split
  · exact .sameReadIndex List.mem_cons_self rfl
  · intro other offends
    cases offends with
    | unnamed empty => exact absurd empty (by decide)
    | sameName hq same =>
        cases List.mem_singleton.mp hq
        exact absurd same (by decide)
    | _ => simp [DefinitionFault.rank]

end Draft

end TypedJson
