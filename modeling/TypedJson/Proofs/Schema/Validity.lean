import TypedJson.Proofs.Schema.Dispatch
import TypedJson.Proofs.Schema.Draft

set_option autoImplicit false
set_option relaxedAutoImplicit false

namespace TypedJson.Layer

variable {κ : Type} {l own : Layer κ} {below bases layers : List (Layer κ)}
variable {fault : ResolutionFault}

/-- A layer declares an empty name, a name more than once, or one that a layer below declares, which
it extends. -/
def Faulty (l : Layer κ) (below : List (Layer κ)) : Prop :=
  (∃ f ∈ l.fields, f.jsonName = "") ∨ ¬ (l.fields.map Field.jsonName).Nodup ∨
    ∃ f ∈ l.fields, ∃ b ∈ below, ∃ g ∈ b.fields, g.jsonName = f.jsonName

/-- No layer is faulty with respect to those behind it. -/
def Sound (layers : List (Layer κ)) : Prop :=
  ∀ above l below, layers = above ++ l :: below → ¬ l.Faulty below

theorem sound_nil : Sound ([] : List (Layer κ)) :=
  fun above _ _ split => absurd split.symm (List.append_ne_nil_of_right_ne_nil above nofun)

theorem sound_cons : Sound (l :: below) ↔ ¬ l.Faulty below ∧ Sound below := by
  constructor
  · intro sound
    refine ⟨sound [] l below rfl, ?_⟩
    rintro above b rest rfl
    exact sound (l :: above) b rest rfl
  · rintro ⟨own, rest⟩ above b below' split
    cases above with
    | nil =>
        cases split
        exact own
    | cons a above =>
        cases split
        exact rest above b below' rfl

/-! The properties of a layer are as consistent as its fields. -/

theorem map_jsonName_properties (l : Layer κ) :
    l.properties.map Property.jsonName = l.fields.map Field.jsonName := by
  refine List.ext_getElem? fun i => ?_
  rw [List.getElem?_map, List.getElem?_map, properties, List.getElem?_mapIdx, Option.map_map]
  rfl

theorem map_index_properties (l : Layer κ) :
    l.properties.map Property.readIndex = List.range l.fields.length ∧
      l.properties.map Property.writeIndex = List.range l.fields.length := by
  constructor <;>
  · refine List.ext_getElem (by simp [properties]) fun i _ _ => ?_
    simp [properties, Property.ofIndex]

theorem mem_level {name : String} :
    (∃ p ∈ l.level.properties, p.jsonName = name) ↔ ∃ f ∈ l.fields, f.jsonName = name := by
  rw [← List.mem_map, ← List.mem_map, level, Level.properties_of, map_jsonName_properties]

theorem consistent_properties :
    Draft.Consistent (below.map level) l.properties ↔ ¬ l.Faulty below := by
  have names := map_jsonName_properties l
  obtain ⟨reads, writes⟩ := map_index_properties l
  constructor
  · rintro ⟨named, distinct, unshadowed, -, -⟩ (⟨f, hf, empty⟩ | repeated | ⟨f, hf, b, hb, taken⟩)
    · obtain ⟨p, hp, same⟩ := mem_level.mpr ⟨f, hf, rfl⟩
      exact named p hp (same.trans empty)
    · exact repeated (names ▸ distinct)
    · obtain ⟨p, hp, own⟩ := mem_level.mpr ⟨f, hf, rfl⟩
      obtain ⟨q, hq, same⟩ := mem_level.mpr taken
      exact unshadowed p hp b.level (List.mem_map_of_mem hb) q hq (same.trans own.symm)
  · intro sound
    refine ⟨?_, ?_, ?_, reads ▸ List.nodup_range, writes ▸ List.nodup_range⟩
    · intro p hp empty
      exact sound (.inl (mem_level.mp ⟨p, hp, empty⟩))
    · rw [names]
      exact not_not.mp fun repeated => sound (.inr (.inl repeated))
    · intro p hp level hlevel q hq same
      obtain ⟨b, hb, rfl⟩ := List.mem_map.mp hlevel
      obtain ⟨f, hf, own⟩ := mem_level.mp ⟨p, hp, rfl⟩
      obtain ⟨g, hg, inherited⟩ := mem_level.mp ⟨q, hq, rfl⟩
      exact sound (.inr (.inr ⟨f, hf, b, hb, g, hg, inherited.trans (same.trans own.symm)⟩))

theorem build_draft {base : Option (Descriptor κ)}
    (levels : (l.draft base).ancestors = below.map level) :
    (∃ d, (l.draft base).build = .ok d) ↔ ¬ l.Faulty below := by
  rw [← consistent_properties, Draft.consistent_iff]
  constructor
  · rintro ⟨d, built⟩
    obtain ⟨-, -, -, valid⟩ := Draft.build_eq_ok.mp built
    rw [levels] at valid
    exact valid
  · intro valid
    exact ⟨_, Draft.build_eq_ok.mpr ⟨l.id, rfl, rfl, by rw [levels]; exact valid⟩⟩

/-! Describing from the root onwards. -/

theorem sound_or_rootmost (layers : List (Layer κ)) :
    Sound layers ∨
      ∃ above l below, layers = above ++ l :: below ∧ l.Faulty below ∧ Sound below := by
  induction layers with
  | nil => exact .inl sound_nil
  | cons l below ih =>
      obtain sound | ⟨above, b, rest, rfl, faulty, sound⟩ := ih
      · by_cases faulty : l.Faulty below
        · exact .inr ⟨[], l, below, rfl, faulty, sound⟩
        · exact .inl (sound_cons.mpr ⟨faulty, sound⟩)
      · exact .inr ⟨l :: above, b, rest, rfl, faulty, sound⟩

theorem describe_of_sound (sound : Sound (own :: bases)) : ∃ d, own.describe bases = .ok d := by
  induction bases generalizing own with
  | nil =>
      have accepted : (∃ d, (own.draft none).build = .ok d) ↔ ¬ own.Faulty [] := build_draft rfl
      obtain ⟨d, built⟩ := accepted.mpr (sound_cons.mp sound).1
      exact ⟨d, by rw [describe, built]; rfl⟩
  | cons next bases ih =>
      obtain ⟨harmless, rest⟩ := sound_cons.mp sound
      obtain ⟨base, described⟩ := ih rest
      have accepted : (∃ d, (own.draft (some base)).build = .ok d) ↔ ¬ own.Faulty (next :: bases) :=
        build_draft (describe_spec described).1
      obtain ⟨d, built⟩ := accepted.mpr harmless
      exact ⟨d, by rw [describe, described]; exact congrArg (Except.mapError _) built⟩

/-- The layers in front of the last faulty one are not reached. -/
theorem describe_of_rootmost {above : List (Layer κ)} (split : own :: bases = above ++ l :: below)
    (faulty : l.Faulty below) (sound : Sound below) :
    ∃ cause, own.describe bases = .error (.invalidSchema l.id.name cause) := by
  have refused (base : Option (Descriptor κ)) (levels : (l.draft base).ancestors = below.map level) :
      ∃ cause, (l.draft base).build = .error cause := by
    cases built : (l.draft base).build with
    | error cause => exact ⟨cause, rfl⟩
    | ok d => exact absurd faulty ((build_draft levels).mp ⟨d, built⟩)
  induction above generalizing own bases with
  | nil =>
      obtain ⟨rfl, rfl⟩ := List.cons.inj split
      cases bases with
      | nil =>
          obtain ⟨cause, built⟩ := refused none rfl
          exact ⟨cause, by rw [describe, built]; rfl⟩
      | cons next bases =>
          obtain ⟨base, described⟩ := describe_of_sound sound
          obtain ⟨cause, built⟩ := refused (some base) (describe_spec described).1
          exact ⟨cause, by rw [describe, described]; exact congrArg (Except.mapError _) built⟩
  | cons a above ih =>
      cases bases with
      | nil => simp at split
      | cons next bases =>
          obtain ⟨cause, described⟩ := ih (List.cons.inj split).2
          exact ⟨cause, by rw [describe, described]; rfl⟩

end TypedJson.Layer
