import TypedJson.Proofs.Operation
import TypedJson.Proofs.Schema.Descriptor
import TypedJson.Schema.Registry

set_option autoImplicit false
set_option relaxedAutoImplicit false

namespace TypedJson

open Operation

variable {κ : Type}

theorem find?_eq_some_of_nodup {α β : Type} [DecidableEq β] {f : α → β} {l : List α}
    (distinct : (l.map f).Nodup) {b : β} {a : α} :
    (l.find? fun x => f x = b) = some a ↔ a ∈ l ∧ f a = b := by
  constructor
  · intro found
    have image : f a = b := by simpa using List.find?_some found
    exact ⟨List.mem_of_find?_eq_some found, image⟩
  · intro ⟨member, image⟩
    cases found : l.find? fun x => f x = b with
    | none =>
        have absent := List.find?_eq_none.mp found a member
        simp [image] at absent
    | some x =>
        have same : f x = b := by simpa using List.find?_some found
        have unique := List.inj_on_of_nodup_map distinct (List.mem_of_find?_eq_some found) member
        rw [unique (same.trans image.symm)]

/-! The type that a descriptor describes. -/

theorem Draft.described_of_build {draft : Draft κ} {d : Descriptor κ} (h : draft.build = .ok d) :
    draft.described = some d.described := by
  obtain ⟨id, described, rfl, -⟩ := Draft.build_eq_ok.mp h
  exact described

private theorem ok_of_mapError {ε ε' α : Type} {f : ε → ε'} {x : Except ε α} {a : α}
    (h : x.mapError f = .ok a) : x = .ok a := by
  cases x with
  | ok b =>
      cases h
      rfl
  | error e => cases h

theorem Layer.described_of_describe {own : Layer κ} {bases : List (Layer κ)} {d : Descriptor κ}
    (h : own.describe bases = .ok d) : d.described = own.id := by
  have built {base : Option (Descriptor κ)} (h : (own.draft base).build = .ok d) :
      d.described = own.id :=
    (Option.some.inj (Draft.described_of_build h)).symm
  cases bases with
  | nil => exact built (ok_of_mapError h)
  | cons next bases =>
      unfold describe at h
      cases described : describe next bases with
      | error fault =>
          rw [described] at h
          cases h
      | ok base =>
          rw [described] at h
          exact built (ok_of_mapError h)

private theorem error_of_mapError {ε ε' α : Type} {f : ε → ε'} {x : Except ε α} {e : ε'}
    (h : x.mapError f = .error e) : ∃ cause, e = f cause := by
  cases x with
  | ok a => cases h
  | error cause =>
      cases h
      exact ⟨cause, rfl⟩

theorem Layer.fault_of_describe {own : Layer κ} {bases : List (Layer κ)} {fault : ResolutionFault}
    (h : own.describe bases = .error fault) :
    ∃ schema cause, fault = .invalidSchema schema cause := by
  induction bases generalizing own with
  | nil => exact ⟨_, error_of_mapError h⟩
  | cons next bases ih =>
      unfold describe at h
      cases described : describe next bases with
      | error fault =>
          rw [described] at h
          cases h
          exact ih described
      | ok base =>
          rw [described] at h
          exact ⟨_, error_of_mapError h⟩

theorem Schema.fault_of_descriptor {s : Schema κ} {fault : ResolutionFault}
    (h : s.descriptor = .error fault) : ∃ schema cause, fault = .invalidSchema schema cause := by
  cases s with
  | declared own bases => exact Layer.fault_of_describe h
  | custom c => exact ⟨_, error_of_mapError h⟩

theorem Schema.described_of_descriptor {s : Schema κ} {d : Descriptor κ}
    (h : s.descriptor = .ok d) : d.described = s.id := by
  cases s with
  | declared own bases => exact Layer.described_of_describe h
  | custom c => exact (Option.some.inj (Draft.described_of_build (ok_of_mapError h))).symm

namespace Registry

variable {catalog : Catalog κ} {r r' : Registry κ} {d : Descriptor κ} {k : κ}
variable {fault : ResolutionFault} {name : String}

theorem find?_eq_none : r.find? name = none ↔ ∀ d ∈ r.entries, d.described.name ≠ name := by
  simp [find?, List.find?_eq_none]

/-! One registration. -/

section

variable [DecidableEq κ]

theorem register_eq (s : Schema κ) (r : Registry κ) :
    register s r =
      match s.descriptor with
      | .error fault => .error fault r
      | .ok d =>
          match r.find? d.described.name with
          | none => .ok d ⟨r.entries ++ [d]⟩
          | some known =>
              if known.described.key = d.described.key then .ok d r
              else .error (.nameConflict d.described.name) r := by
  unfold register
  cases s.descriptor with
  | error fault => rfl
  | ok d =>
      dsimp only
      rw [get_bind]
      cases r.find? d.described.name with
      | none => rfl
      | some known =>
          dsimp only
          split <;> rfl

theorem descriptor_of_register {s : Schema κ} (h : register s r = .ok d r') :
    s.descriptor = .ok d := by
  rw [register_eq] at h
  cases descriptor : s.descriptor with
  | error fault =>
      rw [descriptor] at h
      cases h
  | ok d' =>
      simp only [descriptor] at h
      repeat' split at h
      all_goals
        cases h
        try rfl

theorem state_of_failed_register {s : Schema κ} (h : register s r = .error fault r') : r' = r := by
  rw [register_eq] at h
  repeat' split at h
  all_goals
    cases h
    try rfl

theorem fault_of_register {s : Schema κ} (h : register s r = .error fault r') :
    s.descriptor = .error fault ∨ fault = .nameConflict s.name := by
  rw [register_eq] at h
  cases descriptor : s.descriptor with
  | error e =>
      rw [descriptor] at h
      cases h
      exact .inl rfl
  | ok d =>
      have described := Schema.described_of_descriptor descriptor
      simp only [descriptor] at h
      repeat' split at h
      all_goals cases h
      exact .inr (by rw [described]; rfl)

theorem support_eq (s : Schema κ) :
    support catalog s =
      (do let d ← register s
          pure ⟨d, s.read catalog, EmitM.value catalog⟩ : RegistryM κ (Support κ)) := by
  funext r
  unfold support Support.of
  cases described : s.descriptor with
  | error fault =>
      have failed : register s r = .error fault r := by
        rw [register_eq, described]
      rw [bind_of_error failed]
      rfl
  | ok d =>
      change (register s >>= fun _ => pure _) r = _
      cases h : register s r with
      | error fault r' => rw [bind_of_error h, bind_of_error h]
      | ok d' r' =>
          cases described.symm.trans (descriptor_of_register h)
          rw [bind_of_ok h, bind_of_ok h]

end

/-- The entries are descriptors of their types, and no two of them have the same name. -/
structure Coherent (catalog : Catalog κ) (r : Registry κ) : Prop where
  described : ∀ d ∈ r.entries, (catalog d.described.key).descriptor = .ok d
  names : (r.entries.map fun d => d.described.name).Nodup

namespace Coherent

theorem name_eq (h : Coherent catalog r) (hd : d ∈ r.entries) :
    d.described.name = (catalog d.described.key).name :=
  congrArg SchemaId.name (Schema.described_of_descriptor (h.described d hd))

theorem keys (h : Coherent catalog r) : (r.entries.map fun d => d.described.key).Nodup := by
  have through : (r.entries.map fun d => d.described.name) =
      (r.entries.map fun d => d.described.key).map fun k => (catalog k).name := by
    rw [List.map_map]
    exact List.map_congr_left fun d hd => h.name_eq hd
  have names := h.names
  rw [through] at names
  exact List.Nodup.of_map _ names

section

variable [DecidableEq κ]

theorem register_eq_ok (h : Coherent catalog r) (keyed : (catalog k).key = k)
    (run : register (catalog k) r = .ok d r') :
    (catalog k).descriptor = .ok d ∧
      (r' = r ∧ d ∈ r.entries ∨
        r' = ⟨r.entries ++ [d]⟩ ∧ ∀ e ∈ r.entries, e.described.name ≠ d.described.name) := by
  rw [register_eq] at run
  cases descriptor : (catalog k).descriptor with
  | error fault =>
      rw [descriptor] at run
      cases run
  | ok d' =>
      simp only [descriptor] at run
      cases found : r.find? d'.described.name with
      | none =>
          simp only [found] at run
          cases run
          exact ⟨rfl, .inr ⟨rfl, find?_eq_none.mp found⟩⟩
      | some known =>
          have entry : known ∈ r.entries := List.mem_of_find?_eq_some found
          simp only [found] at run
          split at run
          · rename_i same
            cases run
            have key : d.described.key = k := by
              rw [Schema.described_of_descriptor descriptor]
              exact keyed
            have described := h.described known entry
            rw [same, key, descriptor] at described
            cases described
            exact ⟨rfl, .inl ⟨rfl, entry⟩⟩
          · cases run

theorem register_succeeds_iff (h : Coherent catalog r) (keyed : (catalog k).key = k) :
    (∃ d r', register (catalog k) r = .ok d r') ↔
      (∃ d, (catalog k).descriptor = .ok d) ∧
        ∀ e ∈ r.entries, e.described.name = (catalog k).name → e.described.key = k := by
  constructor
  · rintro ⟨d, r', run⟩
    obtain ⟨descriptor, known⟩ := h.register_eq_ok keyed run
    have described := Schema.described_of_descriptor descriptor
    have name : d.described.name = (catalog k).name := by rw [described]; rfl
    refine ⟨⟨d, descriptor⟩, fun e he same => ?_⟩
    obtain ⟨-, hd⟩ | ⟨-, fresh⟩ := known
    · have unique := List.inj_on_of_nodup_map h.names he hd (same.trans name.symm)
      rw [unique, described]
      exact keyed
    · exact absurd (same.trans name.symm) (fresh e he)
  · rintro ⟨⟨d, descriptor⟩, free⟩
    have described := Schema.described_of_descriptor descriptor
    rw [register_eq, descriptor]
    dsimp only
    cases found : r.find? d.described.name with
    | none => exact ⟨_, _, rfl⟩
    | some known =>
        have name : known.described.name = d.described.name := by
          simpa using List.find?_some found
        have same : known.described.key = d.described.key := by
          rw [free known (List.mem_of_find?_eq_some found) (name.trans (by rw [described]; rfl)),
            described]
          exact keyed.symm
        dsimp only
        rw [if_pos same]
        exact ⟨_, _, rfl⟩

theorem after_register (h : Coherent catalog r) (keyed : (catalog k).key = k)
    (run : register (catalog k) r = .ok d r') : Coherent catalog r' := by
  obtain ⟨descriptor, ⟨rfl, -⟩ | ⟨rfl, fresh⟩⟩ := h.register_eq_ok keyed run
  · exact h
  · refine ⟨fun e he => ?_, ?_⟩
    · rcases List.mem_append.mp he with he | he
      · exact h.described e he
      · obtain rfl := List.mem_singleton.mp he
        have key : e.described.key = k := by
          rw [Schema.described_of_descriptor descriptor]
          exact keyed
        rw [key]
        exact descriptor
    · rw [List.map_append, List.map_singleton]
      refine List.Nodup.append h.names (List.nodup_singleton _) ?_
      intro name known new
      obtain ⟨e, he, named⟩ := List.mem_map.mp known
      exact fresh e he (named.trans (List.mem_singleton.mp new))

/-! Looking up. -/

theorem byType_eq_some (h : Coherent catalog r) :
    r.byType k = some d ↔ d ∈ r.entries ∧ d.described.key = k :=
  find?_eq_some_of_nodup h.keys

end

theorem byName_eq_ok (h : Coherent catalog r) :
    r.byName name = .ok d ↔ d ∈ r.entries ∧ d.described.name = name := by
  have found := find?_eq_some_of_nodup (b := name) (a := d) h.names
  rw [← found]
  unfold byName find?
  split
  · rename_i known look
    simp [look]
  · rename_i look
    simp [look]

/-- The names in the listing increase strictly. -/
theorem registered_sorted (h : Coherent catalog r) :
    r.registered.Pairwise fun a b => a.name < b.name := by
  have sorted : r.registered.Pairwise fun a b => decide (a.name ≤ b.name) = true :=
    List.pairwise_mergeSort (fun a b c ab bc => by
        simp only [decide_eq_true_eq] at ab bc ⊢
        exact String.le_trans ab bc)
      (fun a b => by simpa using String.le_total a.name b.name) _
  have distinct : r.registered.Pairwise fun a b => a.name ≠ b.name := by
    have names : ((r.entries.map Descriptor.described).map SchemaId.name).Nodup := by
      rw [List.map_map]
      exact h.names
    have listed : (r.registered.map SchemaId.name).Nodup :=
      ((List.mergeSort_perm _ _).map _).nodup_iff.mpr names
    exact List.pairwise_map.mp listed
  refine (sorted.and distinct).imp fun {a b} both => ?_
  refine String.not_le.mp fun ge => both.2 ?_
  exact String.le_antisymm (by simpa using both.1) ge

end Coherent

section

variable [DecidableEq κ]

/-- How a registry answers, as far as its entries tell: each name and each type finds its entry, and
the listing has each type once, by strictly increasing names. -/
structure Answers (r : Registry κ) : Prop where
  byName : ∀ name d, r.byName name = .ok d ↔ d ∈ r.entries ∧ d.described.name = name
  unknown : ∀ name fault, r.byName name = .error fault ↔
    fault = .notRegistered name ∧ ∀ d ∈ r.entries, d.described.name ≠ name
  byType : ∀ k d, r.byType k = some d ↔ d ∈ r.entries ∧ d.described.key = k
  listed : r.registered.Perm (r.entries.map Descriptor.described)
  sorted : r.registered.Pairwise fun a b => a.name < b.name
  once : (r.registered.map SchemaId.key).Nodup

theorem Coherent.answers (h : Coherent catalog r) : Answers r where
  byName _ _ := h.byName_eq_ok
  unknown name fault := by
    rw [← find?_eq_none]
    unfold byName
    cases r.find? name with
    | none => simp [eq_comm]
    | some d => simp
  byType _ _ := h.byType_eq_some
  listed := List.mergeSort_perm _ _
  sorted := h.registered_sorted
  once := by
    have listed := (List.mergeSort_perm (r.entries.map Descriptor.described)
      fun a b => a.name ≤ b.name).map SchemaId.key
    refine listed.nodup_iff.mpr ?_
    rw [List.map_map]
    exact h.keys

end

end Registry

end TypedJson
