import TypedJson.Proofs.Schema.Registry
import TypedJson.Sample.Catalog

set_option autoImplicit false
set_option relaxedAutoImplicit false

namespace TypedJson.Registry

open Operation

variable {κ : Type} {catalog : Catalog κ} {r r' : Registry κ} {d : Descriptor κ} {k : κ}
variable {fault : ResolutionFault} {name : String}

/-- A call that registers schemas, by their keys: one schema, with its descriptor or its support for
an answer, or a group. -/
inductive Request (κ : Type) where
  | register (key : κ)
  | support (key : κ)
  | group (name : String) (keys : List κ)

def Request.keys : Request κ → List κ
  | .register k | .support k => [k]
  | .group _ keys => keys

section

variable [DecidableEq κ]

def Request.run (catalog : Catalog κ) : Request κ → RegistryM κ Unit
  | .register k => do let _ ← Registry.register (catalog k)
  | .support k => do let _ ← Registry.support catalog (catalog k)
  | .group name keys => registerGroup ⟨name, keys.map catalog⟩

/-- The registry behind some requests, which go on after failures. -/
def after (catalog : Catalog κ) : Registry κ → List (Request κ) → Registry κ
  | r, [] => r
  | r, q :: requests => after catalog (final (q.run catalog r)) requests

/-- A registration that has been tried: of which schema, and with which outcome. -/
abbrev Trial (κ : Type) := κ × Except ResolutionFault (Descriptor κ)

/-- Registers schemas one after the other up to the first that fails. -/
def tryAll (catalog : Catalog κ) : Registry κ → List κ → List (Trial κ) × Registry κ
  | r, [] => ([], r)
  | r, k :: keys =>
      match register (catalog k) r with
      | .ok d r' =>
          let (trials, r'') := tryAll catalog r' keys
          ((k, .ok d) :: trials, r'')
      | .error fault r' => ([(k, .error fault)], r')

/-- All registrations that some requests have come to. -/
def history (catalog : Catalog κ) : Registry κ → List (Request κ) → List (Trial κ)
  | _, [] => []
  | r, q :: requests =>
      (tryAll catalog r q.keys).1 ++ history catalog (final (q.run catalog r)) requests

inductive RegistersAll (catalog : Catalog κ) : Registry κ → List κ → Registry κ → Prop where
  | nil {r : Registry κ} : RegistersAll catalog r [] r
  | cons {r r₁ r' : Registry κ} {k : κ} {keys : List κ} {d : Descriptor κ} :
      register (catalog k) r = .ok d r₁ → RegistersAll catalog r₁ keys r' →
      RegistersAll catalog r (k :: keys) r'

variable {keys : List κ}

theorem registerGroup_cons (r : Registry κ) :
    registerGroup ⟨name, (k :: keys).map catalog⟩ r =
      (do let _ ← register (catalog k)
          registerGroup ⟨name, keys.map catalog⟩ : RegistryM κ Unit) r := by
  change ((register (catalog k) >>= fun _ => pure ()) >>= fun _ =>
    registerGroup ⟨name, keys.map catalog⟩) r = _
  rw [bind_assoc]
  rfl

theorem registerGroup_eq_ok :
    registerGroup ⟨name, keys.map catalog⟩ r = .ok () r' ↔ RegistersAll catalog r keys r' := by
  induction keys generalizing r with
  | nil =>
      constructor
      · intro h
        cases h
        exact .nil
      · intro h
        cases h
        rfl
  | cons k keys ih =>
      rw [registerGroup_cons, bind_eq_ok]
      constructor
      · intro ⟨_, _, first, others⟩
        exact .cons first (ih.mp others)
      · intro h
        cases h with
        | cons first rest => exact ⟨_, _, first, ih.mpr rest⟩

theorem registerGroup_eq_error :
    registerGroup ⟨name, keys.map catalog⟩ r = .error fault r' ↔
      ∃ front k rest, keys = front ++ k :: rest ∧ RegistersAll catalog r front r' ∧
        register (catalog k) r' = .error fault r' := by
  induction keys generalizing r with
  | nil =>
      constructor
      · intro h
        cases h
      · intro ⟨front, k, rest, split, _⟩
        simp at split
  | cons k keys ih =>
      rw [registerGroup_cons]
      cases first : register (catalog k) r with
      | ok d r₁ =>
          rw [bind_of_ok first, ih]
          constructor
          · intro ⟨front, k', rest, split, all, failed⟩
            exact ⟨k :: front, k', rest, by rw [split, List.cons_append], .cons first all, failed⟩
          · intro ⟨front, k', rest, split, all, failed⟩
            cases all with
            | nil =>
                rw [List.nil_append] at split
                cases split
                cases first.symm.trans failed
            | cons again all =>
                rw [List.cons_append] at split
                cases split
                cases first.symm.trans again
                exact ⟨_, k', rest, rfl, all, failed⟩
      | error e r₁ =>
          have unchanged := state_of_failed_register first
          subst unchanged
          rw [bind_of_error first]
          constructor
          · intro h
            cases h
            exact ⟨[], k, keys, rfl, .nil, first⟩
          · intro ⟨front, k', rest, split, all, failed⟩
            cases all with
            | nil =>
                rw [List.nil_append] at split
                cases split
                cases first.symm.trans failed
                rfl
            | cons again all =>
                rw [List.cons_append] at split
                cases split
                cases first.symm.trans again

theorem final_run (q : Request κ) (r : Registry κ) :
    final (q.run catalog r) = (tryAll catalog r q.keys).2 := by
  cases q with
  | register k =>
      change final ((register (catalog k) >>= fun _ => pure ()) r) = (tryAll catalog r [k]).2
      unfold tryAll
      cases h : register (catalog k) r with
      | ok d r' =>
          rw [bind_of_ok h]
          rfl
      | error fault r' =>
          rw [bind_of_error h]
          rfl
  | support k =>
      change final ((support catalog (catalog k) >>= fun _ => pure ()) r) =
        (tryAll catalog r [k]).2
      unfold tryAll
      rw [support_eq, bind_assoc]
      cases h : register (catalog k) r with
      | ok d r' =>
          rw [bind_of_ok h]
          rfl
      | error fault r' =>
          rw [bind_of_error h]
          rfl
  | group name keys =>
      change final (registerGroup ⟨name, keys.map catalog⟩ r) = (tryAll catalog r keys).2
      induction keys generalizing r with
      | nil => rfl
      | cons k keys ih =>
          rw [registerGroup_cons]
          unfold tryAll
          cases h : register (catalog k) r with
          | ok d r' =>
              rw [bind_of_ok h]
              exact ih r'
          | error fault r' =>
              rw [bind_of_error h]
              rfl

/-- What a history of registrations says about the registry behind it. -/
structure Records (catalog : Catalog κ) (h : List (Trial κ)) (r : Registry κ) : Prop where
  coherent : Coherent catalog r
  entries : ∀ d, d ∈ r.entries ↔ ∃ k, (k, .ok d) ∈ h
  described : ∀ k d, (k, .ok d) ∈ h → (catalog k).descriptor = .ok d
  justified : ∀ earlier k outcome, earlier ++ [(k, outcome)] <+: h →
    ((∃ d, outcome = .ok d) ↔ (∃ d, (catalog k).descriptor = .ok d) ∧
      ∀ k' d, (k', .ok d) ∈ earlier → (catalog k').name = (catalog k).name → k' = k)

namespace Records

variable {h : List (Trial κ)}

/-- Registering succeeds if and only if the schema has a descriptor and no other type has been
registered under its name. -/
theorem succeeds_iff (records : Records catalog h r) (keyed : ∀ k, (catalog k).key = k) :
    (∃ d r', register (catalog k) r = .ok d r') ↔
      (∃ d, (catalog k).descriptor = .ok d) ∧
        ∀ k' d, (k', .ok d) ∈ h → (catalog k').name = (catalog k).name → k' = k := by
  have identity {k' : κ} {d : Descriptor κ} (tried : (k', .ok d) ∈ h) :
      d.described.name = (catalog k').name ∧ d.described.key = k' := by
    have described := Schema.described_of_descriptor (records.described k' d tried)
    rw [described]
    exact ⟨rfl, keyed k'⟩
  rw [records.coherent.register_succeeds_iff (keyed k)]
  refine and_congr_right fun _ => ?_
  constructor
  · intro free k' d tried same
    obtain ⟨name, key⟩ := identity tried
    have entry := (records.entries d).mpr ⟨k', tried⟩
    rw [← key]
    exact free d entry (name.trans same)
  · intro free d entry same
    obtain ⟨k', tried⟩ := (records.entries d).mp entry
    obtain ⟨name, key⟩ := identity tried
    rw [key]
    exact free k' d tried (name.symm.trans same)

theorem justified_snoc (records : Records catalog h r) (keyed : ∀ k, (catalog k).key = k)
    {outcome : Except ResolutionFault (Descriptor κ)}
    (run : (∃ d, outcome = .ok d) ↔ ∃ d r', register (catalog k) r = .ok d r')
    (earlier : List (Trial κ)) (k' : κ) (outcome' : Except ResolutionFault (Descriptor κ))
    (first : earlier ++ [(k', outcome')] <+: h ++ [(k, outcome)]) :
    (∃ d, outcome' = .ok d) ↔ (∃ d, (catalog k').descriptor = .ok d) ∧
      ∀ k'' d, (k'', .ok d) ∈ earlier → (catalog k'').name = (catalog k').name → k'' = k' := by
  rcases List.prefix_concat_iff.mp first with last | before
  · obtain ⟨rfl, same⟩ := List.append_inj' last rfl
    cases same
    rw [run]
    exact records.succeeds_iff keyed
  · exact records.justified earlier k' outcome' before

theorem after_register (records : Records catalog h r) (keyed : ∀ k, (catalog k).key = k)
    (run : register (catalog k) r = .ok d r') :
    Records catalog (h ++ [(k, .ok d)]) r' where
  coherent := records.coherent.after_register (keyed k) run
  entries e := by
    obtain ⟨-, ⟨same, known⟩ | ⟨extended, -⟩⟩ := records.coherent.register_eq_ok (keyed k) run
    · obtain ⟨k', tried⟩ := (records.entries d).mp known
      rw [same, records.entries e]
      constructor
      · intro ⟨k'', before⟩
        exact ⟨k'', List.mem_append_left _ before⟩
      · intro ⟨k'', member⟩
        rcases List.mem_append.mp member with before | new
        · exact ⟨k'', before⟩
        · cases List.mem_singleton.mp new
          exact ⟨k', tried⟩
    · rw [extended, List.mem_append, List.mem_singleton, records.entries e]
      constructor
      · intro known
        rcases known with ⟨k'', before⟩ | rfl
        · exact ⟨k'', List.mem_append_left _ before⟩
        · exact ⟨k, List.mem_append_right _ (List.mem_singleton.mpr rfl)⟩
      · intro ⟨k'', member⟩
        rcases List.mem_append.mp member with before | new
        · exact .inl ⟨k'', before⟩
        · cases List.mem_singleton.mp new
          exact .inr rfl
  described k' e member := by
    rcases List.mem_append.mp member with before | new
    · exact records.described k' e before
    · cases List.mem_singleton.mp new
      exact descriptor_of_register run
  justified := records.justified_snoc keyed ⟨fun _ => ⟨d, r', run⟩, fun _ => ⟨d, rfl⟩⟩

theorem after_failure (records : Records catalog h r) (keyed : ∀ k, (catalog k).key = k)
    (run : register (catalog k) r = .error fault r') :
    Records catalog (h ++ [(k, .error fault)]) r' := by
  have unchanged := state_of_failed_register run
  subst unchanged
  refine ⟨records.coherent, fun e => ?_, fun k' e member => ?_, ?_⟩
  · rw [records.entries e]
    simp
  · exact records.described k' e (by simpa using member)
  · refine records.justified_snoc keyed ⟨?_, ?_⟩
    · intro ⟨d, impossible⟩
      cases impossible
    · intro ⟨d, r'', succeeded⟩
      cases run.symm.trans succeeded

theorem after_tryAll (records : Records catalog h r) (keyed : ∀ k, (catalog k).key = k)
    (keys : List κ) :
    Records catalog (h ++ (tryAll catalog r keys).1) (tryAll catalog r keys).2 := by
  induction keys generalizing h r with
  | nil =>
      unfold tryAll
      rw [List.append_nil]
      exact records
  | cons k keys ih =>
      unfold tryAll
      cases run : register (catalog k) r with
      | ok d r' =>
          have rest := ih (records.after_register keyed run)
          rw [List.append_assoc] at rest
          exact rest
      | error fault r' => exact records.after_failure keyed run

theorem after_requests (records : Records catalog h r) (keyed : ∀ k, (catalog k).key = k)
    (requests : List (Request κ)) :
    Records catalog (h ++ history catalog r requests) (after catalog r requests) := by
  induction requests generalizing h r with
  | nil =>
      unfold history after
      rw [List.append_nil]
      exact records
  | cons q requests ih =>
      unfold history after
      have one := records.after_tryAll keyed q.keys
      rw [← final_run] at one
      have rest := ih one
      rw [List.append_assoc] at rest
      exact rest

omit [DecidableEq κ] in
theorem new : Records catalog [] {} where
  coherent := ⟨nofun, List.nodup_nil⟩
  entries d := by simp
  described := nofun
  justified earlier k outcome first := by simp at first

end Records

theorem prefix_of_tryAll (r : Registry κ) (keys : List κ) :
    r.entries <+: (tryAll catalog r keys).2.entries := by
  induction keys generalizing r with
  | nil => exact List.prefix_refl _
  | cons k keys ih =>
      have step (r' : Registry κ) (d : Descriptor κ) (run : register (catalog k) r = .ok d r') :
          r.entries <+: r'.entries := by
        rw [register_eq] at run
        repeat' split at run
        all_goals cases run
        · exact List.prefix_append _ _
        · exact List.prefix_refl _
      unfold tryAll
      cases run : register (catalog k) r with
      | ok d r' => exact (step r' d run).trans (ih r')
      | error fault r' =>
          have unchanged := state_of_failed_register run
          subst unchanged
          exact List.prefix_refl _

theorem prefix_of_requests (r : Registry κ) (requests : List (Request κ)) :
    r.entries <+: (after catalog r requests).entries := by
  induction requests generalizing r with
  | nil => exact List.prefix_refl _
  | cons q requests ih =>
      have one : r.entries <+: (tryAll catalog r q.keys).2.entries := prefix_of_tryAll r q.keys
      rw [← final_run] at one
      exact one.trans (ih _)

/-- From an empty registry on, whatever is registered, what is known is what has been registered
successfully: a registration succeeds exactly if the schema has a descriptor and no other type has
been registered under its name, a failure changes nothing, a group is registered up to the first
failure, nothing known is lost, and lookups and listing answer from what is known. -/
theorem knows_registered (keyed : ∀ k, (catalog k).key = k) (requests : List (Request κ)) :
    Records catalog (history catalog {} requests) (after catalog {} requests) ∧
      Answers (after catalog {} requests) ∧
      (∀ more, (after catalog {} requests).entries <+:
        (after catalog (after catalog {} requests) more).entries) ∧
      (∀ (s : Schema κ) (r r' : Registry κ) (fault : ResolutionFault),
        register s r = .error fault r' →
          r' = r ∧
            (s.descriptor = .error fault ∧ (∃ schema cause, fault = .invalidSchema schema cause) ∨
              fault = .nameConflict s.name)) ∧
      (∀ s : Schema κ, support catalog s =
        (do let d ← register s
            pure ⟨d, s.read catalog, EmitM.value catalog⟩ : RegistryM κ (Support κ))) ∧
      (∀ (name : String) (keys : List κ) (r r' : Registry κ),
        registerGroup ⟨name, keys.map catalog⟩ r = .ok () r' ↔ RegistersAll catalog r keys r') ∧
      ∀ (name : String) (keys : List κ) (r r' : Registry κ) (fault : ResolutionFault),
        registerGroup ⟨name, keys.map catalog⟩ r = .error fault r' ↔
          ∃ front k rest, keys = front ++ k :: rest ∧ RegistersAll catalog r front r' ∧
            register (catalog k) r' = .error fault r' := by
  have records := Records.new.after_requests keyed requests
  rw [List.nil_append] at records
  refine ⟨records, records.coherent.answers, prefix_of_requests _, ?_, support_eq, ?_, ?_⟩
  · intro s r r' fault failed
    refine ⟨state_of_failed_register failed, ?_⟩
    rcases fault_of_register failed with descriptor | conflict
    · exact .inl ⟨descriptor, Schema.fault_of_descriptor descriptor⟩
    · exact .inr conflict
  · intro name keys r r'
    exact registerGroup_eq_ok
  · intro name keys r r' fault
    exact registerGroup_eq_error

end

/-- A group with a conflict of names, then a schema without a descriptor, then an extending type. -/
theorem knows_registered_conflict :
    (∀ k, (Sample.catalog k).key = k) ∧
      (∀ d, d ∈ (after Sample.catalog {} [.group "ConflictModule"
          [.userAccount, .entity, .otherUserAccount, .empty], .register .duplicate,
          .support .document]).entries ↔
        ∃ k, (k, .ok d) ∈ history Sample.catalog {} [.group "ConflictModule"
          [.userAccount, .entity, .otherUserAccount, .empty], .register .duplicate,
          .support .document]) ∧
      (after Sample.catalog {} [.group "ConflictModule"
          [.userAccount, .entity, .otherUserAccount, .empty], .register .duplicate,
          .support .document]).entries.map (fun d => d.described.name) =
        ["UserAccount", "Entity", "Document"] := by
  have keyed (k : Sample.Key) : (Sample.catalog k).key = k := by
    cases k <;> rfl
  exact ⟨keyed, (knows_registered keyed _).1.entries, by decide +kernel⟩

end TypedJson.Registry
