import TypedJson.Proofs.Operation

/-!
# Checked operations

Operations that examine each access before they make it and have no bound on their loops. Besides an
answer or an error, a run can come to an access that must not be made, or go on for ever. To show
that neither happens, such an operation is run beside a plain one, which can do neither.
-/

set_option autoImplicit false
set_option relaxedAutoImplicit false

namespace TypedJson

/-- Why a checked run stops early: with an error, or in front of an access outside a buffer or a
stack, or of a subtraction or an addition outside the range of its type. -/
inductive Stop (ε : Type) where
  | error (e : ε)
  | astray
  deriving DecidableEq, Repr

/-- Checked operations. The outcome `none` is that of a run that goes on for ever. -/
abbrev CheckedM (ε σ : Type) := ExceptT (Stop ε) (StateT σ Option)

namespace CheckedM

variable {ε ε' σ τ ρ α β : Type}

def fail (e : ε) : CheckedM ε σ α :=
  throw (.error e)

/-- Goes on only if an access may be made. -/
def demand (p : Prop) [Decidable p] : CheckedM ε σ Unit :=
  if p then pure () else throw .astray

def finished : EStateM.Result ε σ α → Option (Except (Stop ε) α × σ)
  | .ok a s => some (.ok a, s)
  | .error e s => some (.error (.error e), s)

def answered : EStateM.Result ε σ α → Except (Stop ε) α
  | .ok a _ => .ok a
  | .error e _ => .error (.error e)

theorem answered_ne_astray (result : EStateM.Result ε σ α) : answered result ≠ .error .astray := by
  cases result <;> nofun

/-- Runs an operation that makes no access to check. -/
def plain (x : EStateM ε σ α) : CheckedM ε σ α := fun s =>
  finished (x s)

def onPart (part : σ → ρ) (replace : ρ → σ → σ) (report : ε' → σ → ε) (x : CheckedM ε' ρ α) :
    CheckedM ε σ α := fun s =>
  (x (part s)).map fun (outcome, p) =>
    let s := replace p s
    match outcome with
    | .ok a => (.ok a, s)
    | .error (.error e) => (.error (.error (report e s)), s)
    | .error .astray => (.error .astray, s)

section

variable (round : α → CheckedM ε σ (α ⊕ β))

/-- Goes on round by round. A round answers what the next one begins with, or else the answer of
them all; if no round ever does, there is no outcome. -/
def loop (a : α) : CheckedM ε σ β := do
  match ← round a with
  -- a call written as a term would keep its place in the file within the definition
  | .inl a => by apply loop; exact a
  | .inr b => pure b
partial_fixpoint

theorem loop_step (a : α) :
    loop round a = (do
      match ← round a with
      | .inl a => loop round a
      | .inr b => pure b) := by
  rw [loop]

end

theorem bind_of_ok {x : CheckedM ε σ α} {f : α → CheckedM ε σ β} {s s' : σ} {a : α}
    (h : x s = some (.ok a, s')) : (x >>= f) s = f a s' := by
  change Option.bind (x s) _ = _
  rw [h]
  rfl

theorem bind_of_stop {x : CheckedM ε σ α} {f : α → CheckedM ε σ β} {s s' : σ} {stop : Stop ε}
    (h : x s = some (.error stop, s')) : (x >>= f) s = some (.error stop, s') := by
  change Option.bind (x s) _ = _
  rw [h]
  rfl

theorem loop_of_inl {round : α → CheckedM ε σ (α ⊕ β)} {a a' : α} {s s' : σ}
    (h : round a s = some (.ok (.inl a'), s')) : loop round a s = loop round a' s' := by
  rw [loop_step, bind_of_ok h]

theorem loop_of_inr {round : α → CheckedM ε σ (α ⊕ β)} {a : α} {b : β} {s s' : σ}
    (h : round a s = some (.ok (.inr b), s')) : loop round a s = some (.ok b, s') := by
  rw [loop_step, bind_of_ok h]
  rfl

theorem loop_of_stop {round : α → CheckedM ε σ (α ⊕ β)} {a : α} {s s' : σ} {stop : Stop ε}
    (h : round a s = some (.error stop, s')) : loop round a s = some (.error stop, s') := by
  rw [loop_step, bind_of_stop h]

theorem plain_of_ok {x : EStateM ε σ α} {s s' : σ} {a : α} (h : x s = .ok a s') :
    plain x s = some (.ok a, s') := by
  rw [plain, h, finished]

theorem plain_of_error {x : EStateM ε σ α} {s s' : σ} {e : ε} (h : x s = .error e s') :
    plain x s = some (.error (.error e), s') := by
  rw [plain, h, finished]

theorem get_bind (f : σ → CheckedM ε σ β) (s : σ) : (get >>= f) s = f s s :=
  rfl

theorem demand_bind {p : Prop} [Decidable p] (h : p) (f : Unit → CheckedM ε σ β) :
    (demand p >>= f) = f () := by
  funext s
  refine bind_of_ok ?_
  rw [demand, if_pos h]
  rfl

end CheckedM

open CheckedM (finished)

/-- The outcome of a checked run beside that of a plain one: the same answer in states related by
`Q`, or the same error in states related by `E`. -/
inductive Realized {ε σ τ α : Type} (Q : α → σ → τ → Prop) (E : σ → τ → Prop) :
    Option (Except (Stop ε) α × σ) → EStateM.Result ε τ α → Prop where
  | ok {a : α} {s : σ} {t : τ} : Q a s t → Realized Q E (some (.ok a, s)) (.ok a t)
  | error {e : ε} {s : σ} {t : τ} :
      E s t → Realized Q E (some (.error (.error e), s)) (.error e t)

/-- From states related by `P`, a checked run comes to the outcome of the plain one. -/
def Realizes {ε σ τ α : Type} (P : σ → τ → Prop) (x : CheckedM ε σ α) (y : EStateM ε τ α)
    (Q : α → σ → τ → Prop) (E : σ → τ → Prop) : Prop :=
  ∀ s t, P s t → Realized Q E (x s) (y t)

namespace Realized

variable {ε σ τ α : Type} {Q Q' : α → σ → τ → Prop} {E E' : σ → τ → Prop}
variable {outcome : Option (Except (Stop ε) α × σ)} {result : EStateM.Result ε τ α}

theorem weaken (h : Realized Q E outcome result) (hQ : ∀ a s t, Q a s t → Q' a s t)
    (hE : ∀ s t, E s t → E' s t) : Realized Q' E' outcome result := by
  cases h with
  | ok h => exact .ok (hQ _ _ _ h)
  | error h => exact .error (hE _ _ h)

theorem exists_final {P : σ → τ → Prop} (h : Realized (fun _ => P) P outcome result) :
    ∃ s, outcome = some (CheckedM.answered result, s) ∧ P s (Operation.final result) := by
  cases h with
  | ok h => exact ⟨_, rfl, h⟩
  | error h => exact ⟨_, rfl, h⟩

theorem related {P : σ → τ → Prop} {a : Except (Stop ε) α} {s : σ}
    (h : Realized (fun _ => P) P outcome result) (run : outcome = some (a, s)) :
    P s (Operation.final result) := by
  obtain ⟨s', same, h⟩ := h.exists_final
  cases run.symm.trans same
  exact h

end Realized

namespace Realizes

variable {ε σ τ α β : Type} {P P' : σ → τ → Prop} {Q Q' : α → σ → τ → Prop}
variable {R : β → σ → τ → Prop} {E E' : σ → τ → Prop}
variable {x : CheckedM ε σ α} {y : EStateM ε τ α} {f : α → CheckedM ε σ β}
variable {g : α → EStateM ε τ β}

theorem pure {a : α} (h : ∀ s t, P s t → Q a s t) :
    Realizes P (Pure.pure a : CheckedM ε σ α) (Pure.pure a) Q E :=
  fun s t hs => .ok (h s t hs)

theorem fail {e : ε} (h : ∀ s t, P s t → E s t) :
    Realizes P (CheckedM.fail e : CheckedM ε σ α) (throw e) Q E :=
  fun s t hs => .error (h s t hs)

theorem modify {k : σ → σ} {l : τ → τ} {R : PUnit → σ → τ → Prop}
    (h : ∀ s t, P s t → R ⟨⟩ (k s) (l t)) :
    Realizes P (modify k : CheckedM ε σ PUnit) (modify l) R E :=
  fun s t hs => .ok (h s t hs)

theorem ask {k : σ → α} {l : τ → α} (h : ∀ s t, P s t → k s = l t) :
    Realizes P (do Pure.pure (k (← get)) : CheckedM ε σ α) (do Pure.pure (l (← get)))
      (fun _ => P) E := by
  intro s t hs
  change Realized _ _ (some (.ok (k s), s)) (.ok (l t) t)
  rw [h s t hs]
  exact .ok hs

theorem bind (hx : Realizes P x y Q E) (hf : ∀ a, Realizes (Q a) (f a) (g a) R E) :
    Realizes P (x >>= f) (y >>= g) R E := by
  intro s t hs
  have first := hx s t hs
  generalize hc : x s = outcome at first
  generalize hp : y t = result at first
  cases first with
  | ok h =>
      rw [CheckedM.bind_of_ok hc, Operation.bind_of_ok hp]
      exact hf _ _ _ h
  | error h =>
      rw [CheckedM.bind_of_stop hc, Operation.bind_of_error hp]
      exact .error h

theorem weaken (hx : Realizes P x y Q E) (hP : ∀ s t, P' s t → P s t)
    (hQ : ∀ a s t, Q a s t → Q' a s t) (hE : ∀ s t, E s t → E' s t) : Realizes P' x y Q' E' :=
  fun s t hs => (hx s t (hP s t hs)).weaken hQ hE

theorem starting (hx : Realizes P x y Q E) (hP : ∀ s t, P' s t → P s t) : Realizes P' x y Q E :=
  hx.weaken hP (fun _ _ _ h => h) fun _ _ h => h

theorem answering (hx : Realizes P x y Q E) (hQ : ∀ a s t, Q a s t → Q' a s t) :
    Realizes P x y Q' E :=
  hx.weaken (fun _ _ h => h) hQ fun _ _ h => h

theorem ensuring {A : τ → Prop} {B : α → τ → Prop} (hx : Realizes P x y Q E)
    (hy : Operation.Ensures A y B) (hA : ∀ s t, P s t → A t) :
    Realizes P x y (fun a s t => Q a s t ∧ B a t) E := by
  intro s t hs
  have run := hx s t hs
  generalize x s = outcome at run ⊢
  generalize hr : y t = result at run ⊢
  cases run with
  | ok h => exact .ok ⟨h, hy _ _ _ (hA s t hs) hr⟩
  | error h => exact .error h

end Realizes

/-! Operations on one state with their checks, and without. -/

/-- From a state with `P`, the checked run comes to the outcome of the plain one, in a state with
`Q` if that is an answer and in one with `E` if it is an error. -/
def Safe {ε σ α : Type} (P : σ → Prop) (x : CheckedM ε σ α) (y : EStateM ε σ α)
    (Q E : σ → Prop) : Prop :=
  Realizes (fun s t => s = t ∧ P t) x y (fun _ s t => s = t ∧ Q t) fun s t => s = t ∧ E t

namespace Safe

variable {ε σ α β : Type} {P P' Q Q' R E E' : σ → Prop} {x : CheckedM ε σ α} {y : EStateM ε σ α}
variable {f : α → CheckedM ε σ β} {g : α → EStateM ε σ β}

theorem of_forall (h : ∀ s, P s → Realized (fun _ s t => s = t ∧ Q t) (fun s t => s = t ∧ E t)
    (x s) (y s)) : Safe P x y Q E := by
  rintro s _ ⟨rfl, hs⟩
  exact h s hs

theorem pure {a : α} (h : ∀ s, P s → Q s) :
    Safe P (Pure.pure a : CheckedM ε σ α) (Pure.pure a) Q E :=
  of_forall fun s hs => .ok ⟨rfl, h s hs⟩

theorem modify {k : σ → σ} (h : ∀ s, P s → Q (k s)) :
    Safe P (modify k : CheckedM ε σ PUnit) (modify k) Q E :=
  of_forall fun s hs => .ok ⟨rfl, h s hs⟩

theorem bind (hx : Safe P x y Q E) (hf : ∀ a, Safe Q (f a) (g a) R E) :
    Safe P (x >>= f) (y >>= g) R E :=
  Realizes.bind hx hf

theorem weaken (hx : Safe P x y Q E) (hP : ∀ s, P' s → P s) (hQ : ∀ s, Q s → Q' s)
    (hE : ∀ s, E s → E' s) : Safe P' x y Q' E' :=
  Realizes.weaken hx (fun _ _ => And.imp_right (hP _)) (fun _ _ _ => And.imp_right (hQ _))
    fun _ _ => And.imp_right (hE _)

theorem starting (hx : Safe P x y Q E) (hP : ∀ s, P' s → P s) : Safe P' x y Q E :=
  hx.weaken hP (fun _ h => h) fun _ h => h

theorem failing (hx : Safe P x y Q E) (hE : ∀ s, E s → E' s) : Safe P x y Q E' :=
  hx.weaken (fun _ h => h) (fun _ h => h) hE

theorem plain (h : ∀ s, P s → Q (Operation.final (y s))) : Safe P (CheckedM.plain y) y Q Q :=
  of_forall fun s hs => by
    have kept := h s hs
    cases run : y s with
    | ok a t =>
        rw [run] at kept
        rw [CheckedM.plain_of_ok run]
        exact .ok ⟨rfl, kept⟩
    | error e t =>
        rw [run] at kept
        rw [CheckedM.plain_of_error run]
        exact .error ⟨rfl, kept⟩

theorem get {f : σ → CheckedM ε σ β} {g : σ → EStateM ε σ β}
    (h : ∀ s, P s → Safe (fun t => t = s) (f s) (g s) R E) :
    Safe P (get >>= f) (get >>= g) R E :=
  of_forall fun s hs => h s hs s s ⟨rfl, rfl⟩

theorem demand {p : Prop} [Decidable p] {x : CheckedM ε σ α} (allowed : ∀ s, P s → p)
    (hx : Safe P x y Q E) : Safe P (do CheckedM.demand p; x) y Q E :=
  of_forall fun s hs => by
    rw [CheckedM.demand_bind (allowed s hs)]
    exact hx s s ⟨rfl, hs⟩

theorem demand_get {p : σ → Prop} [DecidablePred p] {x : CheckedM ε σ α} (allowed : ∀ s, P s → p s)
    (hx : Safe P x y Q E) : Safe P (do let s ← MonadState.get; CheckedM.demand (p s); x) y Q E :=
  of_forall fun s hs => by
    rw [CheckedM.get_bind, CheckedM.demand_bind (allowed s hs)]
    exact hx s s ⟨rfl, hs⟩

/-- A run with its checks comes to no other outcome than one without. -/
theorem eq_finished (hx : Safe P x y Q E) {s : σ} (hs : P s) : x s = finished (y s) := by
  have h := hx s s ⟨rfl, hs⟩
  generalize x s = outcome at h
  generalize y s = result at h
  cases h with
  | ok h => rw [h.1, finished]
  | error h => rw [h.1, finished]

theorem final (hx : Safe P x y Q E) {s : σ} (hs : P s) (hQ : ∀ s, Q s → R s)
    (hE : ∀ s, E s → R s) : R (Operation.final (y s)) := by
  have h := hx s s ⟨rfl, hs⟩
  generalize x s = outcome at h
  generalize y s = result at h
  cases h with
  | ok h => exact hQ _ h.2
  | error h => exact hE _ h.2

end Safe

end TypedJson
