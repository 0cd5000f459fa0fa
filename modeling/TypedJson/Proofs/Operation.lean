set_option autoImplicit false
set_option relaxedAutoImplicit false

namespace TypedJson.Operation

variable {ε σ α β : Type}

theorem bind_of_ok {x : EStateM ε σ α} {f : α → EStateM ε σ β} {s s' : σ} {a : α}
    (h : x s = .ok a s') : (x >>= f) s = f a s' := by
  change EStateM.bind x f s = _
  simp only [EStateM.bind, h]

theorem bind_of_error {x : EStateM ε σ α} {f : α → EStateM ε σ β} {s s' : σ} {e : ε}
    (h : x s = .error e s') : (x >>= f) s = .error e s' := by
  change EStateM.bind x f s = _
  simp only [EStateM.bind, h]

theorem ok_ne_error {a : α} {e : ε} {s s' : σ} :
    (EStateM.Result.ok a s : EStateM.Result ε σ α) ≠ .error e s' :=
  nofun

theorem get_bind (f : σ → EStateM ε σ β) (s : σ) : (get >>= f) s = f s s :=
  rfl

theorem bind_eq_ok {x : EStateM ε σ α} {f : α → EStateM ε σ β} {s s' : σ} {b : β} :
    (x >>= f) s = .ok b s' ↔ ∃ a t, x s = .ok a t ∧ f a t = .ok b s' := by
  cases h : x s with
  | ok a t =>
      rw [bind_of_ok h]
      constructor
      · exact fun hf => ⟨a, t, rfl, hf⟩
      · rintro ⟨_, _, hx, hf⟩
        cases hx
        exact hf
  | error e t => simp [bind_of_error h]

theorem bind_eq_error {x : EStateM ε σ α} {f : α → EStateM ε σ β} {s s' : σ} {e : ε} :
    (x >>= f) s = .error e s' ↔
      x s = .error e s' ∨ ∃ a t, x s = .ok a t ∧ f a t = .error e s' := by
  cases h : x s with
  | ok a t =>
      rw [bind_of_ok h]
      constructor
      · exact fun hf => .inr ⟨a, t, rfl, hf⟩
      · rintro (first | ⟨_, _, hx, hf⟩)
        · cases first
        · cases hx
          exact hf
  | error e' t => simp [bind_of_error h]

theorem bind_congr {x x' : EStateM ε σ α} {f f' : α → EStateM ε σ β} {s : σ} (first : x s = x' s)
    (rest : ∀ a t, x s = .ok a t → f a t = f' a t) : (x >>= f) s = (x' >>= f') s := by
  cases h : x s with
  | ok a t => rw [bind_of_ok h, bind_of_ok (first.symm.trans h), rest a t h]
  | error e t => rw [bind_of_error h, bind_of_error (first.symm.trans h)]

/-- Whenever an operation succeeds from a state with `P`, its answer and its state have `Q`. -/
def Ensures (P : σ → Prop) (x : EStateM ε σ α) (Q : α → σ → Prop) : Prop :=
  ∀ s a s', P s → x s = .ok a s' → Q a s'

namespace Ensures

variable {P P' : σ → Prop} {Q Q' : α → σ → Prop} {R : β → σ → Prop}
variable {x : EStateM ε σ α} {f : α → EStateM ε σ β}

theorem pure {a : α} (h : ∀ s, P s → Q a s) : Ensures P (Pure.pure a : EStateM ε σ α) Q := by
  rintro s _ _ hs ⟨⟩
  exact h s hs

theorem bind (hx : Ensures P x Q) (hf : ∀ a, Ensures (Q a) (f a) R) : Ensures P (x >>= f) R := by
  intro s b s' hs hb
  obtain ⟨a, t, ha, hb⟩ := bind_eq_ok.mp hb
  exact hf a t b s' (hx s a t hs ha) hb

theorem modify {g : σ → σ} {R : PUnit → σ → Prop} (h : ∀ s, P s → R ⟨⟩ (g s)) :
    Ensures P (modify g : EStateM ε σ PUnit) R := by
  rintro s _ _ hs ⟨⟩
  exact h s hs

theorem throw {e : ε} : Ensures P (throw e : EStateM ε σ α) Q := by
  rintro s _ _ _ ⟨⟩

theorem weaken (hx : Ensures P x Q) (hP : ∀ s, P' s → P s) (hQ : ∀ a s, Q a s → Q' a s) :
    Ensures P' x Q' :=
  fun s a s' hs hx' => hQ a s' (hx s a s' (hP s hs) hx')

end Ensures

def Yields (x : EStateM ε σ α) (Q : α → Prop) : Prop :=
  ∀ s a s', x s = .ok a s' → Q a

namespace Yields

variable {Q : α → Prop} {R : β → Prop} {x : EStateM ε σ α} {f : α → EStateM ε σ β}

theorem pure {a : α} (h : Q a) : Yields (Pure.pure a : EStateM ε σ α) Q := by
  rintro _ _ _ ⟨⟩
  exact h

theorem throw {e : ε} : Yields (throw e : EStateM ε σ α) Q := by
  rintro _ _ _ ⟨⟩

theorem bind (hf : ∀ a, Yields (f a) R) : Yields (x >>= f) R := by
  intro s b s' h
  obtain ⟨a, t, -, rest⟩ := bind_eq_ok.mp h
  exact hf a t b s' rest

end Yields

/-- From every state with `P` an operation succeeds, and its answer and its state have `Q`. -/
def Attains (P : σ → Prop) (x : EStateM ε σ α) (Q : α → σ → Prop) : Prop :=
  ∀ s, P s → ∃ a s', x s = .ok a s' ∧ Q a s'

namespace Attains

variable {P P' : σ → Prop} {Q Q' : α → σ → Prop} {R : β → σ → Prop}
variable {x : EStateM ε σ α} {f : α → EStateM ε σ β}

theorem pure {a : α} (h : ∀ s, P s → Q a s) : Attains P (Pure.pure a : EStateM ε σ α) Q :=
  fun s hs => ⟨a, s, rfl, h s hs⟩

theorem bind (hx : Attains P x Q) (hf : ∀ a, Attains (Q a) (f a) R) : Attains P (x >>= f) R := by
  intro s hs
  obtain ⟨a, t, ha, ht⟩ := hx s hs
  obtain ⟨b, u, hb, hu⟩ := hf a t ht
  exact ⟨b, u, by rw [bind_of_ok ha, hb], hu⟩

theorem modify {g : σ → σ} {R : PUnit → σ → Prop} (h : ∀ s, P s → R ⟨⟩ (g s)) :
    Attains P (modify g : EStateM ε σ PUnit) R :=
  fun s hs => ⟨⟨⟩, g s, rfl, h s hs⟩

theorem weaken (hx : Attains P x Q) (hP : ∀ s, P' s → P s) (hQ : ∀ a s, Q a s → Q' a s) :
    Attains P' x Q' := by
  intro s hs
  obtain ⟨a, t, ha, ht⟩ := hx s (hP s hs)
  exact ⟨a, t, ha, hQ a t ht⟩

theorem ensures (hx : Attains P x Q) : Ensures P x Q := by
  intro s a s' hs h
  obtain ⟨a', t, ha, ht⟩ := hx s hs
  cases ha.symm.trans h
  exact ht

end Attains

/-- Whenever the first operation succeeds, from a state with `P`, the second one succeeds from the
image of that state with the same answer and leaves the image of the state that the first one has
left, which has `P` again. Doomed answers are left out. -/
def Carries (P : σ → Prop) (image : σ → σ) (x y : EStateM ε σ α)
    (doomed : α → Prop := fun _ => False) : Prop :=
  ∀ s a s', P s → x s = .ok a s' → ¬ doomed a → P s' ∧ y (image s) = .ok a (image s')

namespace Carries

variable {P : σ → Prop} {image : σ → σ} {x y : EStateM ε σ α} {f g : α → EStateM ε σ β}
variable {doomed : α → Prop} {doomed' : β → Prop}

theorem pure (a : α) : Carries P image (Pure.pure a : EStateM ε σ α) (Pure.pure a) doomed := by
  rintro s _ _ hs ⟨⟩ -
  exact ⟨hs, rfl⟩

theorem of_yields_doomed (hx : Yields x doomed) : Carries P image x y doomed :=
  fun s a s' _ h safe => absurd (hx s a s' h) safe

theorem throw {e : ε} : Carries P image (throw e : EStateM ε σ α) y doomed :=
  of_yields_doomed Yields.throw

theorem modify {k : σ → σ} (hP : ∀ s, P s → P (k s)) (hk : ∀ s, k (image s) = image (k s)) :
    Carries P image (modify k : EStateM ε σ PUnit) (modify k) := by
  rintro s _ _ hs ⟨⟩ -
  refine ⟨hP s hs, ?_⟩
  change EStateM.Result.ok _ _ = _
  rw [hk]

theorem bind_doomed (hx : Carries P image x y doomed)
    (hf : ∀ a, ¬ doomed a → Carries P image (f a) (g a) doomed')
    (fate : ∀ a, doomed a → Yields (f a) doomed') :
    Carries P image (x >>= f) (y >>= g) doomed' := by
  intro s b s' hs h safe
  obtain ⟨a, t, first, rest⟩ := bind_eq_ok.mp h
  by_cases ill : doomed a
  · exact absurd (fate a ill t b s' rest) safe
  · obtain ⟨ht, first⟩ := hx s a t hs first ill
    obtain ⟨hs', rest⟩ := hf a ill t b s' ht rest safe
    exact ⟨hs', (bind_of_ok first).trans rest⟩

theorem bind (hx : Carries P image x y) (hf : ∀ a, Carries P image (f a) (g a) doomed') :
    Carries P image (x >>= f) (y >>= g) doomed' :=
  hx.bind_doomed (fun a _ => hf a) fun _ ill => ill.elim

theorem of_agree (h : ∀ s, P s → ∃ x' y', Carries P image x' y' doomed ∧ x s = x' s ∧
    y (image s) = y' (image s)) : Carries P image x y doomed := by
  intro s a s' hs run safe
  obtain ⟨x', y', carries, hx, hy⟩ := h s hs
  rw [hx] at run
  rw [hy]
  exact carries s a s' hs run safe

end Carries

def final : EStateM.Result ε σ α → σ
  | .ok _ s => s
  | .error _ s => s

def answer? : EStateM.Result ε σ α → Option α
  | .ok a _ => some a
  | .error _ _ => none

theorem answer?_eq_some {result : EStateM.Result ε σ α} {a : α} (h : answer? result = some a) :
    ∃ s, result = .ok a s := by
  cases result with
  | ok b s =>
      cases h
      exact ⟨s, rfl⟩
  | error e s => cases h

def error? : EStateM.Result ε σ α → Option ε
  | .ok _ _ => none
  | .error e _ => some e

theorem error?_eq_some {result : EStateM.Result ε σ α} {e : ε} (h : error? result = some e) :
    ∃ s, result = .error e s := by
  cases result with
  | ok a s => cases h
  | error e' s =>
      cases h
      exact ⟨s, rfl⟩

def success? : EStateM.Result ε σ α → Option (α × σ)
  | .ok a s => some (a, s)
  | .error _ _ => none

theorem success?_eq_some_iff {result : EStateM.Result ε σ α} {a : α} {s : σ} :
    success? result = some (a, s) ↔ result = .ok a s := by
  cases result with
  | ok b t => simp [success?]
  | error e t => simp [success?]

theorem success?_bind (x : EStateM ε σ α) (f : α → EStateM ε σ β) (s : σ) :
    success? ((x >>= f) s) = (success? (x s)).bind fun p => success? (f p.1 p.2) := by
  cases h : x s with
  | ok a t =>
      rw [bind_of_ok h]
      rfl
  | error e t =>
      rw [bind_of_error h]
      rfl

variable {ι : Type}

/-- An outcome and some others that go the same way: the same answer in states related by `Q`, the
same error in states related by `E`, or an error of the first that excuses the others, one of which
has reached a state of interest. -/
inductive Tie (Q : α → σ → (ι → σ) → Prop) (E : ε → σ → (ι → σ) → Prop) (escapes : ε → Prop)
    (reached : σ → Prop) : EStateM.Result ε σ α → (ι → EStateM.Result ε σ α) → Prop where
  | ok {a : α} {s : σ} {S : ι → σ} :
      Q a s S → Tie Q E escapes reached (.ok a s) fun i => .ok a (S i)
  | error {e : ε} {s : σ} {S : ι → σ} :
      E e s S → Tie Q E escapes reached (.error e s) fun i => .error e (S i)
  | escape {e : ε} {s : σ} {R : ι → EStateM.Result ε σ α} (i : ι) :
      escapes e → reached (final (R i)) → Tie Q E escapes reached (.error e s) R

/-- The runs of an operation from states related by `P` go the same way, and no run leaves the
states of interest. -/
structure Coupled (P : σ → (ι → σ) → Prop) (x : EStateM ε σ α) (Q : α → σ → (ι → σ) → Prop)
    (E : ε → σ → (ι → σ) → Prop) (escapes : ε → Prop) (reached : σ → Prop) : Prop where
  tie : ∀ s S, P s S → Tie Q E escapes reached (x s) fun i => x (S i)
  keeps : ∀ s, reached s → reached (final (x s))

namespace Coupled

variable {P P' : σ → (ι → σ) → Prop} {Q Q' : α → σ → (ι → σ) → Prop} {R : β → σ → (ι → σ) → Prop}
variable {E : ε → σ → (ι → σ) → Prop} {escapes : ε → Prop} {reached : σ → Prop}
variable {x : EStateM ε σ α} {f : α → EStateM ε σ β}

theorem pure {a : α} (h : ∀ s S, P s S → Q a s S) :
    Coupled P (Pure.pure a : EStateM ε σ α) Q E escapes reached where
  tie s S hs := .ok (h s S hs)
  keeps _ h := h

theorem bind (hx : Coupled P x Q E escapes reached)
    (hf : ∀ a, Coupled (Q a) (f a) R E escapes reached) :
    Coupled P (x >>= f) R E escapes reached where
  tie s S hs := by
    have tie := hx.tie s S hs
    generalize h : x s = result at tie
    generalize h' : (fun i => x (S i)) = results at tie
    cases tie with
    | @ok a t T hQ =>
        rw [bind_of_ok h, funext fun i => bind_of_ok (congrFun h' i)]
        exact (hf a).tie t T hQ
    | error hE =>
        rw [bind_of_error h, funext fun i => bind_of_error (congrFun h' i)]
        exact .error hE
    | escape i he hr =>
        rw [bind_of_error h]
        refine .escape i he ?_
        have hi : x (S i) = results i := congrFun h' i
        cases hxi : results i with
        | ok a t =>
            rw [bind_of_ok (hi.trans hxi)]
            rw [hxi] at hr
            exact (hf a).keeps t hr
        | error e t =>
            rw [bind_of_error (hi.trans hxi)]
            rwa [hxi] at hr
  keeps s hs := by
    have hr := hx.keeps s hs
    cases h : x s with
    | ok a t =>
        rw [bind_of_ok h]
        rw [h] at hr
        exact (hf a).keeps t hr
    | error e t =>
        rw [bind_of_error h]
        rwa [h] at hr

theorem weaken (hx : Coupled P x Q E escapes reached) (hP : ∀ s S, P' s S → P s S)
    (hQ : ∀ a s S, Q a s S → Q' a s S) : Coupled P' x Q' E escapes reached where
  tie s S hs := by
    have tie := hx.tie s S (hP s S hs)
    generalize x s = result at tie ⊢
    generalize (fun i => x (S i)) = results at tie ⊢
    cases tie with
    | ok h => exact .ok (hQ _ _ _ h)
    | error h => exact .error h
    | escape i he hr => exact .escape i he hr
  keeps := hx.keeps

theorem of_agree
    (hx : ∀ s S, P s S → ∃ y, Coupled P y Q E escapes reached ∧ x s = y s ∧ ∀ i, x (S i) = y (S i))
    (hk : ∀ s, ∃ y, Coupled P y Q E escapes reached ∧ x s = y s) :
    Coupled P x Q E escapes reached where
  tie s S hs := by
    obtain ⟨y, hy, h, h'⟩ := hx s S hs
    rw [h, funext h']
    exact hy.tie s S hs
  keeps s hs := by
    obtain ⟨y, hy, h⟩ := hk s
    rw [h]
    exact hy.keeps s hs

end Coupled

end TypedJson.Operation
