import TypedJson.Proofs.Input.Coupling

set_option autoImplicit false
set_option relaxedAutoImplicit false

namespace TypedJson

open Operation

theorem Blank.honest (lenient : Bool) : (Blank.scanner lenient).Honest where
  move p b := by
    cases p <;> simp only [Blank.scanner, Blank.move] <;> repeat' split
    all_goals trivial
  atEnd p := by
    cases p <;> trivial
  takes p := by
    cases p with
    | between => exact .inl trivial
    | slash => exact .inl trivial
    | line => exact .inl trivial
    | block star => cases star <;> exact .inl trivial

private theorem Lexing.honest_openCharacter {σ α : Type} (next : Incomplete → σ) (b : UInt8) :
    (openCharacter next b : Move LexFault σ α).Honest := by
  unfold openCharacter
  split <;> trivial

private theorem Lexing.takes_continueCharacter {σ α : Type} (next : Incomplete → σ)
    (complete : Char → σ) (p : Incomplete) (b : UInt8) :
    (continueCharacter next complete p b : Move LexFault σ α).Takes := by
  simp only [continueCharacter]
  split
  · trivial
  · split <;> trivial

private theorem Lexing.honest_continueCharacter {σ α : Type} (next : Incomplete → σ)
    (complete : Char → σ) (p : Incomplete) (b : UInt8) :
    (continueCharacter next complete p b : Move LexFault σ α).Honest := by
  simp only [continueCharacter]
  split
  · trivial
  · split <;> trivial

theorem Bare.honest : Bare.scanner.Honest where
  move s b := by
    simp only [Bare.scanner, Bare.move]
    split
    · split
      · trivial
      · split
        · trivial
        · exact Lexing.honest_openCharacter _ b
    · exact Lexing.honest_continueCharacter _ _ _ b
  atEnd s := by
    simp only [Bare.scanner, Bare.atEnd]
    split <;> trivial
  takes s := by
    simp only [Bare.scanner, Bare.move]
    split
    · exact .inr trivial
    · exact .inr (Lexing.takes_continueCharacter _ _ _ _)

theorem Quoted.honest (rules : Rules) : (Quoted.scanner rules).Honest where
  move s b := by
    simp only [Quoted.scanner, Quoted.move, Quoted.plainMove, Quoted.unitMove, Quoted.partnerMove]
    split
    · repeat' split
      all_goals first | trivial | exact Lexing.honest_openCharacter _ b
    case h_7 => exact Lexing.honest_continueCharacter _ _ _ b
    all_goals repeat' split
    all_goals trivial
  atEnd s := by
    simp only [Quoted.scanner, Quoted.atEnd]
    split <;> trivial
  takes s := by
    right
    simp only [Quoted.scanner, Quoted.move, Quoted.plainMove, Quoted.unitMove, Quoted.partnerMove]
    split
    case h_7 => exact Lexing.takes_continueCharacter _ _ _ _
    all_goals repeat' split
    all_goals trivial

namespace LexM

variable {ι : Type} {C : Cursor → (ι → Cursor) → Prop} {escapes plain : LexFault → Prop}
variable {beyond : Cursor → Prop}

/-- A lexing operation goes the same way on cursors related by `P`; a fault leaves them coupled. -/
abbrev Lockstep (C : Cursor → (ι → Cursor) → Prop) (escapes plain : LexFault → Prop)
    (beyond : Cursor → Prop) {α : Type} (P : Cursor → (ι → Cursor) → Prop) (x : LexM α)
    (Q : α → Cursor → (ι → Cursor) → Prop) : Prop :=
  Coupled P x Q (fun f c S => C c S ∧ plain f) escapes beyond

variable (K : Coupling C escapes plain beyond)
include K

theorem lockstep_fail {α : Type} (fault : SyntaxFault) (Q : α → Cursor → (ι → Cursor) → Prop) :
    Lockstep C escapes plain beyond C (fail fault) Q where
  tie _ _ h := .error ⟨h, K.intrinsic trivial⟩
  keeps _ h := h

theorem lockstep_advance : Lockstep C escapes plain beyond (Facing C) advance (fun _ => C) where
  tie _ _ h := .ok (K.advance h)
  keeps _ h := K.keeps h

theorem lockstep_quoted (rules : Quoted.Rules) :
    Lockstep C escapes plain beyond C (quoted rules) (fun _ => C) :=
  K.scan (Quoted.honest rules) {}

theorem lockstep_bare : Lockstep C escapes plain beyond C bare (fun _ => C) :=
  K.scan Bare.honest {}

omit K in
theorem unread_of_skipBlank {lenient : Bool} {b : UInt8} {c c' : Cursor}
    (h : skipBlank lenient c = .ok (some b) c') : ∃ u, c'.unread = b :: u := by
  have key : ((Blank.scanner lenient).scan .data .between c) = (.ok (some b), c') := by
    simp only [skipBlank, LexM.scan] at h
    split at h
    · rename_i a t hs
      cases h
      exact hs
    · cases h
  refine (Blank.scanner lenient).unread_of_scan
    (P := fun a rest => ∀ b, a = some b → ∃ u, rest = b :: u) ?_ ?_ ?_ key b rfl
  · intro p b a bs hm
    cases p <;> simp only [Blank.scanner, Blank.move] at hm <;> (repeat' split at hm) <;> cases hm
  · intro p b a bs hm
    cases p <;> simp only [Blank.scanner, Blank.move] at hm <;> (repeat' split at hm) <;> cases hm
    rintro _ ⟨⟩
    exact ⟨bs, rfl⟩
  · intro p a he b ha
    subst ha
    cases p <;> cases he

theorem lockstep_skipBlank (lenient : Bool) :
    Lockstep C escapes plain beyond C (skipBlank lenient)
      (fun a c S => C c S ∧ (a.isSome → c.unread ≠ [] ∧ ∀ i, (S i).unread ≠ [])) where
  tie c S hc := by
    have tie := (K.scan (Blank.honest lenient) .between).tie c S hc
    change Tie _ _ _ _ (skipBlank lenient c) (fun i => skipBlank lenient (S i)) at tie
    generalize h : skipBlank lenient c = result at tie ⊢
    generalize h' : (fun i => skipBlank lenient (S i)) = results at tie ⊢
    cases tie with
    | @ok a t T hC =>
        refine .ok ⟨hC, fun ha => ?_⟩
        obtain ⟨b, rfl⟩ := Option.isSome_iff_exists.mp ha
        obtain ⟨u, hu⟩ := unread_of_skipBlank h
        refine ⟨by simp [hu], fun i => ?_⟩
        obtain ⟨u', hu'⟩ := unread_of_skipBlank (congrFun h' i)
        simp [hu']
    | error hE => exact .error hE
    | escape i he hr => exact .escape i he hr
  keeps := (K.scan (Blank.honest lenient) .between).keeps

theorem lockstep_skipBlankToByte (lenient : Bool) :
    Lockstep C escapes plain beyond C (skipBlankToByte lenient) (fun _ => Facing C) := by
  refine Coupled.bind (lockstep_skipBlank K lenient) fun a => ?_
  cases a with
  | none => exact (lockstep_fail K _ _).weaken (fun _ _ h => h.1) fun _ _ _ h => h
  | some b => exact Coupled.pure fun _ _ h => ⟨h.1, h.2 rfl⟩

theorem lockstep_bareValue (lenient : Bool) :
    Lockstep C escapes plain beyond C (bareValue lenient) (fun _ => C) := by
  refine Coupled.bind (lockstep_bare K) fun s => ?_
  cases Lexing.classify lenient s with
  | ok l => exact Coupled.pure fun _ _ h => h
  | error fault => exact lockstep_fail K fault _

theorem lockstep_advance_then {α : Type} {x : LexM α} {Q : α → Cursor → (ι → Cursor) → Prop}
    (hx : Lockstep C escapes plain beyond C x Q) :
    Lockstep C escapes plain beyond (Facing C) (do advance; x) Q :=
  Coupled.bind (lockstep_advance K) fun _ => hx

theorem lockstep_value (lenient : Bool) (b : UInt8) :
    Lockstep C escapes plain beyond (Facing C) (value lenient b) (fun _ => C) := by
  have answer (l : Lexeme) : Lockstep C escapes plain beyond C (pure l) (fun _ => C) :=
    Coupled.pure fun _ _ h => h
  have failing (fault : SyntaxFault) :
      Lockstep C escapes plain beyond (Facing C) (fail fault : LexM Lexeme) (fun _ => C) :=
    (lockstep_fail K fault _).weaken (fun _ _ h => h.1) fun _ _ _ h => h
  unfold value
  repeat' split
  · exact lockstep_advance_then K (answer _)
  · exact lockstep_advance_then K (answer _)
  · exact lockstep_advance_then K (Coupled.bind (lockstep_quoted K _) fun _ => answer _)
  · exact failing _
  · exact failing _
  · exact failing _
  · exact (lockstep_bareValue K lenient).weaken (fun _ _ h => h.1) fun _ _ _ h => h
  · exact failing _

theorem lockstep_name (lenient : Bool) (b : UInt8) :
    Lockstep C escapes plain beyond (Facing C) (name lenient b) (fun _ => C) := by
  have answer (l : Lexeme) : Lockstep C escapes plain beyond C (pure l) (fun _ => C) :=
    Coupled.pure fun _ _ h => h
  unfold name
  repeat' split
  · exact lockstep_advance_then K (Coupled.bind (lockstep_quoted K _) fun _ => answer _)
  · exact (Coupled.bind (lockstep_bare K) fun _ => answer _).weaken (fun _ _ h => h.1)
      fun _ _ _ h => h
  · exact (lockstep_fail K _ _).weaken (fun _ _ h => h.1) fun _ _ _ h => h

end LexM

end TypedJson
