import TypedJson.Proofs.Lexing.Coupled

set_option autoImplicit false
set_option relaxedAutoImplicit false

namespace TypedJson

open Operation

theorem Cursor.ahead_advance {c : Cursor} (h : c.unread ≠ []) : c.advance.ahead + 1 = c.ahead := by
  obtain ⟨unread, source, drained, mark⟩ := c
  cases unread with
  | nil => exact absurd rfl h
  | cons b bs =>
      simp only [Cursor.advance, Cursor.ahead, List.length_cons]
      omega

namespace Scanner

variable {ε σ α : Type} (m : Scanner ε σ α)

theorem length_of_pass {s : σ} {k k' : Mark} {bs rest : List UInt8} {r : Except ε α}
    (h : m.pass s k bs = .stopped r k' rest) : rest.length ≤ bs.length := by
  induction bs generalizing s k with
  | nil => cases h
  | cons b bs ih =>
      simp only [pass] at h
      simp only [List.length_cons]
      split at h
      · exact Nat.le_succ_of_le (ih h)
      · cases h
        omega
      · cases h
        simp

theorem ahead_passReplies (fault : DataFault → ε) (e : Ending) (replies : List Delivery) (s : σ)
    (k : Mark) : (m.passReplies fault e replies s k).2.ahead ≤ Delivery.total replies := by
  induction replies generalizing s k with
  | nil => cases e <;> simp [passReplies, Cursor.ahead, Source.ahead]
  | cons d replies ih =>
      cases d with
      | interrupted => simpa [passReplies, Delivery.total, Delivery.bytes] using ih s k
      | endOfData => simp [passReplies, Cursor.ahead, Source.ahead, Delivery.total]
      | failed text => simp [passReplies, Cursor.ahead, Source.ahead, Delivery.total]
      | data b more =>
          simp only [passReplies, Delivery.total, Delivery.bytes]
          split
          · rename_i hp
            have := m.length_of_pass hp
            simp only [Cursor.ahead, Source.ahead]
            omega
          · exact Nat.le_trans (ih _ _) (Nat.le_add_left _ _)

theorem ahead_scan (fault : DataFault → ε) (s : σ) (c : Cursor) :
    (m.scan fault s c).2.ahead ≤ c.ahead := by
  simp only [scan]
  split
  · rename_i hp
    have := m.length_of_pass hp
    simp only [Cursor.ahead]
    omega
  · split
    · simp [Cursor.ahead]
    · exact Nat.le_trans (m.ahead_passReplies fault _ _ _ _) (Nat.le_add_left _ _)

theorem scan_of_shift (fault : DataFault → ε) {s s' : σ} {c : Cursor} {b : UInt8} {u : List UInt8}
    (hu : c.unread = b :: u) (hm : m.move s b = .shift s') :
    m.scan fault s c = m.scan fault s' c.advance := by
  obtain ⟨unread, source, drained, mark⟩ := c
  obtain rfl : unread = b :: u := hu
  simp only [scan, pass, hm]
  rfl

end Scanner

namespace LexM

theorem ensures_scan {σ α : Type} (m : Scanner LexFault σ α) (s : σ) (n : Nat) :
    Ensures (fun c => c.ahead ≤ n) (scan m s) fun _ c => c.ahead ≤ n := by
  intro c a c' hc h
  have le := m.ahead_scan .data s c
  simp only [scan] at h
  split at h
  · rename_i hs
    cases h
    rw [hs] at le
    exact Nat.le_trans le hc
  · cases h

theorem ensures_fail {α : Type} {P : Cursor → Prop} {Q : α → Cursor → Prop} (fault : SyntaxFault) :
    Ensures P (fail fault) Q :=
  Ensures.throw

theorem ensures_skipBlank (lenient : Bool) (n : Nat) :
    Ensures (fun c => c.ahead ≤ n) (skipBlank lenient)
      fun a c => c.ahead ≤ n ∧ ∀ b, a = some b → ∃ u, c.unread = b :: u := by
  intro c a c' hc h
  refine ⟨ensures_scan _ _ n c a c' hc h, fun b hb => ?_⟩
  subst hb
  exact unread_of_skipBlank h

theorem ensures_skipBlankToByte (lenient : Bool) (n : Nat) :
    Ensures (fun c => c.ahead ≤ n) (skipBlankToByte lenient)
      fun b c => c.ahead ≤ n ∧ ∃ u, c.unread = b :: u := by
  refine Ensures.bind (ensures_skipBlank lenient n) fun a => ?_
  cases a with
  | none => exact ensures_fail _
  | some b => exact Ensures.pure fun c hc => ⟨hc.1, hc.2 b rfl⟩

theorem ensures_advance (b : UInt8) (n : Nat) :
    Ensures (fun c => c.ahead ≤ n ∧ ∃ u, c.unread = b :: u) advance
      fun _ c => c.ahead < n := by
  refine Ensures.modify fun c hc => ?_
  obtain ⟨hc, u, hu⟩ := hc
  have := Cursor.ahead_advance (c := c) (by simp [hu])
  omega

theorem ensures_advance_then {α : Type} {x : LexM α} {b : UInt8} {n : Nat}
    (hx : ∀ m, Ensures (fun c => c.ahead ≤ m) x fun _ c => c.ahead ≤ m) :
    Ensures (fun c => c.ahead ≤ n ∧ ∃ u, c.unread = b :: u) (do advance; x)
      fun _ c => c.ahead < n := by
  refine Ensures.bind (ensures_advance b n) fun _ => ?_
  intro c a c' hc h
  exact Nat.lt_of_le_of_lt (hx c.ahead c a c' (Nat.le_refl _) h) hc

theorem ensures_bare {b : UInt8} (hb : Ascii.isLiteral b = true) (n : Nat) :
    Ensures (fun c => c.ahead ≤ n ∧ ∃ u, c.unread = b :: u) bare fun _ c => c.ahead < n := by
  rintro c a c' ⟨hc, u, hu⟩ h
  have taken : (∃ s, Bare.move {} b = .shift s) ∨
      Bare.move {} b = .halt (.error (.data .malformedText)) := by
    simp only [Bare.move, hb, not_true_eq_false, if_false, Lexing.openCharacter]
    split
    · exact .inl ⟨_, rfl⟩
    · split
      · exact .inl ⟨_, rfl⟩
      · exact .inr rfl
  simp only [bare, scan] at h
  rcases taken with ⟨s, hs⟩ | hs
  · rw [Bare.scanner.scan_of_shift .data (s := {}) hu hs] at h
    have le := ensures_scan Bare.scanner s c.advance.ahead c.advance a c' (Nat.le_refl _) h
    have := Cursor.ahead_advance (c := c) (by simp [hu])
    omega
  · obtain ⟨unread, source, drained, mark⟩ := c
    obtain rfl : unread = b :: u := hu
    simp only [Scanner.scan, Scanner.pass, Bare.scanner, hs] at h
    cases h

theorem ensures_value (lenient : Bool) (b : UInt8) (n : Nat) :
    Ensures (fun c => c.ahead ≤ n ∧ ∃ u, c.unread = b :: u) (value lenient b)
      fun _ c => c.ahead < n := by
  have answer (l : Lexeme) (m : Nat) :
      Ensures (fun c => c.ahead ≤ m) (pure l : LexM Lexeme) fun _ c => c.ahead ≤ m :=
    Ensures.pure fun _ h => h
  unfold value
  repeat' split
  · exact ensures_advance_then (answer _)
  · exact ensures_advance_then (answer _)
  · exact ensures_advance_then fun m => Ensures.bind (ensures_scan _ _ m) fun _ => answer _ m
  · exact ensures_fail _
  · exact ensures_fail _
  · exact ensures_fail _
  · rename_i hb
    refine Ensures.bind (ensures_bare hb n) fun s => ?_
    cases Lexing.classify lenient s with
    | ok l => exact Ensures.pure fun _ h => h
    | error fault => exact ensures_fail _
  · exact ensures_fail _

theorem ensures_name (lenient : Bool) (b : UInt8) (n : Nat) :
    Ensures (fun c => c.ahead ≤ n ∧ ∃ u, c.unread = b :: u) (name lenient b)
      fun _ c => c.ahead < n := by
  have answer (l : Lexeme) (m : Nat) :
      Ensures (fun c => c.ahead ≤ m) (pure l : LexM Lexeme) fun _ c => c.ahead ≤ m :=
    Ensures.pure fun _ h => h
  unfold name
  repeat' split
  · exact ensures_advance_then fun m => Ensures.bind (ensures_scan _ _ m) fun _ => answer _ m
  · rename_i hb
    exact Ensures.bind (ensures_bare hb.2 n) fun _ => Ensures.pure fun _ h => h
  · exact ensures_fail _

end LexM

end TypedJson
