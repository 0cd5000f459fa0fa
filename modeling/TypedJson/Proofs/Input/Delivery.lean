import TypedJson.Proofs.Input.Coupling

set_option autoImplicit false
set_option relaxedAutoImplicit false

namespace TypedJson

open Operation

theorem Mark.bytes_advance (k : Mark) (b : UInt8) : (k.advance b).bytes = k.bytes + 1 := by
  unfold Mark.advance
  repeat' split
  all_goals rfl

namespace Scanner

variable {ε σ α : Type} (m : Scanner ε σ α)

theorem bytes_of_pass (fault : DataFault → ε) (e : Ending) (s : σ) (k : Mark) (bs : List UInt8) :
    (m.conclude fault e (m.pass s k bs)).2.1.bytes +
      (m.conclude fault e (m.pass s k bs)).2.2.length = k.bytes + bs.length := by
  induction bs generalizing s k with
  | nil => cases e <;> rfl
  | cons b bs ih =>
      simp only [pass]
      cases m.move s b with
      | shift s' =>
          simp only [ih, Mark.bytes_advance, List.length_cons]
          omega
      | finish r =>
          simp only [conclude, Mark.bytes_advance, List.length_cons]
          omega
      | halt r => rfl

theorem bytes_le_pass (s : σ) (k : Mark) (bs : List UInt8) :
    match m.pass s k bs with
    | .stopped _ k' _ | .passed _ k' => k.bytes ≤ k'.bytes := by
  induction bs generalizing s k with
  | nil => exact Nat.le_refl _
  | cons b bs ih =>
      simp only [pass]
      cases m.move s b with
      | shift s' =>
          have le := ih s' (k.advance b)
          have := k.bytes_advance b
          dsimp only
          cases h : m.pass s' (k.advance b) bs <;> simp only [h] at le ⊢ <;> omega
      | finish r =>
          have := k.bytes_advance b
          dsimp only
          omega
      | halt r => exact Nat.le_refl _

theorem bytes_le_passReplies (fault : DataFault → ε) (e : Ending) (replies : List Delivery) (s : σ)
    (k : Mark) : k.bytes ≤ (m.passReplies fault e replies s k).2.mark.bytes := by
  induction replies generalizing s k with
  | nil => cases e <;> exact Nat.le_refl _
  | cons d replies ih =>
      cases d with
      | interrupted => exact ih s k
      | endOfData => exact Nat.le_refl _
      | failed text => exact Nat.le_refl _
      | data b more =>
          have le := m.bytes_le_pass s k (b :: more)
          simp only [passReplies]
          cases h : m.pass s k (b :: more) with
          | stopped r k' u => simpa only [h] using le
          | passed s' k' => exact Nat.le_trans (by simpa only [h] using le) (ih s' k')

theorem bytes_le_scan (fault : DataFault → ε) (s : σ) (c : Cursor) :
    c.mark.bytes ≤ (m.scan fault s c).2.mark.bytes := by
  have le := m.bytes_le_pass s c.mark c.unread
  simp only [scan]
  cases h : m.pass s c.mark c.unread with
  | stopped r k u => simpa only [h] using le
  | passed s' k =>
      simp only [h] at le
      dsimp only
      split
      · exact le
      · exact Nat.le_trans le (m.bytes_le_passReplies fault _ _ _ _)

end Scanner

namespace LexM

def result {α : Type} : Except LexFault α → Cursor → EStateM.Result LexFault Cursor α
  | .ok a, c => .ok a c
  | .error f, c => .error f c

theorem scan_eq_result {σ α : Type} (m : Scanner LexFault σ α) (s : σ) (c : Cursor) :
    scan m s c = result (m.scan .data s c).1 (m.scan .data s c).2 := by
  simp only [scan]
  split <;> simp_all [result]

theorem final_result {α : Type} (r : Except LexFault α) (c : Cursor) : final (result r c) = c := by
  cases r <;> rfl

end LexM

/-- The others hold what the cursor holds and then more, at the same place; the bytes in front of
the cursor end with the first `total` bytes of the document. -/
def Continued {ι : Type} (total : Nat) (e : Ending) (more : ι → List UInt8) (e' : ι → Ending)
    (c : Cursor) (S : ι → Cursor) : Prop :=
  ∃ bs, c.Holds bs e ∧ c.mark.bytes + bs.length = total ∧
    ∀ i, (S i).Holds (bs ++ more i) (e' i) ∧ (S i).mark = c.mark

namespace Continued

variable {ι : Type} {total : Nat} {e : Ending} {more : ι → List UInt8} {e' : ι → Ending}
variable {c : Cursor} {S : ι → Cursor}

theorem mark (h : Continued total e more e' c S) (i : ι) : (S i).mark = c.mark := by
  obtain ⟨bs, -, -, hS⟩ := h
  exact (hS i).2

theorem advance (h : Facing (Continued total e more e') c S) :
    Continued total e more e' c.advance fun i => (S i).advance := by
  obtain ⟨⟨bs, hc, hn, hS⟩, hu, hU⟩ := h
  obtain ⟨b, bs, rfl, hc', hk⟩ := hc.advance hu
  refine ⟨bs, hc', ?_, fun i => ?_⟩
  · rw [hk, Mark.bytes_advance, ← hn, List.length_cons]
    omega
  · obtain ⟨b', bs', hb, hi, hki⟩ := (hS i).1.advance (hU i)
    cases hb
    exact ⟨hi, by rw [hki, hk, (hS i).2]⟩

/-- Either a scan stops within the common bytes, or it comes to their end, and only then matters
what is held behind it. -/
theorem scan {σ α : Type} {m : Scanner LexFault σ α} (hm : m.Honest) (s : σ)
    (h : Continued total e more e' c S) :
    (∃ r c' T, Continued total e more e' c' T ∧ LexM.scan m s c = LexM.result r c' ∧
        (∀ i, LexM.scan m s (S i) = LexM.result r (T i)) ∧ ∀ f, r = .error f → f.Intrinsic) ∨
      ∃ s' k, k.bytes = total ∧
        (∃ c', LexM.scan m s c = LexM.result (m.conclude .data e (.passed s' k)).1 c' ∧
          c'.Holds [] e ∧ c'.mark = k) ∧
        ∀ i, ∃ c', LexM.scan m s (S i) =
            LexM.result (m.conclude .data (e' i) (m.pass s' k (more i))).1 c' ∧
          c'.Holds (m.conclude .data (e' i) (m.pass s' k (more i))).2.2 (e' i) ∧
          c'.mark = (m.conclude .data (e' i) (m.pass s' k (more i))).2.1 := by
  obtain ⟨bs, hc, hn, hS⟩ := h
  have count := m.bytes_of_pass .data e s c.mark bs
  obtain ⟨c', hx, hk, hc'⟩ := m.scan_of_holds .data hc s
  have hT (i : ι) := m.scan_of_holds .data (hS i).1 s
  simp only [(hS _).2, m.pass_append] at hT
  simp only [LexM.scan_eq_result, hx]
  cases hp : m.pass s c.mark bs with
  | stopped r k rest =>
      left
      simp only [hp, Scanner.conclude] at count hk hc' hT ⊢
      refine ⟨r, c', fun i => (m.scan .data s (S i)).2, ⟨rest, hc', ?_, fun i => ?_⟩, rfl,
        fun i => ?_, ?_⟩
      · rw [hk, count, hn]
      · obtain ⟨t, ht, hkt, hht⟩ := hT i
        simp only [ht]
        exact ⟨hht, by rw [hkt, hk]⟩
      · obtain ⟨t, ht, -⟩ := hT i
        simp only [ht]
      · rintro f rfl
        have blame : (m.conclude .data .endOfData (m.pass s c.mark bs)).1 = .error f := by
          rw [hp]
          rfl
        obtain hi | ⟨_, he, _⟩ := hm.conclude blame
        · exact hi
        · cases he
  | passed s' k =>
      right
      simp only [hp] at count hk hc' hT ⊢
      have hk' : (m.conclude .data e (.passed s' k)).2 = (k, []) := by cases e <;> rfl
      rw [hk'] at count hk hc'
      refine ⟨s', k, by simpa [hn] using count, ⟨c', rfl, hc', hk⟩, fun i => ?_⟩
      obtain ⟨t, ht, hkt, hht⟩ := hT i
      exact ⟨t, by rw [ht], hht, hkt⟩

end Continued

theorem coupling_same (total : Nat) (e : Ending) :
    Coupling (Continued total e (fun _ : Unit => []) fun _ => e) (fun _ => False)
      (fun f => ∀ text, f = .data (.device text) → e = .failed text) (fun _ => True) where
  mark h i := h.mark i
  bounded {c S} _ := ⟨(S ()).ahead, fun _ => Nat.le_refl _⟩
  advance h := Continued.advance h
  keeps h := h
  scan := by
    intro σ α m hm s
    refine ⟨fun c S h => ?_, fun _ h => h⟩
    obtain ⟨r, c', T, hT, hx, hX, hr⟩ | ⟨s', k, hk, ⟨c', hx, hc', hkc⟩, hX⟩ := h.scan hm s
    · rw [hx, funext hX]
      cases r with
      | ok a => exact .ok hT
      | error f =>
          refine .error ⟨hT, ?_⟩
          rintro text rfl
          exact absurd (hr _ rfl) id
    · obtain ⟨t, ht, hht, hkt⟩ := hX ()
      have hk' : (m.conclude .data e (.passed s' k)).2 = (k, []) := by cases e <;> rfl
      simp only [Scanner.pass, hk'] at ht hht hkt
      have same : Continued total e (fun _ : Unit => []) (fun _ => e) c' fun _ => t :=
        ⟨[], hc', by simp [hkc, hk], fun _ => ⟨hht, by rw [hkt, hkc]⟩⟩
      rw [hx, show (fun i => LexM.scan m s (S i)) = fun _ => _ from funext fun _ => ht]
      cases h : (m.conclude .data e (.passed s' k)).1 with
      | ok a => exact .ok same
      | error f =>
          refine .error ⟨same, ?_⟩
          rintro text rfl
          have blame : (m.conclude .data e (m.pass s' k [])).1 = .error (.data (.device text)) := h
          obtain hi | ⟨_, he, hf⟩ := hm.conclude blame
          · exact absurd hi id
          · cases hf
            exact he
  intrinsic := by
    rintro f hf text rfl
    exact absurd hf id

/-- A failure excuses what the others do, if in every state of a scanner one of them gets beyond
it. -/
theorem coupling_cut {ι : Type} {total : Nat} {text : String} {more : ι → List UInt8}
    {e : ι → Ending} {beyond : Cursor → Prop}
    (bounded : ∀ S : ι → Cursor, ∃ n, ∀ i, (S i).ahead ≤ n)
    (later : ∀ {c c' : Cursor}, c.mark.bytes ≤ c'.mark.bytes → beyond c → beyond c')
    (reach : ∀ {σ α : Type} {m : Scanner LexFault σ α}, m.Honest → ∀ (s : σ) (k : Mark),
      k.bytes = total → ∃ i, ∀ c : Cursor,
        c.mark = (m.conclude .data (e i) (m.pass s k (more i))).2.1 → beyond c) :
    Coupling (Continued total (.failed text) more e) (fun f => f = .data (.device text))
      LexFault.Intrinsic beyond where
  mark h i := h.mark i
  bounded {c S} _ := bounded S
  advance h := Continued.advance h
  keeps {c} h := by
    refine later ?_ h
    unfold Cursor.advance
    split
    · exact Nat.le_refl _
    · rw [Mark.bytes_advance]
      exact Nat.le_succ _
  scan := by
    intro σ α m hm s
    refine ⟨fun c S h => ?_, fun c h => ?_⟩
    · obtain ⟨r, c', T, hT, hx, hX, hr⟩ | ⟨s', k, hk, ⟨c', hx, -, -⟩, hX⟩ := h.scan hm s
      · rw [hx, funext hX]
        cases r with
        | ok a => exact .ok hT
        | error f => exact .error ⟨hT, hr f rfl⟩
      · rw [hx]
        obtain ⟨i, hi⟩ := reach hm s' k hk
        obtain ⟨t, ht, -, hkt⟩ := hX i
        refine .escape i rfl ?_
        rw [ht, LexM.final_result]
        exact hi t hkt
    · rw [LexM.scan_eq_result, LexM.final_result]
      exact later (m.bytes_le_scan .data s c) h
  intrinsic h := h

structure Cursor.Kept (P : Cursor → Prop) : Prop where
  advance : ∀ {c}, P c → P c.advance
  scan : ∀ {σ α : Type} (m : Scanner LexFault σ α) (s : σ) {c}, P c → P (m.scan .data s c).2

theorem coupling_kept {P : Cursor → Prop} (kept : Cursor.Kept P) :
    Coupling (fun c (S : Unit → Cursor) => P c ∧ ∀ i, S i = c) (fun _ => False)
      (fun _ => True) (fun _ => True) where
  mark h i := by rw [h.2 i]
  bounded {c S} _ := ⟨(S ()).ahead, fun _ => Nat.le_refl _⟩
  advance h := ⟨kept.advance h.1.1, fun i => congrArg Cursor.advance (h.1.2 i)⟩
  keeps h := h
  scan := by
    intro σ α m _ s
    refine ⟨fun c S h => ?_, fun _ h => h⟩
    obtain ⟨hc, hS⟩ := h
    obtain rfl : S = fun _ => c := funext hS
    have after := kept.scan m s hc
    simp only [LexM.scan_eq_result]
    generalize (m.scan .data s c).2 = c' at after
    cases (m.scan .data s c).1 with
    | ok a => exact .ok ⟨after, fun _ => rfl⟩
    | error f => exact .error ⟨⟨after, fun _ => rfl⟩, trivial⟩
  intrinsic _ := trivial

/-- Nothing behind an end of the data has been taken. -/
def Untaken (rest : List Delivery) (c : Cursor) : Prop :=
  (c.drained = false ∧ (.endOfData :: rest) <:+ c.source.replies) ∨
    (c.drained = true ∧ rest <:+ c.source.replies)

theorem Scanner.untaken_passReplies {ε σ α : Type} (m : Scanner ε σ α) (fault : DataFault → ε)
    (e : Ending) {rest replies : List Delivery} (h : (.endOfData :: rest) <:+ replies) (s : σ)
    (k : Mark) : Untaken rest (m.passReplies fault e replies s k).2 := by
  induction replies generalizing s k with
  | nil => cases List.suffix_nil.mp h
  | cons d replies ih =>
      cases d with
      | interrupted =>
          obtain h | h := List.suffix_cons_iff.mp h
          · cases h
          · exact ih h s k
      | endOfData =>
          refine .inr ⟨rfl, ?_⟩
          obtain h | h := List.suffix_cons_iff.mp h
          · cases h
            exact List.suffix_refl _
          · exact (List.suffix_cons _ _).trans h
      | failed text =>
          obtain h | h := List.suffix_cons_iff.mp h
          · cases h
          · exact .inl ⟨rfl, h⟩
      | data b more =>
          obtain h | h := List.suffix_cons_iff.mp h
          · cases h
          · simp only [passReplies]
            split
            · exact .inl ⟨rfl, h⟩
            · exact ih h _ _

theorem Untaken.advance {rest : List Delivery} {c : Cursor} (h : Untaken rest c) :
    Untaken rest c.advance := by
  unfold Cursor.advance
  split <;> exact h

theorem Scanner.untaken_scan {ε σ α : Type} (m : Scanner ε σ α) (fault : DataFault → ε)
    {rest : List Delivery} {c : Cursor} (h : Untaken rest c) (s : σ) :
    Untaken rest (m.scan fault s c).2 := by
  simp only [scan]
  split
  · exact h
  · split
    · exact h
    · rename_i hd
      obtain ⟨-, h⟩ | ⟨h, -⟩ := h
      · exact m.untaken_passReplies fault _ h _ _
      · exact absurd h hd

theorem kept_untaken (rest : List Delivery) : Cursor.Kept (Untaken rest) :=
  ⟨Untaken.advance, fun m s _ h => m.untaken_scan .data h s⟩

end TypedJson
