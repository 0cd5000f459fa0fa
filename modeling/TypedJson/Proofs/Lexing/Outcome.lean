import TypedJson.Lexing.Lexeme
import TypedJson.Proofs.Input.Stream
import TypedJson.Proofs.Operation
import TypedJson.Proofs.Text.Utf8

set_option autoImplicit false
set_option relaxedAutoImplicit false

namespace TypedJson

open Operation

namespace Scanner

variable {ε σ α : Type} (m : Scanner ε σ α)

def outcome : σ → List UInt8 → Except ε α × List UInt8
  | s, [] => (m.atEnd s, [])
  | s, b :: bs =>
      match m.move s b with
      | .shift s' => outcome s' bs
      | .finish r => (r, bs)
      | .halt r => (r, b :: bs)

variable {m}

theorem outcome_of_shift {s s' : σ} {b : UInt8} (h : m.move s b = .shift s') (bs : List UInt8) :
    m.outcome s (b :: bs) = m.outcome s' bs := by
  simp only [outcome, h]

theorem outcome_of_finish {s : σ} {b : UInt8} {r : Except ε α} (h : m.move s b = .finish r)
    (bs : List UInt8) : m.outcome s (b :: bs) = (r, bs) := by
  simp only [outcome, h]

theorem outcome_of_halt {s : σ} {b : UInt8} {r : Except ε α} (h : m.move s b = .halt r)
    (bs : List UInt8) : m.outcome s (b :: bs) = (r, b :: bs) := by
  simp only [outcome, h]

/-- What holds of the state and of the bytes in front of it goes on holding from move to move, and
tells `Q` of an answer and of the bytes left over. -/
structure Keeps (m : Scanner ε σ α) (P : σ → List UInt8 → Prop) (Q : α → List UInt8 → Prop) :
    Prop where
  shift : ∀ {s s' : σ} {b : UInt8} {bs : List UInt8},
    m.move s b = .shift s' → P s (b :: bs) → P s' bs
  finish : ∀ {s : σ} {b : UInt8} {a : α} {bs : List UInt8},
    m.move s b = .finish (.ok a) → P s (b :: bs) → Q a bs
  halt : ∀ {s : σ} {b : UInt8} {a : α} {bs : List UInt8},
    m.move s b = .halt (.ok a) → P s (b :: bs) → Q a (b :: bs)
  atEnd : ∀ {s : σ} {a : α}, m.atEnd s = .ok a → P s [] → Q a []

theorem Keeps.outcome {P : σ → List UInt8 → Prop} {Q : α → List UInt8 → Prop} (keeps : m.Keeps P Q)
    {s : σ} {bs rest : List UInt8} {a : α} (before : P s bs)
    (h : m.outcome s bs = (.ok a, rest)) : Q a rest := by
  induction bs generalizing s with
  | nil =>
      obtain ⟨ended, rfl⟩ := Prod.mk.inj h
      exact keeps.atEnd ended before
  | cons b bs ih =>
      cases move : m.move s b with
      | shift s' =>
          rw [outcome_of_shift move] at h
          exact ih (keeps.shift move before) h
      | finish r =>
          rw [outcome_of_finish move] at h
          cases h
          exact keeps.finish move before
      | halt r =>
          rw [outcome_of_halt move] at h
          cases h
          exact keeps.halt move before

theorem conclude_pass (fault : DataFault → ε) (s : σ) (k : Mark) (bs : List UInt8) :
    (m.conclude fault .endOfData (m.pass s k bs)).1 = (m.outcome s bs).1 ∧
      (m.conclude fault .endOfData (m.pass s k bs)).2.2 = (m.outcome s bs).2 := by
  induction bs generalizing s k with
  | nil => exact ⟨rfl, rfl⟩
  | cons b bs ih =>
      simp only [outcome, pass]
      cases m.move s b with
      | shift s' => exact ih s' (k.advance b)
      | finish r => exact ⟨rfl, rfl⟩
      | halt r => exact ⟨rfl, rfl⟩

end Scanner

namespace Cursor

def Over (c : Cursor) (bs : List UInt8) : Prop :=
  c.Holds bs .endOfData

def At (c : Cursor) (b : UInt8) (bs : List UInt8) : Prop :=
  c.Over (b :: bs) ∧ c.unread ≠ []

theorem Over.unique {c : Cursor} {bs bs' : List UInt8} (h : c.Over bs) (h' : c.Over bs') :
    bs = bs' :=
  (Holds.unique h h').1

theorem At.advance {c : Cursor} {b : UInt8} {bs : List UInt8} (h : c.At b bs) :
    c.advance.Over bs := by
  obtain ⟨b', bs', hb, held, -⟩ := Holds.advance h.1 h.2
  cases hb
  exact held

end Cursor

namespace LexM

variable {σ α : Type} {m : Scanner LexFault σ α} {s : σ} {bs rest : List UInt8} {a : α}

private theorem scan_of_over {c : Cursor} (h : c.Over bs) :
    ∃ c' : Cursor, c'.Over (m.outcome s bs).2 ∧
      scan m s c = match (m.outcome s bs).1 with
        | .ok a => .ok a c'
        | .error e => .error e c' := by
  obtain ⟨c', hs, -, held⟩ := m.scan_of_holds .data h s
  obtain ⟨answer, left⟩ := m.conclude_pass .data s c.mark bs
  rw [answer] at hs
  rw [left] at held
  refine ⟨c', held, ?_⟩
  simp only [scan, hs]
  cases (m.outcome s bs).1 <;> rfl

theorem attains_scan (h : m.outcome s bs = (.ok a, rest)) :
    Attains (fun c => c.Over bs) (scan m s) fun a' c => a' = a ∧ c.Over rest := by
  intro c hc
  obtain ⟨c', held, hx⟩ := scan_of_over (m := m) (s := s) hc
  rw [h] at held hx
  exact ⟨a, c', hx, rfl, held⟩

theorem ensures_scan_over :
    Ensures (fun c => c.Over bs) (scan m s) fun a c =>
      ∃ rest, m.outcome s bs = (.ok a, rest) ∧ c.Over rest := by
  intro c a c' hc h
  obtain ⟨c'', held, hx⟩ := scan_of_over (m := m) (s := s) hc
  rw [hx] at h
  cases hr : (m.outcome s bs).1 with
  | ok a' =>
      simp only [hr, EStateM.Result.ok.injEq] at h
      obtain ⟨rfl, rfl⟩ := h
      exact ⟨_, Prod.ext hr rfl, held⟩
  | error e => simp only [hr, reduceCtorEq] at h

theorem ensures_scan_keeps {P : σ → List UInt8 → Prop} {Q : α → List UInt8 → Prop}
    (keeps : m.Keeps P Q) :
    Ensures (fun c => ∃ bs, P s bs ∧ c.Over bs) (scan m s) fun a c =>
      ∃ rest, Q a rest ∧ c.Over rest := by
  intro c a c' before h
  obtain ⟨bs, begins, held⟩ := before
  obtain ⟨rest, outcome, behind⟩ := ensures_scan_over c a c' held h
  exact ⟨rest, keeps.outcome begins outcome, behind⟩

theorem attains_advance {b : UInt8} :
    Attains (fun c => c.At b bs) advance fun _ c => c.Over bs :=
  Attains.modify fun _ h => h.advance

theorem ensures_advance_over {b : UInt8} :
    Ensures (fun c => c.At b bs) advance fun _ c => c.Over bs :=
  Ensures.modify fun _ h => h.advance

end LexM

namespace Lexing

variable {σ α : Type} {m : Scanner LexFault σ α} {next : Incomplete → σ} {complete : Char → σ}

theorem outcome_character (hnext : ∀ p b, m.move (next p) b = continueCharacter next complete p b)
    {c : Char} (first : List UInt8) {more : List UInt8}
    (h : String.utf8EncodeChar c = first ++ more) (hm : more ≠ []) (bs : List UInt8) :
    m.outcome (next ⟨first, more.length⟩) (more ++ bs) = m.outcome (complete c) bs := by
  induction more generalizing first with
  | nil => exact absurd rfl hm
  | cons b more ih =>
      have assoc : first ++ b :: more = (first ++ [b]) ++ more := by simp
      cases more with
      | nil =>
          have hd : Utf8.decodeOne? (first ++ [b]) = some c := Utf8.decodeOne?_eq_some_iff.mpr h
          exact Scanner.outcome_of_shift (by simp [hnext, continueCharacter, hd]) bs
      | cons b' more =>
          rw [← ih (first ++ [b]) (assoc ▸ h) (by simp)]
          exact Scanner.outcome_of_shift (by simp [hnext, continueCharacter]) _

theorem character_of_outcome
    (hnext : ∀ p b, m.move (next p) b = continueCharacter next complete p b)
    (hend : ∀ p, ∃ e, m.atEnd (next p) = .error e) {first bs rest : List UInt8} {missing : Nat}
    {a : α} (h : m.outcome (next ⟨first, missing⟩) bs = (.ok a, rest)) :
    ∃ c more bs', bs = more ++ bs' ∧ String.utf8EncodeChar c = first ++ more ∧ more ≠ [] ∧
      m.outcome (complete c) bs' = (.ok a, rest) := by
  induction bs generalizing first missing with
  | nil =>
      obtain ⟨e, he⟩ := hend ⟨first, missing⟩
      simp only [Scanner.outcome, he] at h
      cases h
  | cons b bs ih =>
      simp only [Scanner.outcome, hnext, continueCharacter] at h
      by_cases hm : 1 < missing
      · simp only [hm, if_true] at h
        obtain ⟨c, more, bs', rfl, hc, -, ho⟩ := ih h
        exact ⟨c, b :: more, bs', rfl, by simpa using hc, by simp, ho⟩
      · simp only [hm, if_false] at h
        cases hd : Utf8.decodeOne? (first ++ [b]) with
        | none =>
            simp only [hd] at h
            cases h
        | some c =>
            simp only [hd] at h
            exact ⟨c, [b], bs, rfl, Utf8.decodeOne?_eq_some_iff.mp hd, by simp, h⟩

theorem outcome_openCharacter {s : σ}
    (hnext : ∀ p b, m.move (next p) b = continueCharacter next complete p b)
    (hopen : ∀ b : UInt8, 0x80 ≤ b.toNat → m.move s b = openCharacter next b) {c : Char}
    (hc : 0x80 ≤ c.toNat) (bs : List UInt8) :
    m.outcome s (String.utf8EncodeChar c ++ bs) = m.outcome (complete c) bs := by
  obtain ⟨b, more, he, hm, hb, hl⟩ := Utf8.encode_multibyte hc
  rw [he, List.cons_append, ← outcome_character hnext [b] he hm bs]
  exact Scanner.outcome_of_shift (by simp [hopen b hb, openCharacter, hl]) _

theorem openCharacter_of_outcome {s : σ} {b : UInt8} {bs rest : List UInt8} {a : α}
    (hnext : ∀ p b, m.move (next p) b = continueCharacter next complete p b)
    (hend : ∀ p, ∃ e, m.atEnd (next p) = .error e) (hb : 0x80 ≤ b.toNat)
    (hopen : m.move s b = openCharacter next b)
    (h : m.outcome s (b :: bs) = (.ok a, rest)) :
    ∃ c bs', b :: bs = String.utf8EncodeChar c ++ bs' ∧ 0x80 ≤ c.toNat ∧
      bs'.length ≤ bs.length ∧ m.outcome (complete c) bs' = (.ok a, rest) := by
  simp only [Scanner.outcome, hopen, openCharacter] at h
  cases hl : Utf8.sequenceLength? b with
  | none =>
      simp only [hl] at h
      cases h
  | some n =>
      simp only [hl] at h
      obtain ⟨c, more, bs', rfl, hc, -, ho⟩ := character_of_outcome hnext hend h
      exact ⟨c, bs', by simp [hc], Utf8.le_of_encode hc hb, by simp, ho⟩

end Lexing

end TypedJson
