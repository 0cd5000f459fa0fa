import TypedJson.Lexing.Lexeme
import TypedJson.Proofs.Operation

/-!
# Lexing strictly and leniently

What lexes strictly lexes leniently to the same. Where the two part, strict lexing fails, at once
or, in front of a `#`, with what comes next: strict blank space stops there, and no unit begins with
it.
-/

set_option autoImplicit false
set_option relaxedAutoImplicit false

namespace TypedJson

open Operation

/-! Scanners that part only where the first one gives up. -/

namespace Scanner

variable {ε σ α : Type} {m m' : Scanner ε σ α} {doomed : α → Prop}

/-- The second scanner does what the first one does, unless that stops with an error or with a
doomed answer. -/
structure Refines (m m' : Scanner ε σ α) (doomed : α → Prop) : Prop where
  move : ∀ s b, m'.move s b = m.move s b ∨
    ∃ r, (m.move s b = .finish r ∨ m.move s b = .halt r) ∧ ∀ a, r = .ok a → doomed a
  atEnd : ∀ s, m'.atEnd s = m.atEnd s

variable (h : m.Refines m' doomed)
include h

theorem pass_of_refines (s : σ) (k : Mark) (bs : List UInt8) :
    m'.pass s k bs = m.pass s k bs ∨
      ∃ r k' unread, m.pass s k bs = .stopped r k' unread ∧ ∀ a, r = .ok a → doomed a := by
  induction bs generalizing s k with
  | nil => exact .inl rfl
  | cons b bs ih =>
      rcases h.move s b with same | ⟨r, finish | halt, fate⟩
      · simp only [pass, same]
        cases m.move s b with
        | shift s' => exact ih s' (k.advance b)
        | finish r => exact .inl rfl
        | halt r => exact .inl rfl
      · exact .inr ⟨r, k.advance b, bs, by simp only [pass, finish], fate⟩
      · exact .inr ⟨r, k, b :: bs, by simp only [pass, halt], fate⟩

theorem passReplies_of_refines {fault : DataFault → ε} {ending : Ending} {replies : List Delivery}
    {s : σ} {k : Mark} {a : α} {c : Cursor}
    (run : m.passReplies fault ending replies s k = (.ok a, c)) (safe : ¬ doomed a) :
    m'.passReplies fault ending replies s k = (.ok a, c) := by
  induction replies generalizing s k with
  | nil =>
      cases ending with
      | endOfData =>
          simp only [passReplies, h.atEnd] at run ⊢
          exact run
      | failed text => cases run
  | cons reply rest ih =>
      cases reply with
      | interrupted => exact ih run
      | endOfData =>
          simp only [passReplies, h.atEnd] at run ⊢
          exact run
      | failed text => cases run
      | data b bs =>
          simp only [passReplies] at run ⊢
          rcases pass_of_refines h s k (b :: bs) with same | ⟨r, k', unread, stop, fate⟩
          · rw [same]
            cases pass : m.pass s k (b :: bs) with
            | stopped r k' unread =>
                rw [pass] at run
                exact run
            | passed s' k' =>
                rw [pass] at run
                exact ih run
          · rw [stop] at run
            cases run
            exact absurd (fate a rfl) safe

theorem scan_of_refines {fault : DataFault → ε} {s : σ} {a : α} {c c' : Cursor}
    (run : m.scan fault s c = (.ok a, c')) (safe : ¬ doomed a) :
    m'.scan fault s c = (.ok a, c') := by
  unfold scan at run ⊢
  rcases pass_of_refines h s c.mark c.unread with same | ⟨r, k', unread, stop, fate⟩
  · rw [same]
    cases pass : m.pass s c.mark c.unread with
    | stopped r k' unread =>
        rw [pass] at run
        exact run
    | passed s' k' =>
        rw [pass] at run
        dsimp only at run ⊢
        split at run
        · rw [if_pos ‹_›, h.atEnd]
          exact run
        · rw [if_neg ‹_›]
          exact passReplies_of_refines h run safe
  · rw [stop] at run
    cases run
    exact absurd (fate a rfl) safe

end Scanner

/-- Strict blank space stops in front of a `#`. -/
theorem Blank.refines :
    (scanner false).Refines (scanner true) fun a => a = some Ascii.hash where
  move p b := by
    cases p with
    | between =>
        by_cases blank : Ascii.isBlank b = true
        · exact .inl (by simp only [scanner, Blank.move, if_pos blank])
        by_cases slash : b = Ascii.slash
        · refine .inr ⟨.error (.text .commentsNotEnabled), .inr ?_, nofun⟩
          simp only [scanner, Blank.move, if_neg blank, if_pos slash]
          rfl
        by_cases hash : b = Ascii.hash
        · refine .inr ⟨.ok (some b), .inr ?_, ?_⟩
          · simp only [scanner, Blank.move, if_neg blank, if_neg slash]
            simp
          · rintro _ ⟨⟩
            rw [hash]
        · left
          simp only [scanner, Blank.move, if_neg blank, if_neg slash]
          simp [hash]
    | slash | line | block => exact .inl rfl
  atEnd p := rfl

theorem Quoted.escaped?_of_strict {b : UInt8} {c : Char} (h : escaped? false b = some c) :
    escaped? true b = some c := by
  by_cases quote : b = Ascii.singleQuote
  · rw [quote] at h
    cases h
  · have same : escaped? true b = escaped? false b := by
      simp only [escaped?, quote, false_and]
    rw [same, h]

theorem Quoted.refines (quote : UInt8) :
    (scanner ⟨quote, false⟩).Refines (scanner ⟨quote, true⟩) fun _ => False where
  move s b := by
    obtain ⟨text, phase⟩ := s
    cases phase with
    | escape =>
        simp only [scanner, Quoted.move]
        split
        · exact .inl rfl
        · cases strict : escaped? false b with
          | some c =>
              rw [escaped?_of_strict strict]
              exact .inl rfl
          | none => exact .inr ⟨.error (.text .unknownEscapeSequence), .inl rfl, nofun⟩
    | plain | unit | mark | letter | partner | character => exact .inl rfl
  atEnd s := rfl

theorem Lexing.classify_of_strict {s : String} {l : Lexeme} (h : classify false s = .ok l) :
    classify true s = .ok l := by
  unfold classify at h ⊢
  repeat' split at h
  case isFalse.isFalse.isFalse.isFalse.isFalse => cases h
  all_goals simp_all

namespace LexM

variable {α β : Type} {x : LexM α}

abbrev Extends (x y : LexM α) (doomed : α → Prop := fun _ => False) : Prop :=
  Carries (fun _ => True) id x y doomed

theorem extends_refl (x : LexM α) : Extends x x :=
  fun _ _ _ _ h _ => ⟨trivial, h⟩

theorem extends_scan {σ : Type} {m m' : Scanner LexFault σ α} {doomed : α → Prop}
    (h : m.Refines m' doomed) (s : σ) : Extends (scan m s) (scan m' s) doomed := by
  intro c a c' _ run safe
  have run : m.scan .data s c = (.ok a, c') := by
    unfold scan at run
    split at run
    · rename_i result
      cases run
      exact result
    · cases run
  refine ⟨trivial, ?_⟩
  unfold scan
  rw [id_eq, m.scan_of_refines h run safe]
  rfl

theorem extends_fail {y : LexM α} {doomed : α → Prop} (fault : SyntaxFault) :
    Extends (fail fault) y doomed :=
  Carries.throw

theorem extends_skipBlank :
    Extends (skipBlank false) (skipBlank true) fun a => a = some Ascii.hash :=
  extends_scan Blank.refines _

theorem extends_skipBlankToByte :
    Extends (skipBlankToByte false) (skipBlankToByte true) fun b => b = Ascii.hash := by
  refine extends_skipBlank.bind_doomed (fun a _ => ?_) ?_
  · cases a with
    | none => exact extends_fail _
    | some b => exact Carries.pure b
  · rintro _ rfl
    exact Yields.pure rfl

theorem extends_behind_blank {f g : UInt8 → LexM α} (hf : ∀ b, Extends (f b) (g b))
    (hash : Yields (f Ascii.hash) fun _ => False) :
    Extends (skipBlankToByte false >>= f) (skipBlankToByte true >>= g) :=
  extends_skipBlankToByte.bind_doomed (fun b _ => hf b) fun _ here => here ▸ hash

theorem extends_quoted (quote : UInt8) :
    Extends (quoted ⟨quote, false⟩) (quoted ⟨quote, true⟩) :=
  extends_scan (Quoted.refines quote) {}

theorem extends_bareValue : Extends (bareValue false) (bareValue true) := by
  refine (extends_refl bare).bind fun s => ?_
  cases strict : Lexing.classify false s with
  | ok l =>
      rw [Lexing.classify_of_strict strict]
      exact Carries.pure l
  | error fault => exact extends_fail fault

theorem value_singleQuote : value false Ascii.singleQuote = fail .malformedJson :=
  rfl

theorem opensQuoted_eq {b : UInt8} (h : b ≠ Ascii.singleQuote) (lenient : Bool) :
    opensQuoted lenient b = (b = Ascii.doubleQuote) := by
  simp [opensQuoted, h]

theorem extends_value (b : UInt8) : Extends (value false b) (value true b) := by
  by_cases quote : b = Ascii.singleQuote
  · rw [quote, value_singleQuote]
    exact extends_fail _
  · unfold value
    simp only [opensQuoted_eq quote]
    repeat' split
    · exact extends_refl _
    · exact extends_refl _
    · exact (extends_refl advance).bind fun _ => (extends_quoted b).bind fun _ => Carries.pure _
    · exact extends_refl _
    · exact extends_refl _
    · exact extends_refl _
    · exact extends_bareValue
    · exact extends_refl _

theorem extends_name (b : UInt8) : Extends (name false b) (name true b) := by
  by_cases quote : b = Ascii.doubleQuote
  · rw [quote]
    exact (extends_refl advance).bind fun _ => (extends_quoted _).bind fun _ => Carries.pure _
  · have closed : opensQuoted false b = false := by simp [opensQuoted, quote]
    have failing : name false b = fail .expectingMemberNameOrObjectEnd := by
      simp [name, closed]
    rw [failing]
    exact extends_fail _

theorem yields_name_hash {Q : Lexeme → Prop} : Yields (name false Ascii.hash) Q :=
  Yields.throw

end LexM

end TypedJson
