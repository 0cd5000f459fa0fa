import TypedJson.Proofs.Grammar.Text
import TypedJson.Proofs.Lexing.Outcome

set_option autoImplicit false
set_option relaxedAutoImplicit false

namespace TypedJson

open Grammar (Blank HexDigit CodeUnit Symbol Spells shortEscapes)
open Utf8 (encode)

/-! Blank space. -/

namespace Blank

def Solid (b : UInt8) : Prop :=
  Ascii.isBlank b = false ∧ b ≠ Ascii.slash ∧ b ≠ Ascii.hash

theorem outcome_blank (lenient : Bool) {w : List Char} (hw : Grammar.Blank w) (bs : List UInt8) :
    (scanner lenient).outcome .between (encode w ++ bs) =
      (scanner lenient).outcome .between bs := by
  induction w with
  | nil => rfl
  | cons c w ih =>
      obtain ⟨hc, hw⟩ := List.forall_mem_cons.mp hw
      rw [Utf8.encode_cons, List.append_assoc, ← ih hw]
      rcases hc with rfl | rfl | rfl | rfl <;> exact Scanner.outcome_of_shift rfl _

theorem outcome_solid {lenient : Bool} {b : UInt8} (hb : Solid b) (bs : List UInt8) :
    (scanner lenient).outcome .between (b :: bs) = (.ok (some b), b :: bs) := by
  refine Scanner.outcome_of_halt ?_ bs
  simp only [scanner, move, hb.1, hb.2.1, hb.2.2, false_and, if_false, Bool.false_eq_true]

theorem blank_of_outcome {bs rest : List UInt8} {a : Option UInt8}
    (h : (scanner false).outcome .between bs = (.ok a, rest)) :
    ∃ w, Grammar.Blank w ∧ bs = encode w ++ rest ∧ rest.head? = a := by
  induction bs with
  | nil =>
      cases h
      exact ⟨[], by simp [Grammar.Blank], rfl, rfl⟩
  | cons b bs ih =>
      by_cases hb : Ascii.isBlank b = true
      · have hm : (scanner false).move .between b = .shift .between := by simp [scanner, move, hb]
        rw [Scanner.outcome_of_shift hm] at h
        obtain ⟨w, hw, rfl, ha⟩ := ih h
        have hc : ∃ c, String.utf8EncodeChar c = [b] ∧ Grammar.Blank [c] := by
          simp only [Ascii.isBlank, Bool.or_eq_true, decide_eq_true_eq] at hb
          rcases hb with ((rfl | rfl) | rfl) | rfl
          · exact ⟨' ', rfl, by simp [Grammar.Blank]⟩
          · exact ⟨'\t', rfl, by simp [Grammar.Blank]⟩
          · exact ⟨'\n', rfl, by simp [Grammar.Blank]⟩
          · exact ⟨'\r', rfl, by simp [Grammar.Blank]⟩
        obtain ⟨c, hc, blank⟩ := hc
        refine ⟨c :: w, List.forall_mem_cons.mpr ⟨blank c (by simp), hw⟩, ?_, ha⟩
        rw [Utf8.encode_cons, hc]
        rfl
      · by_cases hs : b = Ascii.slash
        · have hm : (scanner false).move .between b =
              .halt (.error (.text .commentsNotEnabled)) := by
            subst hs
            rfl
          rw [Scanner.outcome_of_halt hm] at h
          cases h
        · have hm : (scanner false).move .between b = .halt (.ok (some b)) := by
            simp [scanner, move, hb, hs]
          rw [Scanner.outcome_of_halt hm] at h
          cases h
          exact ⟨[], by simp [Grammar.Blank], rfl, rfl⟩

end Blank

/-! Strings. -/

namespace Grammar

theorem HexDigit.lt {c : Char} {n : Nat} (h : HexDigit c n) : n < 16 := by
  cases h <;> omega

theorem HexDigit.byte {c : Char} {n : Nat} (h : HexDigit c n) :
    String.utf8EncodeChar c = [c.toNat.toUInt8] ∧ Ascii.hexValue? c.toNat.toUInt8 = some n := by
  have ascii : c.toNat < 0x80 := by cases h <;> omega
  refine ⟨Utf8.encode_ascii ascii, ?_⟩
  simp only [Ascii.hexValue?, UInt8.le_iff_toNat_le, Nat.toUInt8_eq, UInt8.reduceToNat,
    Utf8.toNat_ofNat (Nat.lt_trans ascii (by decide))]
  cases h with
  | decimal h h' => rw [if_pos ⟨h, h'⟩]
  | upper h h' => rw [if_neg (by omega), if_pos ⟨h, h'⟩]
  | lower h h' => rw [if_neg (by omega), if_neg (by omega), if_pos ⟨h, h'⟩]

theorem HexDigit.of_byte {b : UInt8} {n : Nat} (h : Ascii.hexValue? b = some n) :
    String.utf8EncodeChar (Ascii.toChar b) = [b] ∧ HexDigit (Ascii.toChar b) n := by
  simp only [Ascii.hexValue?, UInt8.le_iff_toNat_le, UInt8.reduceToNat] at h
  split at h
  · rename_i hb
    have hn := Ascii.toNat_toChar (b := b) (by omega)
    cases h
    refine ⟨Ascii.encode_toChar (by omega), ?_⟩
    rw [← hn]
    exact .decimal (by omega) (by omega)
  · split at h
    · rename_i hb
      have hn := Ascii.toNat_toChar (b := b) (by omega)
      cases h
      refine ⟨Ascii.encode_toChar (by omega), ?_⟩
      rw [← hn]
      exact .upper (by omega) (by omega)
    · split at h
      · rename_i hb
        have hn := Ascii.toNat_toChar (b := b) (by omega)
        cases h
        refine ⟨Ascii.encode_toChar (by omega), ?_⟩
        rw [← hn]
        exact .lower (by omega) (by omega)
      · cases h

theorem CodeUnit.lt {cs : List Char} {n : Nat} (h : CodeUnit cs n) : n < 0x10000 := by
  cases h with
  | digits ha hb hc hd =>
      have := ha.lt
      have := hb.lt
      have := hc.lt
      have := hd.lt
      omega

end Grammar

namespace Quoted

abbrev double (lenient : Bool) : Rules := ⟨Ascii.doubleQuote, lenient⟩

section

variable {rules : Rules} {phase : Nat → Nat → State} {done : Nat → Move LexFault State String}

theorem outcome_codeUnit (hphase : ∀ v k b, move rules (phase v k) b =
      match Ascii.hexValue? b with
      | none => .finish (.error (.text .malformedEscapeSequence))
      | some d => if 1 < k then .shift (phase (16 * v + d) (k - 1)) else done (16 * v + d))
    {digits : List Char} {n : Nat} (h : CodeUnit digits n) {s : State} (hs : done n = .shift s)
    (bs : List UInt8) :
    (scanner rules).outcome (phase 0 4) (encode digits ++ bs) = (scanner rules).outcome s bs := by
  cases h with
  | @digits a b c d i j k l ha hb hc hd =>
      have step {v m e : Nat} {x : Char} (hx : HexDigit x e) (bs : List UInt8) :
          (scanner rules).outcome (phase v (m + 2)) (String.utf8EncodeChar x ++ bs) =
            (scanner rules).outcome (phase (16 * v + e) (m + 1)) bs := by
        obtain ⟨hbyte, hval⟩ := hx.byte
        rw [hbyte]
        exact Scanner.outcome_of_shift (by simp [scanner, hphase, hval]) bs
      simp only [Utf8.encode_cons, Utf8.encode_nil, List.append_nil, List.append_assoc]
      rw [step ha, step hb, step hc]
      obtain ⟨hbyte, hval⟩ := hd.byte
      rw [hbyte]
      refine Scanner.outcome_of_shift ?_ bs
      simpa [scanner, hphase, hval] using hs

theorem codeUnit_of_outcome (hphase : ∀ v k b, move rules (phase v k) b =
      match Ascii.hexValue? b with
      | none => .finish (.error (.text .malformedEscapeSequence))
      | some d => if 1 < k then .shift (phase (16 * v + d) (k - 1)) else done (16 * v + d))
    (hend : ∀ v k, ∃ e, atEnd (phase v k) = .error e)
    (hdone : ∀ n, (∃ s, done n = .shift s) ∨ ∃ e, done n = .finish (.error e))
    {bs rest : List UInt8} {a : String}
    (h : (scanner rules).outcome (phase 0 4) bs = (.ok a, rest)) :
    ∃ digits n s bs', CodeUnit digits n ∧ bs = encode digits ++ bs' ∧ done n = .shift s ∧
      (scanner rules).outcome s bs' = (.ok a, rest) := by
  have step {v k : Nat} {bs : List UInt8}
      (h : (scanner rules).outcome (phase v k) bs = (.ok a, rest)) :
      ∃ c d bs', HexDigit c d ∧ bs = String.utf8EncodeChar c ++ bs' ∧
        (1 < k → (scanner rules).outcome (phase (16 * v + d) (k - 1)) bs' = (.ok a, rest)) ∧
        (¬ 1 < k → ∃ s, done (16 * v + d) = .shift s ∧
          (scanner rules).outcome s bs' = (.ok a, rest)) := by
    cases bs with
    | nil =>
        obtain ⟨e, he⟩ := hend v k
        simp only [Scanner.outcome, scanner, he] at h
        cases h
    | cons b bs =>
        simp only [Scanner.outcome, scanner, hphase] at h
        cases hb : Ascii.hexValue? b with
        | none =>
            simp only [hb] at h
            cases h
        | some d =>
            obtain ⟨hbyte, hd⟩ := Grammar.HexDigit.of_byte hb
            simp only [hb] at h
            refine ⟨_, d, bs, hd, by rw [hbyte]; rfl, fun hk => ?_, fun hk => ?_⟩
            · rwa [if_pos hk] at h
            · rw [if_neg hk] at h
              obtain ⟨s, hs⟩ | ⟨e, he⟩ := hdone (16 * v + d)
              · simp only [hs] at h
                exact ⟨s, hs, h⟩
              · simp only [he] at h
                cases h
  obtain ⟨c₁, d₁, bs₁, h₁, rfl, h, -⟩ := step h
  obtain ⟨c₂, d₂, bs₂, h₂, rfl, h, -⟩ := step (h (by decide))
  obtain ⟨c₃, d₃, bs₃, h₃, rfl, h, -⟩ := step (h (by decide))
  obtain ⟨c₄, d₄, bs₄, h₄, rfl, -, h⟩ := step (h (by decide))
  obtain ⟨s, hs, h⟩ := h (by decide)
  refine ⟨_, _, s, bs₄, .digits h₁ h₂ h₃ h₄, by simp, ?_, h⟩
  simpa using hs

end

private theorem move_character (lenient : Bool) (text : List Char) (p : Lexing.Incomplete)
    (b : UInt8) :
    (scanner (double lenient)).move ⟨text, .character p⟩ b =
      Lexing.continueCharacter (fun p => ⟨text, .character p⟩) (fun c => ⟨c :: text, .plain⟩) p b :=
  rfl

private theorem move_multibyte (lenient : Bool) (text : List Char) {b : UInt8}
    (hb : 0x80 ≤ b.toNat) :
    (scanner (double lenient)).move ⟨text, .plain⟩ b =
      Lexing.openCharacter (fun p => ⟨text, .character p⟩) b := by
  have quote : b ≠ Ascii.doubleQuote := by rintro rfl; exact absurd hb (by decide)
  have backslash : b ≠ Ascii.backslash := by rintro rfl; exact absurd hb (by decide)
  simp only [scanner, move, plainMove, quote, backslash, UInt8.lt_iff_toNat_lt, if_false,
    UInt8.reduceToNat, Nat.not_lt.mpr hb, Nat.not_lt.mpr (Nat.le_trans (by decide : 32 ≤ 128) hb)]

private theorem move_ascii (lenient : Bool) (text : List Char) {b : UInt8} (hb : 0x20 ≤ b.toNat)
    (hb' : b.toNat < 0x80) (quote : b ≠ Ascii.doubleQuote) (backslash : b ≠ Ascii.backslash) :
    (scanner (double lenient)).move ⟨text, .plain⟩ b =
      .shift ⟨Ascii.toChar b :: text, .plain⟩ := by
  simp only [scanner, move, plainMove, quote, backslash, UInt8.lt_iff_toNat_lt, if_false,
    UInt8.reduceToNat, Nat.not_lt.mpr hb, hb', if_true, State.push]

private theorem hex_unit (lenient : Bool) (text : List Char) (v k : Nat) (b : UInt8) :
    move (double lenient) ⟨text, .unit v k⟩ b =
      match Ascii.hexValue? b with
      | none => .finish (.error (.text .malformedEscapeSequence))
      | some d => if 1 < k then .shift ⟨text, .unit (16 * v + d) (k - 1)⟩
          else unitMove ⟨text, .plain⟩ (16 * v + d) :=
  rfl

private theorem hex_partner (lenient : Bool) (text : List Char) (high v k : Nat) (b : UInt8) :
    move (double lenient) ⟨text, .partner high v k⟩ b =
      match Ascii.hexValue? b with
      | none => .finish (.error (.text .malformedEscapeSequence))
      | some d => if 1 < k then .shift ⟨text, .partner high (16 * v + d) (k - 1)⟩
          else partnerMove ⟨text, .plain⟩ high (16 * v + d) :=
  rfl

private theorem unitMove_char (text : List Char) (c : Char) :
    unitMove ⟨text, .plain⟩ c.toNat = .shift ⟨c :: text, .plain⟩ := by
  have valid : c.toNat < 0xD800 ∨ 0xDFFF < c.toNat := c.valid.imp id And.left
  have high : Utf16.isHigh c.toNat = false := by
    simp only [Utf16.isHigh, decide_eq_false_iff_not]
    omega
  have low : Utf16.isLow c.toNat = false := by
    simp only [Utf16.isLow, decide_eq_false_iff_not]
    omega
  simp only [unitMove, high, low, State.push, Char.ofNat_toNat, if_false, Bool.false_eq_true]

theorem outcome_symbol {lenient : Bool} {c : Char} {symbol : List Char} (h : Symbol c symbol)
    (text : List Char) (bs : List UInt8) :
    (scanner (double lenient)).outcome ⟨text, .plain⟩ (encode symbol ++ bs) =
      (scanner (double lenient)).outcome ⟨c :: text, .plain⟩ bs := by
  have escape (bs : List UInt8) : (scanner (double lenient)).outcome ⟨text, .plain⟩ (0x5C :: bs) =
      (scanner (double lenient)).outcome ⟨text, .escape⟩ bs :=
    Scanner.outcome_of_shift rfl bs
  have letter (bs : List UInt8) : (scanner (double lenient)).outcome ⟨text, .escape⟩ (0x75 :: bs) =
      (scanner (double lenient)).outcome ⟨text, .unit 0 4⟩ bs :=
    Scanner.outcome_of_shift rfl bs
  cases h with
  | plain hc quote backslash =>
      rw [Utf8.encode_cons, Utf8.encode_nil, List.append_nil]
      by_cases ascii : c.toNat < 0x80
      · have hb : c.toNat.toUInt8.toNat = c.toNat := by
          rw [Nat.toUInt8_eq, Utf8.toNat_ofNat (by omega)]
        have back := Ascii.toChar_toUInt8 ascii
        have hm := move_ascii lenient text (b := c.toNat.toUInt8) (by omega) (by omega)
          (fun h => quote (by rw [← back, h]; rfl)) fun h => backslash (by rw [← back, h]; rfl)
        rw [back] at hm
        rw [Utf8.encode_ascii ascii]
        exact Scanner.outcome_of_shift hm bs
      · exact Lexing.outcome_openCharacter (move_character lenient text)
          (fun b hb => move_multibyte lenient text hb) (Nat.not_lt.mp ascii) bs
  | short hl =>
      simp only [shortEscapes, List.mem_cons, List.not_mem_nil, Prod.mk.injEq, or_false] at hl
      rcases hl with ⟨rfl, rfl⟩ | ⟨rfl, rfl⟩ | ⟨rfl, rfl⟩ | ⟨rfl, rfl⟩ | ⟨rfl, rfl⟩ | ⟨rfl, rfl⟩ |
        ⟨rfl, rfl⟩ | ⟨rfl, rfl⟩ <;>
      exact (escape _).trans (Scanner.outcome_of_shift rfl bs)
  | unit hu =>
      refine (escape _).trans ((letter _).trans ?_)
      exact outcome_codeUnit (hex_unit lenient text) hu (unitMove_char text c) bs
  | @pair _ first second high low hf hs h₁ h₂ h₃ h₄ hc =>
      have isHigh : unitMove ⟨text, .plain⟩ high = .shift ⟨text, .mark high⟩ := by
        simp [unitMove, Utf16.isHigh, h₁, h₂]
      have isLow : partnerMove ⟨text, .plain⟩ high low = .shift ⟨c :: text, .plain⟩ := by
        simp only [partnerMove, Utf16.isLow, h₃, h₄, and_self, decide_true, if_true, State.push,
          Utf16.pair, ← hc, Char.ofNat_toNat]
      refine (escape _).trans ((letter (encode (first ++ '\\' :: 'u' :: second) ++ bs)).trans ?_)
      rw [Utf8.encode_append, List.append_assoc,
        outcome_codeUnit (hex_unit lenient text) hf isHigh]
      refine (Scanner.outcome_of_shift rfl _).trans ((Scanner.outcome_of_shift rfl _).trans ?_)
      exact outcome_codeUnit (hex_partner lenient text high) hs isLow bs

/-- The content of a string is read up to the quote that ends it. -/
theorem outcome_spells {lenient : Bool} {cs body : List Char} (h : Spells cs body)
    (bs : List UInt8) :
    (scanner (double lenient)).outcome {} (encode body ++ Ascii.doubleQuote :: bs) =
      (.ok (String.ofList cs), bs) := by
  suffices key : ∀ text, (scanner (double lenient)).outcome ⟨text, .plain⟩
      (encode body ++ Ascii.doubleQuote :: bs) =
        (.ok (String.ofList (text.reverse ++ cs)), bs) from key []
  induction h with
  | nil =>
      intro text
      rw [List.append_nil]
      exact Scanner.outcome_of_finish rfl bs
  | cons hc _ ih =>
      intro text
      rw [Utf8.encode_append, List.append_assoc, outcome_symbol hc, ih]
      simp

private theorem encode_escape (cs : List Char) :
    encode ('\\' :: cs) = Ascii.backslash :: encode cs :=
  rfl

private theorem encode_letter (cs : List Char) : encode ('u' :: cs) = unitLetter :: encode cs :=
  rfl

private theorem short_of_escaped {b : UInt8} {c : Char} (h : escaped? false b = some c) :
    ∃ letter, (letter, c) ∈ shortEscapes ∧ String.utf8EncodeChar letter = [b] := by
  unfold escaped? at h
  repeat' split at h
  · rename_i hb
    cases h
    rcases hb with rfl | rfl | rfl
    · exact ⟨'"', by decide, rfl⟩
    · exact ⟨'\\', by decide, rfl⟩
    · exact ⟨'/', by decide, rfl⟩
  · rename_i hb
    exact absurd hb.2 (by decide)
  · rename_i hb
    cases h
    exact ⟨'b', by decide, by rw [hb]; rfl⟩
  · rename_i hb
    cases h
    exact ⟨'f', by decide, by rw [hb]; rfl⟩
  · rename_i hb
    cases h
    exact ⟨'n', by decide, by rw [hb]; rfl⟩
  · rename_i hb
    cases h
    exact ⟨'r', by decide, by rw [hb]; rfl⟩
  · rename_i hb
    cases h
    exact ⟨'t', by decide, by rw [hb]; rfl⟩
  · cases h

private theorem pair_of_mark {text : List Char} {high : Nat} {bs rest : List UInt8} {a : String}
    (h : (scanner (double false)).outcome ⟨text, .mark high⟩ bs = (.ok a, rest)) :
    ∃ digits low bs', CodeUnit digits low ∧ 0xDC00 ≤ low ∧ low ≤ 0xDFFF ∧
      bs = Ascii.backslash :: unitLetter :: (encode digits ++ bs') ∧
      (scanner (double false)).outcome ⟨Utf16.pair high low :: text, .plain⟩ bs' =
        (.ok a, rest) := by
  cases bs with
  | nil => cases h
  | cons b bs =>
      by_cases hb : b = Ascii.backslash
      · subst hb
        cases bs with
        | nil => cases h
        | cons b bs =>
            by_cases hb : b = unitLetter
            · subst hb
              have h : (scanner (double false)).outcome ⟨text, .partner high 0 4⟩ bs =
                (.ok a, rest) := h
              obtain ⟨digits, low, s, bs', hd, rfl, hs, ho⟩ :=
                codeUnit_of_outcome (hex_partner false text high) (fun _ _ => ⟨_, rfl⟩)
                  (fun n => by unfold partnerMove; split <;> simp) h
              by_cases hl : Utf16.isLow low = true
              · rw [partnerMove, if_pos hl] at hs
                obtain rfl := Move.shift.inj hs
                simp only [Utf16.isLow, decide_eq_true_eq] at hl
                exact ⟨digits, low, bs', hd, hl.1, hl.2, rfl, ho⟩
              · rw [partnerMove, if_neg hl] at hs
                cases hs
            · have hm : (scanner (double false)).move ⟨text, .letter high⟩ b =
                  .finish (.error (.text .unpairedSurrogate)) := if_neg hb
              have h : (scanner (double false)).outcome ⟨text, .letter high⟩ (b :: bs) =
                (.ok a, rest) := h
              rw [Scanner.outcome_of_finish hm] at h
              cases h
      · have hm : (scanner (double false)).move ⟨text, .mark high⟩ b =
            .finish (.error (.text .unpairedSurrogate)) := if_neg hb
        rw [Scanner.outcome_of_finish hm] at h
        cases h

theorem symbol_of_escape {text : List Char} {bs rest : List UInt8} {a : String}
    (h : (scanner (double false)).outcome ⟨text, .escape⟩ bs = (.ok a, rest)) :
    ∃ c symbol bs', Symbol c ('\\' :: symbol) ∧ bs = encode symbol ++ bs' ∧
      (scanner (double false)).outcome ⟨c :: text, .plain⟩ bs' = (.ok a, rest) := by
  cases bs with
  | nil => cases h
  | cons b bs =>
      by_cases hb : b = unitLetter
      · subst hb
        have h : (scanner (double false)).outcome ⟨text, .unit 0 4⟩ bs = (.ok a, rest) := h
        have shifts (n : Nat) : (∃ s, unitMove ⟨text, .plain⟩ n = .shift s) ∨
            ∃ e, unitMove ⟨text, .plain⟩ n = .finish (.error e) := by
          unfold unitMove
          split
          · exact .inl ⟨_, rfl⟩
          · split
            · exact .inr ⟨_, rfl⟩
            · exact .inl ⟨_, rfl⟩
        obtain ⟨digits, n, s, bs', hd, rfl, hs, ho⟩ := codeUnit_of_outcome (hex_unit false text)
          (fun _ _ => ⟨_, rfl⟩) shifts h
        have lt := hd.lt
        by_cases high : Utf16.isHigh n = true
        · rw [unitMove, if_pos high] at hs
          obtain rfl := Move.shift.inj hs
          obtain ⟨digits', low, bs₂, hd', h₁, h₂, rfl, hp⟩ := pair_of_mark ho
          simp only [Utf16.isHigh, decide_eq_true_eq] at high
          refine ⟨_, 'u' :: (digits ++ '\\' :: 'u' :: digits'), bs₂,
            .pair hd hd' high.1 high.2 h₁ h₂ ?_, ?_, hp⟩
          · refine Utf8.toNat_char (.inr ⟨?_, ?_⟩) <;> omega
          · rw [encode_letter, Utf8.encode_append, encode_escape, encode_letter]
            simp
        · rw [unitMove, if_neg high] at hs
          by_cases low : Utf16.isLow n = true
          · rw [if_pos low] at hs
            cases hs
          · rw [if_neg low] at hs
            obtain rfl := Move.shift.inj hs
            simp only [Utf16.isHigh, Utf16.isLow, decide_eq_true_eq] at high low
            have valid : n.isValidChar := by
              simp only [Nat.isValidChar]
              omega
            refine ⟨Char.ofNat n, 'u' :: digits, bs', .unit ?_, by rw [encode_letter]; rfl, ho⟩
            rwa [Utf8.toNat_char valid]
      · cases he : escaped? false b with
        | none =>
            have hm : (scanner (double false)).move ⟨text, .escape⟩ b =
                .finish (.error (.text .unknownEscapeSequence)) := by
              simp only [scanner, move, hb, if_false, he]
            rw [Scanner.outcome_of_finish hm] at h
            cases h
        | some c =>
            have hm : (scanner (double false)).move ⟨text, .escape⟩ b =
                .shift ⟨c :: text, .plain⟩ := by
              simp only [scanner, move, hb, if_false, he, State.push]
            rw [Scanner.outcome_of_shift hm] at h
            obtain ⟨letter, hl, hbyte⟩ := short_of_escaped he
            exact ⟨c, [letter], bs, .short hl, by rw [Utf8.encode_cons, hbyte]; rfl, h⟩

theorem symbol_of_outcome {text : List Char} {bs rest : List UInt8} {a : String}
    (h : (scanner (double false)).outcome ⟨text, .plain⟩ bs = (.ok a, rest)) :
    (bs = Ascii.doubleQuote :: rest ∧ a = String.ofList text.reverse) ∨
      ∃ c symbol bs', Symbol c symbol ∧ bs = encode symbol ++ bs' ∧ bs'.length < bs.length ∧
        (scanner (double false)).outcome ⟨c :: text, .plain⟩ bs' = (.ok a, rest) := by
  cases bs with
  | nil => cases h
  | cons b bs =>
      by_cases quote : b = Ascii.doubleQuote
      · have hm : (scanner (double false)).move ⟨text, .plain⟩ b =
            .finish (.ok (String.ofList text.reverse)) := if_pos quote
        rw [Scanner.outcome_of_finish hm] at h
        cases h
        exact .inl ⟨by rw [quote], rfl⟩
      · right
        by_cases backslash : b = Ascii.backslash
        · subst backslash
          obtain ⟨c, symbol, bs', hc, rfl, ho⟩ := symbol_of_escape h
          refine ⟨c, _, bs', hc, by rw [encode_escape]; rfl, ?_, ho⟩
          simp only [List.length_cons, List.length_append]
          omega
        · by_cases control : b.toNat < 0x20
          · have hm : (scanner (double false)).move ⟨text, .plain⟩ b =
                .halt (.error (.text .notEscapedControlCharacter)) := by
              simp only [scanner, move, plainMove, quote, backslash, UInt8.lt_iff_toNat_lt,
                UInt8.reduceToNat, control, if_true, if_false]
            rw [Scanner.outcome_of_halt hm] at h
            cases h
          · by_cases ascii : b.toNat < 0x80
            · rw [Scanner.outcome_of_shift
                (move_ascii false text (Nat.not_lt.mp control) ascii quote backslash)] at h
              have back := Ascii.toNat_toChar ascii
              refine ⟨Ascii.toChar b, [Ascii.toChar b], bs, .plain (by omega) ?_ ?_, ?_, ?_, h⟩
              · exact fun hc => quote (Ascii.toChar_inj (d := Ascii.doubleQuote) hc)
              · exact fun hc => backslash (Ascii.toChar_inj (d := Ascii.backslash) hc)
              · rw [Utf8.encode_cons, Ascii.encode_toChar ascii]
                rfl
              · simp
            · have hb := Nat.not_lt.mp ascii
              obtain ⟨c, bs', hbs, hc, len, h⟩ := Lexing.openCharacter_of_outcome
                (move_character false text) (fun _ => ⟨_, rfl⟩) hb (move_multibyte false text hb) h
              refine ⟨c, [c], bs', .plain (by omega) ?_ ?_, ?_, ?_, h⟩
              · rintro rfl
                exact absurd hc (by decide)
              · rintro rfl
                exact absurd hc (by decide)
              · simpa using hbs
              · simp only [List.length_cons]
                omega

/-- A string that has been read is spelled by the bytes that were consumed. -/
theorem spells_of_outcome {bs rest : List UInt8} {a : String}
    (h : (scanner (double false)).outcome {} bs = (.ok a, rest)) :
    ∃ body, Spells a.toList body ∧ bs = encode body ++ Ascii.doubleQuote :: rest := by
  suffices key : ∀ (n : Nat) (text : List Char) (bs : List UInt8), bs.length ≤ n →
      (scanner (double false)).outcome ⟨text, .plain⟩ bs = (.ok a, rest) →
      ∃ cs body, a = String.ofList (text.reverse ++ cs) ∧ Spells cs body ∧
        bs = encode body ++ Ascii.doubleQuote :: rest by
    obtain ⟨cs, body, rfl, hs, hbs⟩ := key bs.length [] bs (Nat.le_refl _) h
    exact ⟨body, by simpa using hs, hbs⟩
  intro n
  induction n with
  | zero =>
      intro text bs hn h
      obtain rfl := List.length_eq_zero_iff.mp (Nat.le_zero.mp hn)
      cases h
  | succ n ih =>
      intro text bs hn h
      obtain ⟨rfl, rfl⟩ | ⟨c, symbol, bs', hc, rfl, len, ho⟩ := symbol_of_outcome h
      · exact ⟨[], [], by simp, .nil, rfl⟩
      · obtain ⟨cs, body, rfl, hs, rfl⟩ := ih (c :: text) bs' (by omega) ho
        exact ⟨c :: cs, symbol ++ body, by simp, .cons hc hs, by simp⟩

end Quoted

/-! Unquoted literals. -/

namespace Bare

/-- A character that an unquoted literal may consist of, of those that the grammar has there. -/
def Plain (c : Char) : Prop :=
  c.toNat < 0x80 ∧ Ascii.isLiteral c.toNat.toUInt8 = true

instance (c : Char) : Decidable (Plain c) :=
  inferInstanceAs (Decidable (_ ∧ _))

theorem plain_of_all {cs : List Char} (h : (cs.all fun c => decide (Plain c)) = true) :
    ∀ c ∈ cs, Plain c := by
  intro c hc
  exact of_decide_eq_true (List.all_eq_true.mp h c hc)

def Stops : List UInt8 → Prop
  | [] => True
  | b :: _ => Ascii.isLiteral b = false

private theorem move_character (text : List Char) (p : Lexing.Incomplete) (b : UInt8) :
    scanner.move ⟨text, .character p⟩ b =
      Lexing.continueCharacter (fun p => ⟨text, .character p⟩) (fun c => ⟨c :: text, .plain⟩) p b :=
  rfl

private theorem move_ascii (text : List Char) {b : UInt8} (hb : Ascii.isLiteral b = true)
    (ascii : b.toNat < 0x80) :
    scanner.move ⟨text, .plain⟩ b = .shift ⟨Ascii.toChar b :: text, .plain⟩ := by
  simp only [scanner, move, hb, not_true_eq_false, if_false, UInt8.lt_iff_toNat_lt,
    UInt8.reduceToNat, ascii, if_true, State.push]

private theorem move_multibyte (text : List Char) {b : UInt8} (hb : Ascii.isLiteral b = true)
    (le : 0x80 ≤ b.toNat) :
    scanner.move ⟨text, .plain⟩ b = Lexing.openCharacter (fun p => ⟨text, .character p⟩) b := by
  simp only [scanner, move, hb, not_true_eq_false, if_false, UInt8.lt_iff_toNat_lt,
    UInt8.reduceToNat, Nat.not_lt.mpr le]

theorem outcome_plain {cs : List Char} (hcs : ∀ c ∈ cs, Plain c) {bs : List UInt8}
    (hbs : Stops bs) :
    scanner.outcome {} (encode cs ++ bs) = (.ok (String.ofList cs), bs) := by
  suffices key : ∀ text, scanner.outcome ⟨text, .plain⟩ (encode cs ++ bs) =
      (.ok (String.ofList (text.reverse ++ cs)), bs) from key []
  induction cs with
  | nil =>
      intro text
      rw [List.append_nil]
      cases bs with
      | nil => rfl
      | cons b bs =>
          have hb : Ascii.isLiteral b = false := hbs
          exact Scanner.outcome_of_halt (by simp [scanner, move, hb]) bs
  | cons c cs ih =>
      intro text
      obtain ⟨hc, hcs⟩ := List.forall_mem_cons.mp hcs
      have hb : c.toNat.toUInt8.toNat < 0x80 := by
        rw [Nat.toUInt8_eq, Utf8.toNat_ofNat (Nat.lt_trans hc.1 (by decide))]
        exact hc.1
      have hm := move_ascii text hc.2 hb
      rw [Ascii.toChar_toUInt8 hc.1] at hm
      rw [Utf8.encode_cons, Utf8.encode_ascii hc.1, List.append_assoc, List.singleton_append,
        Scanner.outcome_of_shift hm, ih hcs]
      simp

theorem encode_of_outcome {bs rest : List UInt8} {a : String}
    (h : scanner.outcome {} bs = (.ok a, rest)) : bs = encode a.toList ++ rest := by
  suffices key : ∀ (n : Nat) (text : List Char) (bs : List UInt8), bs.length ≤ n →
      scanner.outcome ⟨text, .plain⟩ bs = (.ok a, rest) →
      ∃ cs, a = String.ofList (text.reverse ++ cs) ∧ bs = encode cs ++ rest by
    obtain ⟨cs, rfl, rfl⟩ := key bs.length [] bs (Nat.le_refl _) h
    simp
  intro n
  induction n with
  | zero =>
      intro text bs hn h
      obtain rfl := List.length_eq_zero_iff.mp (Nat.le_zero.mp hn)
      cases h
      exact ⟨[], by simp, rfl⟩
  | succ n ih =>
      intro text bs hn h
      cases bs with
      | nil =>
          cases h
          exact ⟨[], by simp, rfl⟩
      | cons b bs =>
          simp only [List.length_cons, Nat.add_le_add_iff_right] at hn
          by_cases hb : Ascii.isLiteral b = true
          · by_cases ascii : b.toNat < 0x80
            · rw [Scanner.outcome_of_shift (move_ascii text hb ascii)] at h
              obtain ⟨cs, rfl, rfl⟩ := ih _ bs hn h
              exact ⟨Ascii.toChar b :: cs, by simp, by
                rw [Utf8.encode_cons, Ascii.encode_toChar ascii]
                rfl⟩
            · have le := Nat.not_lt.mp ascii
              obtain ⟨c, bs', hbs, -, len, ho⟩ := Lexing.openCharacter_of_outcome
                (move_character text) (fun _ => ⟨_, rfl⟩) le (move_multibyte text hb le) h
              obtain ⟨cs, rfl, rfl⟩ := ih _ bs' (Nat.le_trans len hn) ho
              exact ⟨c :: cs, by simp, by simpa using hbs⟩
          · have hm : scanner.move ⟨text, .plain⟩ b = .halt (.ok (String.ofList text.reverse)) := by
              simp [scanner, move, hb]
            rw [Scanner.outcome_of_halt hm] at h
            cases h
            exact ⟨[], by simp, rfl⟩

end Bare

end TypedJson
