import TypedJson.Proofs.Lexing.Coupled
import TypedJson.Proofs.Lexing.Spelling
import TypedJson.Proofs.Number.Literal

set_option autoImplicit false
set_option relaxedAutoImplicit false

namespace TypedJson

open Operation
open Utf8 (encode)
open Blank (Solid)
open Bare (Plain Stops)

namespace Grammar

/-- The texts of the first unit of a value: an opening bracket, or a whole scalar. -/
inductive Opening (N : List Char → Prop) : Lexeme → List Char → Prop where
  | object : Opening N .beginObject ['{']
  | array : Opening N .beginArray ['[']
  | string {text : String} {s : List Char} : Quoted text s → Opening N (.string text) s
  | number {literal : String} : N literal.toList → Opening N (.number literal) literal.toList
  | yes : Opening N (.boolean true) "true".toList
  | no : Opening N (.boolean false) "false".toList
  | null : Opening N .null "null".toList

theorem Opening.ne_endDocument {N : List Char → Prop} {l : Lexeme} {s : List Char}
    (h : Opening N l s) : l ≠ .endDocument := by
  cases h <;> simp

/-- The texts of numbers are unquoted literals that are taken for numbers. -/
structure Numerals (lenient : Bool) (N : List Char → Prop) : Prop where
  classify : ∀ s : String, N s.toList → Lexing.classify lenient s = .ok (.number s)
  plain : ∀ cs, N cs → ∀ c ∈ cs, Plain c
  ne_nil : ∀ cs, N cs → cs ≠ []

/-! Number literals. -/

def Numeric (c : Char) : Prop :=
  c.isDigit = true ∨ c ∈ ['-', '+', '.', 'e', 'E']

private theorem Numeric.plain {c : Char} (h : Numeric c) : Plain c := by
  obtain h | h := h
  · simp only [Char.isDigit, Bool.and_eq_true, decide_eq_true_eq, UInt32.le_iff_toNat_le] at h
    have lo : 48 ≤ c.toNat := h.1
    have hi : c.toNat ≤ 57 := h.2
    refine ⟨by omega, ?_⟩
    have cases : ∀ n, 48 ≤ n → n ≤ 57 → Ascii.isLiteral n.toUInt8 = true := by
      intro n lo hi
      have : n ∈ List.range' 48 10 := List.mem_range'_1.mpr ⟨lo, by omega⟩
      exact (show ∀ n ∈ List.range' 48 10, Ascii.isLiteral n.toUInt8 = true by decide) n this
    exact cases c.toNat lo hi
  · simp only [List.mem_cons, List.not_mem_nil, or_false] at h
    rcases h with rfl | rfl | rfl | rfl | rfl <;> decide

private theorem Digits.numeric {cs : List Char} (h : Digits cs) : ∀ c ∈ cs, Numeric c :=
  fun c hc => .inl (h.2 c hc)

private theorem Exponent.numeric {cs : List Char} (h : Exponent cs) : ∀ c ∈ cs, Numeric c := by
  cases h with
  | none => simp
  | plain he hd =>
      refine List.forall_mem_cons.mpr ⟨.inr ?_, hd.numeric⟩
      rcases he with rfl | rfl <;> decide
  | signed he hs hd =>
      refine List.forall_mem_cons.mpr ⟨.inr ?_, List.forall_mem_cons.mpr ⟨.inr ?_, hd.numeric⟩⟩
      · rcases he with rfl | rfl <;> decide
      · rcases hs with rfl | rfl <;> decide

private theorem Unsigned.numeric {cs : List Char} (h : Unsigned cs) : ∀ c ∈ cs, Numeric c := by
  cases h with
  | parts hw hf he =>
      refine List.forall_mem_append.mpr ⟨?_, List.forall_mem_append.mpr ⟨?_, he.numeric⟩⟩
      · cases hw with
        | zero => exact List.forall_mem_singleton.mpr (.inl rfl)
        | digits _ hd => exact hd.numeric
      · cases hf with
        | none => simp
        | point hd => exact List.forall_mem_cons.mpr ⟨.inr (by decide), hd.numeric⟩

theorem numeric_of_number {cs : List Char} (h : Number cs) : ∀ c ∈ cs, Numeric c := by
  cases h with
  | plain h => exact h.numeric
  | minus h => exact List.forall_mem_cons.mpr ⟨.inr (by decide), h.numeric⟩

theorem plain_of_number {cs : List Char} (h : Number cs) : ∀ c ∈ cs, Plain c :=
  fun c hc => (numeric_of_number h c hc).plain

theorem classify_number (lenient : Bool) {s : String} (h : Number s.toList) :
    Lexing.classify lenient s = .ok (.number s) := by
  have literal := Number.isLiteral_iff.mpr h
  have ne (word : String) (hw : TypedJson.Number.isLiteral word.toList = false) : s ≠ word := by
    rintro rfl
    rw [literal] at hw
    cases hw
  simp only [Lexing.classify, ne "true" rfl, ne "false" rfl, ne "null" rfl, literal, if_true,
    if_false]

theorem numerals_number (lenient : Bool) : Numerals lenient Number where
  classify _ h := classify_number lenient h
  plain _ h := plain_of_number h
  ne_nil cs h := by
    rintro rfl
    exact absurd (Number.isLiteral_iff.mpr h) (by decide)

/-- The texts of numbers, with the words for non-finite ones where these are admitted. -/
def Numeral (nonFinite : Bool) (cs : List Char) : Prop :=
  Number cs ∨ nonFinite = true ∧ String.ofList cs ∈ TypedJson.Number.nonFiniteWords

theorem numerals_numeral {lenient nonFinite : Bool} (h : nonFinite = true → lenient = true) :
    Numerals lenient (Numeral nonFinite) where
  classify s hs := by
    rcases hs with number | ⟨admitted, word⟩
    · exact classify_number lenient number
    · rw [String.ofList_toList] at word
      simp only [TypedJson.Number.nonFiniteWords, List.mem_cons, List.not_mem_nil, or_false] at word
      rw [h admitted]
      rcases word with rfl | rfl | rfl
      · rfl
      · rfl
      · rfl
  plain cs hs := by
    rcases hs with number | ⟨-, word⟩
    · exact plain_of_number number
    · simp only [TypedJson.Number.nonFiniteWords, List.mem_cons, List.not_mem_nil, or_false] at word
      have letters {w : String} (same : String.ofList cs = w) : cs = w.toList := by
        rw [← same, String.toList_ofList]
      rcases word with word | word | word
      · exact letters word ▸ Bare.plain_of_all (by decide)
      · exact letters word ▸ Bare.plain_of_all (by decide)
      · exact letters word ▸ Bare.plain_of_all (by decide)
  ne_nil cs hs := by
    rintro rfl
    rcases hs with number | ⟨-, word⟩
    · exact absurd (Number.isLiteral_iff.mpr number) (by decide)
    · exact absurd word (by decide)

end Grammar

namespace LexM

variable {lenient : Bool} {N : List Char → Prop} {bs rest : List UInt8}

/-! Blank space. -/

theorem attains_skipBlank {w : List Char} (hw : Grammar.Blank w) :
    Attains (fun c => c.Over (encode w)) (skipBlank lenient) fun a c => a = none ∧ c.Over [] := by
  refine attains_scan ?_
  have h := Blank.outcome_blank lenient hw []
  rwa [List.append_nil] at h

theorem attains_toByte {b : UInt8}
    (h : (Blank.scanner lenient).outcome .between bs = (.ok (some b), b :: rest)) :
    Attains (fun c => c.Over bs) (skipBlankToByte lenient) fun a c => a = b ∧ c.At b rest := by
  intro c hc
  obtain ⟨a, c', ha, rfl, held⟩ := attains_scan h c hc
  obtain ⟨u, hu⟩ := unread_of_skipBlank ha
  exact ⟨b, c', bind_of_ok ha, rfl, held, by simp [hu]⟩

theorem attains_skipBlankToByte {w : List Char} {b : UInt8} (hw : Grammar.Blank w) (hb : Solid b) :
    Attains (fun c => c.Over (encode w ++ b :: rest)) (skipBlankToByte lenient) fun a c =>
      a = b ∧ c.At b rest := by
  apply attains_toByte
  rw [Blank.outcome_blank lenient hw, Blank.outcome_solid hb]

theorem ensures_skipBlank_over :
    Ensures (fun c => c.Over bs) (skipBlank false) fun a c =>
      ∃ w rest, Grammar.Blank w ∧ bs = encode w ++ rest ∧ rest.head? = a ∧ c.Over rest := by
  refine ensures_scan_over.weaken (fun _ h => h) fun a c h => ?_
  obtain ⟨rest, ho, hc⟩ := h
  obtain ⟨w, hw, hbs, ha⟩ := Blank.blank_of_outcome ho
  exact ⟨w, rest, hw, hbs, ha, hc⟩

theorem ensures_skipBlankToByte_over :
    Ensures (fun c => c.Over bs) (skipBlankToByte false) fun b c =>
      ∃ w rest, Grammar.Blank w ∧ bs = encode w ++ b :: rest ∧ c.At b rest := by
  intro c b c' hc h
  obtain ⟨a, t, ha, h⟩ := bind_eq_ok.mp h
  cases a with
  | none => cases h
  | some b =>
      cases h
      obtain ⟨w, rest, hw, hbs, hb, hc⟩ := ensures_skipBlank_over _ _ _ hc ha
      obtain ⟨u, rfl⟩ := List.head?_eq_some_iff.mp hb
      obtain ⟨v, hv⟩ := unread_of_skipBlank ha
      exact ⟨w, u, hw, hbs, hc, by simp [hv]⟩

/-! Strings and literals. -/

theorem attains_quoted (lenient : Bool) (rest : List UInt8) {s : String} {q : List Char}
    (h : Grammar.Quoted s q) :
    ∃ u, encode q ++ rest = Ascii.doubleQuote :: u ∧
      Attains (fun c => c.Over u) (quoted (Quoted.double lenient)) fun a c =>
        a = s ∧ c.Over rest := by
  cases h with
  | @quotes body hs =>
      refine ⟨encode body ++ Ascii.doubleQuote :: rest, ?_, attains_scan ?_⟩
      · rw [Utf8.encode_cons, Utf8.encode_append]
        simp only [List.append_assoc]
        rfl
      · rw [Quoted.outcome_spells hs, String.ofList_toList]

theorem ensures_quoted_over :
    Ensures (fun c => c.Over bs) (quoted (Quoted.double false)) fun s c =>
      ∃ q rest, Grammar.Quoted s q ∧ Ascii.doubleQuote :: bs = encode q ++ rest ∧ c.Over rest := by
  refine ensures_scan_over.weaken (fun _ h => h) fun s c h => ?_
  obtain ⟨rest, ho, hc⟩ := h
  obtain ⟨body, hs, rfl⟩ := Quoted.spells_of_outcome ho
  refine ⟨_, rest, .quotes hs, ?_, hc⟩
  rw [Utf8.encode_cons, Utf8.encode_append]
  simp only [List.append_assoc]
  rfl

theorem attains_bare {s : String} (hs : ∀ c ∈ s.toList, Plain c) (stops : Stops rest) :
    Attains (fun c => c.Over (encode s.toList ++ rest)) bare fun a c => a = s ∧ c.Over rest := by
  refine attains_scan ?_
  rw [Bare.outcome_plain hs stops, String.ofList_toList]

theorem ensures_bare_over :
    Ensures (fun c => c.Over bs) bare fun s c =>
      ∃ rest, bs = encode s.toList ++ rest ∧ c.Over rest := by
  refine ensures_scan_over.weaken (fun _ h => h) fun s c h => ?_
  obtain ⟨rest, ho, hc⟩ := h
  exact ⟨rest, Bare.encode_of_outcome ho, hc⟩

/-! The first unit of a value. -/

private theorem literal_ne {b : UInt8} (hb : Ascii.isLiteral b = true) (d : UInt8)
    (hd : Ascii.isLiteral d = false) : b ≠ d := by
  rintro rfl
  rw [hd] at hb
  cases hb

theorem value_of_literal {b : UInt8} (hb : Ascii.isLiteral b = true) :
    value lenient b = bareValue lenient := by
  have ne := literal_ne hb
  have quoted : opensQuoted lenient b = false := by
    simp [opensQuoted, ne Ascii.doubleQuote rfl, ne Ascii.singleQuote rfl]
  unfold value
  rw [if_neg (ne Ascii.openBrace rfl), if_neg (ne Ascii.openBracket rfl), if_neg (by simp [quoted]),
    if_neg (by simp [ne Ascii.closeBracket rfl, ne Ascii.closeBrace rfl]),
    if_neg (ne Ascii.comma rfl), if_neg (ne Ascii.colon rfl), if_pos hb]

private theorem solid_of_literal {b : UInt8} (hb : Ascii.isLiteral b = true) : Solid b := by
  have ne := literal_ne hb
  refine ⟨?_, ne _ rfl, ne _ rfl⟩
  simp [Ascii.isBlank, ne Ascii.space rfl, ne Ascii.tab rfl, ne Ascii.lineFeed rfl,
    ne Ascii.carriageReturn rfl]

private theorem attains_word {s : String} {l : Lexeme} (ne : s.toList ≠ [])
    (hs : ∀ c ∈ s.toList, Plain c) (hl : Lexing.classify lenient s = .ok l) (stops : Stops rest) :
    ∃ b u, encode s.toList ++ rest = b :: u ∧ Solid b ∧ b ≠ Ascii.closeBracket ∧
      Attains (fun c => c.At b u) (value lenient b) fun a c => a = l ∧ c.Over rest := by
  have whole : Attains (fun c => c.Over (encode s.toList ++ rest)) (bareValue lenient)
      fun a c => a = l ∧ c.Over rest := by
    refine Attains.bind (attains_bare hs stops) fun a => ?_
    rintro c ⟨rfl, hc⟩
    simp only [hl]
    exact ⟨l, c, rfl, rfl, hc⟩
  generalize s.toList = cs at ne hs whole
  cases cs with
  | nil => exact absurd rfl ne
  | cons c cs =>
      obtain ⟨ascii, hb⟩ := hs c (by simp)
      rw [Utf8.encode_cons, Utf8.encode_ascii ascii] at whole ⊢
      refine ⟨_, _, rfl, solid_of_literal hb, literal_ne hb _ rfl, ?_⟩
      rw [value_of_literal hb]
      exact whole.weaken (fun _ h => h.1) fun _ _ h => h

theorem attains_value (hN : Grammar.Numerals lenient N) {l : Lexeme} {s : List Char}
    (h : Grammar.Opening N l s) (stops : l ≠ .beginObject → l ≠ .beginArray → Stops rest) :
    ∃ b u, encode s ++ rest = b :: u ∧ Solid b ∧ b ≠ Ascii.closeBracket ∧
      Attains (fun c => c.At b u) (value lenient b) fun a c => a = l ∧ c.Over rest := by
  have bracket {l : Lexeme} :
      Attains (fun c => c.Over rest) (pure l : LexM Lexeme) fun a c => a = l ∧ c.Over rest :=
    Attains.pure fun _ hc => ⟨rfl, hc⟩
  cases h with
  | object =>
      exact ⟨Ascii.openBrace, rest, rfl, ⟨rfl, by decide, by decide⟩, by decide,
        Attains.bind attains_advance fun _ => bracket⟩
  | array =>
      exact ⟨Ascii.openBracket, rest, rfl, ⟨rfl, by decide, by decide⟩, by decide,
        Attains.bind attains_advance fun _ => bracket⟩
  | string hq =>
      obtain ⟨u, hu, hx⟩ := attains_quoted lenient rest hq
      refine ⟨_, u, hu, ⟨rfl, by decide, by decide⟩, by decide,
        Attains.bind attains_advance fun _ => Attains.bind hx fun a => ?_⟩
      rintro c ⟨rfl, hc⟩
      exact ⟨_, c, rfl, rfl, hc⟩
  | number hn =>
      exact attains_word (hN.ne_nil _ hn) (hN.plain _ hn) (hN.classify _ hn) (stops nofun nofun)
  | yes => exact attains_word (by decide) (Bare.plain_of_all (by decide)) rfl (stops nofun nofun)
  | no => exact attains_word (by decide) (Bare.plain_of_all (by decide)) rfl (stops nofun nofun)
  | null => exact attains_word (by decide) (Bare.plain_of_all (by decide)) rfl (stops nofun nofun)

private theorem opening_of_classify {s : String} {l : Lexeme}
    (h : Lexing.classify false s = .ok l) : Grammar.Opening Grammar.Number l s.toList := by
  unfold Lexing.classify at h
  split at h
  · rename_i hs
    cases h
    rw [hs]
    exact .yes
  · split at h
    · rename_i hs
      cases h
      rw [hs]
      exact .no
    · split at h
      · rename_i hs
        cases h
        rw [hs]
        exact .null
      · split at h
        · rename_i hs
          cases h
          exact .number (Number.isLiteral_iff.mp hs)
        · cases h

theorem ensures_value_over {b : UInt8} :
    Ensures (fun c => c.At b bs) (value false b) fun l c =>
      ∃ s rest, Grammar.Opening Grammar.Number l s ∧ b :: bs = encode s ++ rest ∧
        c.Over rest := by
  unfold value
  split
  · rename_i hb
    refine Ensures.bind ensures_advance_over fun _ => Ensures.pure fun c hc => ?_
    exact ⟨['{'], bs, .object, by rw [hb]; rfl, hc⟩
  · split
    · rename_i hb
      refine Ensures.bind ensures_advance_over fun _ => Ensures.pure fun c hc => ?_
      exact ⟨['['], bs, .array, by rw [hb]; rfl, hc⟩
    · split
      · rename_i hb
        obtain rfl : b = Ascii.doubleQuote := by simpa [opensQuoted] using hb
        refine Ensures.bind ensures_advance_over fun _ =>
          Ensures.bind ensures_quoted_over fun s => Ensures.pure fun c hc => ?_
        obtain ⟨q, rest, hq, hbs, hc⟩ := hc
        exact ⟨q, rest, .string hq, hbs, hc⟩
      · repeat' split
        · exact Ensures.throw
        · exact Ensures.throw
        · exact Ensures.throw
        · refine (Ensures.bind ensures_bare_over fun s => ?_).weaken (fun _ h => h.1) fun _ _ h => h
          cases hl : Lexing.classify false s with
          | error fault => exact Ensures.throw
          | ok l =>
              refine Ensures.pure fun c hc => ?_
              obtain ⟨rest, hbs, hc⟩ := hc
              exact ⟨_, rest, opening_of_classify hl, hbs, hc⟩
        · exact Ensures.throw

/-! Member names. -/

theorem attains_name (lenient : Bool) (rest : List UInt8) {s : String} {q : List Char}
    (h : Grammar.Quoted s q) :
    ∃ u, encode q ++ rest = Ascii.doubleQuote :: u ∧
      Attains (fun c => c.At Ascii.doubleQuote u) (name lenient Ascii.doubleQuote) fun a c =>
        a = .name s ∧ c.Over rest := by
  obtain ⟨u, hu, hx⟩ := attains_quoted lenient rest h
  refine ⟨u, hu, Attains.bind attains_advance fun _ => Attains.bind hx fun a => ?_⟩
  rintro c ⟨rfl, hc⟩
  exact ⟨_, c, rfl, rfl, hc⟩

theorem ensures_name_over {b : UInt8} :
    Ensures (fun c => c.At b bs) (name false b) fun l c =>
      ∃ s q rest, l = .name s ∧ Grammar.Quoted s q ∧ b :: bs = encode q ++ rest ∧
        c.Over rest := by
  unfold name
  split
  · rename_i hb
    obtain rfl : b = Ascii.doubleQuote := by simpa [opensQuoted] using hb
    refine Ensures.bind ensures_advance_over fun _ =>
      Ensures.bind ensures_quoted_over fun s => Ensures.pure fun c hc => ?_
    obtain ⟨q, rest, hq, hbs, hc⟩ := hc
    exact ⟨s, q, rest, rfl, hq, hbs, hc⟩
  · split
    · rename_i hb
      exact absurd hb.1 (by decide)
    · exact Ensures.throw

end LexM

end TypedJson
