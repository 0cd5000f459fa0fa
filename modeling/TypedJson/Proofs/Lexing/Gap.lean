import TypedJson.Proofs.Grammar.Layout

set_option autoImplicit false
set_option relaxedAutoImplicit false

namespace TypedJson

open Operation
open Utf8 (encode)
open Bare (Stops)
open Grammar (Comment Cut EndsLine Gap Opening Piece)

namespace Blank

variable {lenient : Bool} {text body gap rest : List UInt8}

/-! Comments. -/

theorem outcome_line (within : ∀ b ∈ body, ¬ EndsLine b) (rest : List UInt8) :
    (scanner lenient).outcome .line (body ++ rest) = (scanner lenient).outcome .line rest := by
  induction body with
  | nil => rfl
  | cons b body ih =>
      obtain ⟨inside, others⟩ := List.forall_mem_cons.mp within
      rw [← ih others]
      exact Scanner.outcome_of_shift (if_neg inside) _

theorem outcome_lineEnd (ends : ∀ b, rest.head? = some b → EndsLine b) :
    (scanner lenient).outcome .line rest = (scanner lenient).outcome .between rest := by
  cases rest with
  | nil => rfl
  | cons b rest =>
      have ends : EndsLine b := ends b rfl
      have blank : Ascii.isBlank b = true := by rcases ends with rfl | rfl <;> rfl
      have leaves : (scanner lenient).move .line b = .shift .between := if_pos ends
      have skips : (scanner lenient).move .between b = .shift .between := if_pos blank
      rw [Scanner.outcome_of_shift leaves, Scanner.outcome_of_shift skips]

private def starred (star : Bool) (body : List UInt8) : List UInt8 :=
  if star then Ascii.star :: body else body

theorem outcome_block {star : Bool}
    (unclosed : ¬ [Ascii.star, Ascii.slash] <:+: starred star body) (rest : List UInt8) :
    (scanner lenient).outcome (.block star) (body ++ Ascii.star :: Ascii.slash :: rest) =
      (scanner lenient).outcome .between rest := by
  induction body generalizing star with
  | nil => cases star <;> rfl
  | cons b body ih =>
      have goesOn : ¬ (star = true ∧ b = Ascii.slash) := by
        rintro ⟨rfl, rfl⟩
        exact unclosed ⟨[], body, rfl⟩
      have inner : starred (b = Ascii.star) body <:+ b :: body := by
        unfold starred
        split
        · rename_i same
          obtain rfl := of_decide_eq_true same
          exact List.suffix_rfl
        · exact List.suffix_cons b body
      have later : starred (b = Ascii.star) body <:+ starred star (b :: body) := by
        cases star with
        | false => exact inner
        | true => exact inner.trans (List.suffix_cons Ascii.star (b :: body))
      rw [← ih fun closed => unclosed (closed.trans later.isInfix)]
      exact Scanner.outcome_of_shift (if_neg goesOn) _

theorem outcome_comment (h : Comment text rest) :
    (scanner true).outcome .between (text ++ rest) = (scanner true).outcome .between rest := by
  cases h with
  | @block body _ unclosed =>
      rw [← @outcome_block true body false unclosed rest]
      simp only [List.cons_append, List.append_assoc, List.nil_append]
      rfl
  | @line mark body _ mark within ends =>
      rw [List.append_assoc, ← outcome_lineEnd ends, ← outcome_line within rest]
      rcases mark with rfl | rfl <;> rfl

theorem outcome_gap (h : Gap lenient gap rest) :
    (scanner lenient).outcome .between (gap ++ rest) = (scanner lenient).outcome .between rest := by
  induction h with
  | none => rfl
  | blank hb _ ih =>
      rw [← ih]
      exact Scanner.outcome_of_shift (if_pos hb) _
  | comment allowed comment _ ih =>
      subst allowed
      rw [List.append_assoc, outcome_comment comment, ih]

end Blank

namespace Cursor

def Lays (lenient : Bool) (behind : List UInt8) (pieces : List Piece) (c : Cursor) : Prop :=
  ∃ bytes, c.Over bytes ∧ Cut lenient behind pieces bytes

/-- The cursor stands right in front of a piece, which begins with the byte `b`, and the others are
laid out behind it. -/
def Meets (lenient : Bool) (behind : List UInt8) (p : Piece) (pieces : List Piece) (b : UInt8)
    (c : Cursor) : Prop :=
  ∃ u bytes, c.At b u ∧ b :: u = p.bytes ++ bytes ∧ p.Fits bytes ∧ Cut lenient behind pieces bytes

end Cursor

namespace LexM

variable {lenient : Bool} {gap behind bytes : List UInt8} {pieces : List Piece} {p : Piece}
variable {l : Lexeme} {b d : UInt8} {s : List Char} {text : String} {c : Cursor}

/-! The next piece. -/

private theorem attains_unit (lenient : Bool) (fits : (Piece.unit l s).Fits bytes) :
    ∃ b u, encode s ++ bytes = b :: u ∧ Blank.Solid b ∧
      Attains (fun c => c.At b u) (value lenient b) fun a c => a = l ∧ c.Over bytes := by
  obtain ⟨opening, stops⟩ := fits
  have delimited : l ≠ .beginObject → l ≠ .beginArray → Stops bytes := by
    intro object array
    apply stops
    cases l with
    | beginObject => exact absurd rfl object
    | beginArray => exact absurd rfl array
    | _ => rfl
  obtain ⟨b, u, front, solid, -, lexed⟩ :=
    attains_value (Grammar.numerals_number lenient) opening delimited
  exact ⟨b, u, front, solid, lexed⟩

private theorem solid_of_sign (h : b ∈ Piece.signs) : Blank.Solid b := by
  rcases Piece.mem_signs_iff.mp h with rfl | rfl | rfl | rfl <;> exact ⟨rfl, by decide, by decide⟩

theorem attains_toPiece : Attains (fun c => c.Lays lenient behind (p :: pieces))
    (skipBlankToByte lenient) fun b c => c.Meets lenient behind p pieces b := by
  rintro c ⟨_, held, cut⟩
  obtain ⟨gap, bytes, rfl, gaps, fits, rest⟩ := cut.first
  obtain ⟨b, u, front, solid⟩ : ∃ b u, p.bytes ++ bytes = b :: u ∧ Blank.Solid b := by
    cases p with
    | unit l s =>
        obtain ⟨b, u, front, solid, -⟩ := attains_unit lenient fits
        exact ⟨b, u, front, solid⟩
    | sign b => exact ⟨b, bytes, rfl, solid_of_sign fits⟩
  rw [front] at gaps held
  have outcome : (Blank.scanner lenient).outcome .between (gap ++ b :: u) =
      (.ok (some b), b :: u) := by
    rw [Blank.outcome_gap gaps, Blank.outcome_solid solid]
  obtain ⟨_, c', run, rfl, reached⟩ := attains_toByte outcome c held
  exact ⟨_, c', run, u, bytes, reached, front.symm, fits, rest⟩

theorem skipBlank_of_toByte {c' : Cursor} (h : skipBlankToByte lenient c = .ok b c') :
    skipBlank lenient c = .ok (some b) c' := by
  obtain ⟨a, _, skipped, rest⟩ := bind_eq_ok.mp h
  cases a with
  | none => cases rest
  | some a =>
      cases rest
      exact skipped

theorem attains_toEnd : Attains (fun c => c.Lays lenient [] []) (skipBlank lenient)
    fun a c => a = none ∧ c.Over [] := by
  rintro c ⟨_, held, ⟨done, -, -⟩⟩
  cases done with
  | done gaps => exact attains_scan (Blank.outcome_gap gaps) c held

theorem ensures_toPiece : Ensures (fun c => c.Lays lenient [] pieces) (skipBlankToByte lenient)
    fun b c => ∃ p rest, pieces = p :: rest ∧ c.Meets lenient [] p rest b := by
  intro c b c' lays run
  cases pieces with
  | nil =>
      obtain ⟨_, _, none, rfl, -⟩ := attains_toEnd c lays
      cases (bind_of_ok none).symm.trans run
  | cons p rest =>
      exact ⟨p, rest, rfl, attains_toPiece.ensures c b c' lays run⟩

theorem attains_value_unit : Attains (fun c => c.Meets lenient behind (.unit l s) pieces b)
    (value lenient b) fun a c => a = l ∧ c.Lays lenient behind pieces := by
  rintro c ⟨u, bytes, held, front, fits, rest⟩
  obtain ⟨_, _, front', -, lexed⟩ := attains_unit lenient fits
  cases front.trans front'
  obtain ⟨a, c', run, same, held'⟩ := lexed c held
  exact ⟨a, c', run, same, bytes, held', rest⟩

theorem attains_advance_sign : Attains (fun c => c.Meets lenient behind (.sign d) pieces b)
    advance fun _ c => c.Lays lenient behind pieces := by
  rintro c ⟨u, bytes, held, front, -, rest⟩
  cases front
  obtain ⟨a, c', run, held'⟩ := attains_advance c held
  exact ⟨a, c', run, _, held', rest⟩

theorem value_of_sign (lenient : Bool) (h : b ∈ Piece.signs) :
    ∃ fault, value lenient b = fail fault := by
  rcases Piece.mem_signs_iff.mp h with rfl | rfl | rfl | rfl
  · exact ⟨.unexpectedComma, rfl⟩
  · exact ⟨.unexpectedColon, rfl⟩
  · exact ⟨.unexpectedClosingBracket, rfl⟩
  · exact ⟨.unexpectedClosingBracket, rfl⟩

theorem sign_of_meets (h : c.Meets lenient behind (.sign d) pieces b) :
    b = d ∧ d ∈ Piece.signs := by
  obtain ⟨u, bytes, -, front, fits, -⟩ := h
  cases front
  exact ⟨rfl, fits⟩

theorem not_sign_of_meets (h : c.Meets lenient behind (.unit l s) pieces b) : b ∉ Piece.signs := by
  intro sign
  obtain ⟨a, c', run, -⟩ := attains_value_unit c h
  obtain ⟨fault, none⟩ := value_of_sign lenient sign
  rw [none] at run
  cases run

theorem ensures_value_meets : Ensures (fun c => c.Meets lenient behind p pieces b)
    (value lenient b) fun a c => c.Lays lenient behind pieces ∧ ∃ s, p = .unit a s := by
  intro c a c' meets run
  cases p with
  | sign d =>
      obtain ⟨rfl, sign⟩ := sign_of_meets meets
      obtain ⟨fault, none⟩ := value_of_sign lenient sign
      rw [none] at run
      cases run
  | unit l s =>
      obtain ⟨rfl, rest⟩ := attains_value_unit.ensures c a c' meets run
      exact ⟨rest, s, rfl⟩

theorem eq_sign_of_meets (h : c.Meets lenient behind p pieces b) (hb : b ∈ Piece.signs) :
    p = .sign b := by
  cases p with
  | sign d =>
      obtain ⟨rfl, -⟩ := sign_of_meets h
      rfl
  | unit l s => exact absurd hb (not_sign_of_meets h)

private theorem spelling_unique {rest rest' : List Piece} {s' : List Char}
    (h : c.Meets lenient behind (.unit l s) rest b)
    (h' : c.Meets lenient behind (.unit l s') rest' b) : s = s' := by
  obtain ⟨u, bytes, held, front, fits, -⟩ := h
  obtain ⟨u', bytes', held', front', fits', -⟩ := h'
  cases held.1.unique held'.1
  obtain ⟨_, _, head, -, lexed⟩ := attains_unit lenient fits
  obtain ⟨_, _, head', -, lexed'⟩ := attains_unit lenient fits'
  cases front.trans head
  cases front'.trans head'
  obtain ⟨_, _, run, -, reached⟩ := lexed c held
  obtain ⟨_, reached'⟩ := lexed'.ensures _ _ _ held run
  cases reached.unique reached'
  exact Utf8.encode_inj (List.append_cancel_right (front.symm.trans front'))

/-- There is one way only to cut what is in front of a cursor into pieces. -/
theorem pieces_unique {pieces' : List Piece} (h : c.Lays lenient [] pieces)
    (h' : c.Lays lenient [] pieces') : pieces = pieces' := by
  induction pieces generalizing c pieces' with
  | nil =>
      cases pieces' with
      | nil => rfl
      | cons p' rest' =>
          obtain ⟨b, _, found, -⟩ := attains_toPiece c h'
          obtain ⟨_, _, none, rfl, -⟩ := attains_toEnd c h
          cases none.symm.trans (skipBlank_of_toByte found)
  | cons p rest ih =>
      obtain ⟨b, c₁, found, meets⟩ := attains_toPiece c h
      obtain ⟨p', rest', rfl, meets'⟩ := ensures_toPiece _ _ _ h' found
      cases p with
      | sign d =>
          obtain ⟨rfl, sign⟩ := sign_of_meets meets
          obtain rfl := eq_sign_of_meets meets' sign
          obtain ⟨_, c₂, past, lays⟩ := attains_advance_sign c₁ meets
          rw [ih lays (attains_advance_sign.ensures _ _ _ meets' past)]
      | unit l s =>
          obtain ⟨_, c₂, value, rfl, lays⟩ := attains_value_unit c₁ meets
          obtain ⟨lays', s', rfl⟩ := ensures_value_meets _ _ _ meets' value
          rw [ih lays lays', spelling_unique meets meets']

/-! The next member name. -/

theorem quote_of_meets (h : c.Meets lenient behind (.unit (.string text) s) pieces b) :
    b = Ascii.doubleQuote := by
  obtain ⟨u, bytes, -, front, ⟨opening, -⟩, -⟩ := h
  cases opening with
  | string quoted =>
      obtain ⟨_, front', -⟩ := attains_quoted lenient bytes quoted
      cases front.trans front'
      rfl

theorem attains_name_unit :
    Attains (fun c => c.Meets lenient behind (.unit (.string text) s) pieces b) (name lenient b)
      fun a c => a = .name text ∧ c.Lays lenient behind pieces := by
  rintro c ⟨u, bytes, held, front, ⟨opening, -⟩, rest⟩
  cases opening with
  | string quoted =>
      obtain ⟨_, front', lexed⟩ := attains_name lenient bytes quoted
      cases front.trans front'
      obtain ⟨a, c', run, same, held'⟩ := lexed c held
      exact ⟨a, c', run, same, bytes, held', rest⟩

private theorem yields_string :
    Yields (value lenient Ascii.doubleQuote) fun l => ∃ text, l = .string text := by
  have quoted : value lenient Ascii.doubleQuote = (do
      advance
      pure (.string (← quoted ⟨Ascii.doubleQuote, lenient⟩))) := rfl
  rw [quoted]
  exact .bind fun _ => .bind fun text => .pure ⟨text, rfl⟩

theorem ensures_name_meets :
    Ensures (fun c => c.Meets false behind p pieces b) (name false b) fun a c =>
      c.Lays false behind pieces ∧ ∃ text s, a = .name text ∧ p = .unit (.string text) s := by
  intro c a c' meets run
  by_cases quote : b = Ascii.doubleQuote
  · subst quote
    cases p with
    | sign d =>
        obtain ⟨rfl, sign⟩ := sign_of_meets meets
        exact absurd sign (by decide)
    | unit l s =>
        obtain ⟨_, _, lexed, rfl, -⟩ := attains_value_unit c meets
        obtain ⟨text, rfl⟩ := yields_string c _ _ lexed
        obtain ⟨rfl, rest⟩ := attains_name_unit.ensures c a c' meets run
        exact ⟨rest, text, s, rfl, rfl⟩
  · have none : name false b = fail .expectingMemberNameOrObjectEnd := by
      simp [name, opensQuoted, quote]
    rw [none] at run
    cases run

end LexM

end TypedJson
