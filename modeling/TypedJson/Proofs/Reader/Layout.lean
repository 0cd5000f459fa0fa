import TypedJson.Proofs.Lexing.Gap
import TypedJson.Proofs.Reader.Expects

/-!
# Reading a layout

Which pieces are taken for the next unit in each grammar position. Whatever the gaps contain, the
lexing operation of that position takes these pieces and leaves the layout of the others. A strict
reader takes nothing else, and a comma in front of a closing bracket makes no difference to what a
lenient one takes.
-/

set_option autoImplicit false
set_option relaxedAutoImplicit false

namespace TypedJson

open Operation
open Grammar (Piece Place Trailing)

namespace Grammar

def Place.first : Place → Bool
  | .firstItem | .firstMember => true
  | _ => false

/-- In this place, some pieces are taken for a unit, and others are left. -/
inductive Place.Takes (lenient : Bool) : Place → List Piece → Lexeme → List Piece → Prop where
  | item {l : Lexeme} {s : List Char} {rest : List Piece} :
      Takes lenient .firstItem (.unit l s :: rest) l rest
  | noItem {rest : List Piece} :
      Takes lenient .firstItem (.sign Ascii.closeBracket :: rest) .endArray rest
  | nextItem {l : Lexeme} {s : List Char} {rest : List Piece} :
      Takes lenient .nextItem (.sign Ascii.comma :: .unit l s :: rest) l rest
  | lastItem {rest : List Piece} :
      Takes lenient .nextItem (.sign Ascii.closeBracket :: rest) .endArray rest
  | trailingItem {rest : List Piece} : lenient = true →
      Takes lenient .nextItem (.sign Ascii.comma :: .sign Ascii.closeBracket :: rest) .endArray rest
  | member {text : String} {s : List Char} {rest : List Piece} :
      Takes lenient .firstMember (.unit (.string text) s :: rest) (.name text) rest
  | noMember {rest : List Piece} :
      Takes lenient .firstMember (.sign Ascii.closeBrace :: rest) .endObject rest
  | nextMember {text : String} {s : List Char} {rest : List Piece} :
      Takes lenient .nextMember (.sign Ascii.comma :: .unit (.string text) s :: rest) (.name text)
        rest
  | lastMember {rest : List Piece} :
      Takes lenient .nextMember (.sign Ascii.closeBrace :: rest) .endObject rest
  | trailingMember {rest : List Piece} : lenient = true →
      Takes lenient .nextMember (.sign Ascii.comma :: .sign Ascii.closeBrace :: rest) .endObject
        rest
  | value {l : Lexeme} {s : List Char} {rest : List Piece} :
      Takes lenient .memberValue (.sign Ascii.colon :: .unit l s :: rest) l rest

variable {fresh : Bool} {place : Place} {pieces pieces' rest : List Piece} {l : Lexeme}

/-- A lenient reader takes the same unit when there are commas in front of closing brackets. -/
theorem Trailing.takes (h : Trailing fresh pieces pieces') (ht : place.Takes false pieces l rest)
    (first : place.first = true → fresh = true) :
    ∃ rest', place.Takes true pieces' l rest' ∧ Trailing l.opens rest rest' := by
  cases ht with
  | item =>
      cases h with
      | keep h => exact ⟨_, .item, h⟩
  | noItem =>
      cases first rfl
      cases h with
      | keep h => exact ⟨_, .noItem, h⟩
  | nextItem =>
      cases h with
      | keep h =>
          cases h with
          | keep h => exact ⟨_, .nextItem, h⟩
      | comma closes _ => exact absurd closes (by decide)
  | lastItem =>
      cases h with
      | keep h => exact ⟨_, .lastItem, h⟩
      | comma _ h => exact ⟨_, .trailingItem rfl, h⟩
  | trailingItem allowed => cases allowed
  | member =>
      cases h with
      | keep h => exact ⟨_, .member, h⟩
  | noMember =>
      cases first rfl
      cases h with
      | keep h => exact ⟨_, .noMember, h⟩
  | nextMember =>
      cases h with
      | keep h =>
          cases h with
          | keep h => exact ⟨_, .nextMember, h⟩
      | comma closes _ => exact absurd closes (by decide)
  | lastMember =>
      cases h with
      | keep h => exact ⟨_, .lastMember, h⟩
      | comma _ h => exact ⟨_, .trailingMember rfl, h⟩
  | trailingMember allowed => cases allowed
  | value =>
      cases h with
      | keep h =>
          cases h with
          | keep h => exact ⟨_, .value, h⟩
      | comma closes _ => exact absurd closes (by decide)

end Grammar

namespace ReadM

variable {lenient first : Bool} {behind : List UInt8} {pieces rest : List Piece}
variable {l : Lexeme} {text : String} {s : List Char} {r r' : Reader}

/-! Whatever a position has is taken. -/

section

variable {β : Type} {f : UInt8 → LexM β} {d : UInt8} {Q : β → Cursor → Prop}

private theorem attains_to_sign
    (h : Attains (fun c => c.Meets lenient behind (.sign d) rest d) (f d) Q) :
    Attains (fun c => c.Lays lenient behind (.sign d :: rest))
      (LexM.skipBlankToByte lenient >>= f) Q := by
  refine Attains.bind LexM.attains_toPiece fun b c meets => ?_
  obtain ⟨rfl, -⟩ := LexM.sign_of_meets meets
  exact h c meets

private theorem attains_to_unit
    (h : ∀ b, b ∉ Piece.signs →
      Attains (fun c => c.Meets lenient behind (.unit l s) rest b) (f b) Q) :
    Attains (fun c => c.Lays lenient behind (.unit l s :: rest))
      (LexM.skipBlankToByte lenient >>= f) Q :=
  Attains.bind LexM.attains_toPiece fun b c meets => h b (LexM.not_sign_of_meets meets) c meets

private theorem attains_close {b : UInt8} {a : β} :
    Attains (fun c => c.Meets lenient behind (.sign d) rest b)
      (do LexM.advance; pure a) fun a' c => a' = a ∧ c.Lays lenient behind rest :=
  Attains.bind LexM.attains_advance_sign fun _ => Attains.pure fun _ lays => ⟨rfl, lays⟩

private theorem attains_past_sign {b : UInt8} {g : LexM β}
    (h : Attains (fun c => c.Lays lenient behind rest) g Q) :
    Attains (fun c => c.Meets lenient behind (.sign d) rest b) (do LexM.advance; g) Q :=
  Attains.bind LexM.attains_advance_sign fun _ => h

end

private theorem ne_of_plain {b d : UInt8} (plain : b ∉ Piece.signs) (sign : d ∈ Piece.signs) :
    b ≠ d := by
  rintro rfl
  exact plain sign

theorem firstItem_of_takes (ht : Place.Takes lenient .firstItem pieces l rest) :
    Draws (firstItem lenient) (fun c => c.Lays lenient behind pieces) l
      fun c => c.Lays lenient behind rest := by
  apply draws_lex
  cases ht with
  | item =>
      apply attains_to_unit
      intro b plain
      rw [if_neg (ne_of_plain plain (by decide))]
      exact LexM.attains_value_unit
  | noItem => exact attains_to_sign attains_close

theorem nextItem_of_takes (ht : Place.Takes lenient .nextItem pieces l rest) :
    Draws (nextItem lenient) (fun c => c.Lays lenient behind pieces) l
      fun c => c.Lays lenient behind rest := by
  apply draws_lex
  cases ht with
  | lastItem => exact attains_to_sign attains_close
  | nextItem =>
      refine attains_to_sign (attains_past_sign (attains_to_unit ?_))
      intro b plain
      rw [if_neg (ne_of_plain plain (by decide))]
      exact LexM.attains_value_unit
  | trailingItem allowed =>
      subst allowed
      exact attains_to_sign (attains_past_sign (attains_to_sign attains_close))

theorem memberValue_of_takes (ht : Place.Takes lenient .memberValue pieces l rest) :
    Draws (memberValue lenient) (fun c => c.Lays lenient behind pieces) l
      fun c => c.Lays lenient behind rest := by
  apply draws_lex
  cases ht with
  | value =>
      refine attains_to_sign (attains_past_sign (attains_to_unit ?_))
      intro b plain
      exact LexM.attains_value_unit

theorem topValue_of_unit :
    Draws (topValue lenient) (fun c => c.Lays lenient behind (.unit l s :: rest)) l
      fun c => c.Lays lenient behind rest :=
  draws_lex (attains_to_unit fun _ _ => LexM.attains_value_unit)

/-- In a lenient document another value may come behind the top-level one. -/
theorem afterTopValue_of_unit :
    Draws (afterTopValue true) (fun c => c.Lays true behind (.unit l s :: rest)) l
      fun c => c.Lays true behind rest := by
  apply draws_lex
  intro c lays
  obtain ⟨b, c₁, found, meets⟩ := LexM.attains_toPiece c lays
  obtain ⟨a, c', run, value⟩ := LexM.attains_value_unit c₁ meets
  exact ⟨a, c', (bind_of_ok (LexM.skipBlank_of_toByte found)).trans run, value⟩

theorem afterTopValue_of_end :
    Draws (afterTopValue lenient) (fun c => c.Lays lenient [] []) .endDocument
      fun c => c.Over [] := by
  refine draws_lex (Attains.bind LexM.attains_toEnd fun a => ?_)
  rintro c ⟨rfl, held⟩
  exact ⟨_, c, rfl, rfl, held⟩

private theorem findMember_of_end
    (ht : (memberPlace first).Takes lenient pieces .endObject rest) :
    Draws (findMember lenient first) (fun c => c.Lays lenient behind pieces) none
      fun c => c.Lays lenient behind rest := by
  apply draws_lex
  cases first with
  | true =>
      cases ht with
      | noMember => exact attains_to_sign attains_close
  | false =>
      cases ht with
      | lastMember => exact attains_to_sign attains_close
      | trailingMember allowed =>
          subst allowed
          exact attains_to_sign (attains_past_sign (attains_to_sign attains_close))

private theorem findMember_of_name
    (ht : (memberPlace first).Takes lenient pieces (.name text) rest) :
    ∃ s, Draws (findMember lenient first) (fun c => c.Lays lenient behind pieces)
      (some Ascii.doubleQuote)
      fun c => c.Meets lenient behind (.unit (.string text) s) rest Ascii.doubleQuote := by
  have found {s : List Char} {b : UInt8} :
      Attains (fun c => c.Meets lenient behind (.unit (.string text) s) rest b)
        (pure (some b) : LexM (Option UInt8)) fun a c => a = some Ascii.doubleQuote ∧
          c.Meets lenient behind (.unit (.string text) s) rest Ascii.doubleQuote := by
    apply Attains.pure
    intro c meets
    obtain rfl := LexM.quote_of_meets meets
    exact ⟨rfl, meets⟩
  cases first with
  | true =>
      cases ht with
      | @member text s rest =>
          refine ⟨s, draws_lex (attains_to_unit fun b plain => ?_)⟩
          rw [if_neg (ne_of_plain plain (by decide))]
          exact found
  | false =>
      cases ht with
      | @nextMember text s rest =>
          refine ⟨s, draws_lex (attains_to_sign (attains_past_sign (attains_to_unit ?_)))⟩
          intro b plain
          rw [if_neg (ne_of_plain plain (by decide))]
          exact found

theorem member_of_end (first : Bool) (last : Option String)
    (ht : (memberPlace first).Takes lenient pieces .endObject rest) :
    Draws (member lenient first last) (fun c => c.Lays lenient behind pieces) .endObject
      fun c => c.Lays lenient behind rest := by
  intro r lays
  obtain ⟨c, found, behind⟩ := findMember_of_end ht r lays
  exact ⟨c, bind_of_ok found, behind⟩

theorem member_of_name (first : Bool) (last : Option String)
    (ht : (memberPlace first).Takes lenient pieces (.name text) rest)
    (lays : r.cursor.Lays lenient behind pieces) :
    ∃ c, member lenient first last r =
        .ok (.name text) { r.setContainer (.object .named last) with cursor := c } ∧
      c.Lays lenient behind rest := by
  obtain ⟨s, draws⟩ := findMember_of_name ht
  obtain ⟨c, found, meets⟩ := draws r lays
  obtain ⟨_, c', named, rfl, behind⟩ := LexM.attains_name_unit c meets
  have named := lex_of_ok (r := { r with cursor := c }.setContainer (.object .named last)) named
  exact ⟨c', (bind_of_ok found).trans named, behind⟩

/-! Nothing else is taken in a strict document. -/

private theorem next_of_sign {b d : UInt8} {c c₁ c₂ : Cursor} {p : Piece}
    (meets : c.Meets lenient [] p rest d) (sign : d ∈ Piece.signs)
    (past : LexM.advance c = .ok () c₁) (found : LexM.skipBlankToByte lenient c₁ = .ok b c₂) :
    p = .sign d ∧ ∃ next others, rest = next :: others ∧ c₂.Meets lenient [] next others b := by
  obtain rfl := LexM.eq_sign_of_meets meets sign
  have lays := LexM.attains_advance_sign.ensures _ _ _ meets past
  exact ⟨rfl, LexM.ensures_toPiece _ _ _ lays found⟩

theorem takes_of_firstItem (lays : r.cursor.Lays false [] pieces)
    (h : firstItem false r = .ok l r') : ∃ rest, Place.Takes false .firstItem pieces l rest := by
  obtain ⟨_, -, hx⟩ := lex_eq_ok h
  obtain ⟨b, c, found, hx⟩ := bind_eq_ok.mp hx
  obtain ⟨p, rest, rfl, meets⟩ := LexM.ensures_toPiece _ _ _ lays found
  split at hx
  · rename_i closing
    subst closing
    obtain rfl := LexM.eq_sign_of_meets meets (by decide)
    obtain ⟨_, _, -, ⟨⟩⟩ := bind_eq_ok.mp hx
    exact ⟨rest, .noItem⟩
  · obtain ⟨-, s, rfl⟩ := LexM.ensures_value_meets _ _ _ meets hx
    exact ⟨rest, .item⟩

theorem takes_of_nextItem (lays : r.cursor.Lays false [] pieces)
    (h : nextItem false r = .ok l r') : ∃ rest, Place.Takes false .nextItem pieces l rest := by
  obtain ⟨_, -, hx⟩ := lex_eq_ok h
  obtain ⟨b, c, found, hx⟩ := bind_eq_ok.mp hx
  obtain ⟨p, rest, rfl, meets⟩ := LexM.ensures_toPiece _ _ _ lays found
  split at hx
  · rename_i closing
    subst closing
    obtain rfl := LexM.eq_sign_of_meets meets (by decide)
    obtain ⟨_, _, -, ⟨⟩⟩ := bind_eq_ok.mp hx
    exact ⟨rest, .lastItem⟩
  · split at hx
    · rename_i comma
      subst comma
      obtain ⟨_, _, past, hx⟩ := bind_eq_ok.mp hx
      obtain ⟨b, c, found, hx⟩ := bind_eq_ok.mp hx
      obtain ⟨rfl, next, others, rfl, facing⟩ := next_of_sign meets (by decide) past found
      split at hx
      · cases hx
      · obtain ⟨-, s, rfl⟩ := LexM.ensures_value_meets _ _ _ facing hx
        exact ⟨others, .nextItem⟩
    · cases hx

theorem takes_of_memberValue (lays : r.cursor.Lays false [] pieces)
    (h : memberValue false r = .ok l r') :
    ∃ rest, Place.Takes false .memberValue pieces l rest := by
  obtain ⟨_, -, hx⟩ := lex_eq_ok h
  obtain ⟨b, c, found, hx⟩ := bind_eq_ok.mp hx
  obtain ⟨p, rest, rfl, meets⟩ := LexM.ensures_toPiece _ _ _ lays found
  split at hx
  · rename_i colon
    subst colon
    obtain ⟨_, _, past, hx⟩ := bind_eq_ok.mp hx
    obtain ⟨b, c, found, hx⟩ := bind_eq_ok.mp hx
    obtain ⟨rfl, next, others, rfl, facing⟩ := next_of_sign meets (by decide) past found
    obtain ⟨-, s, rfl⟩ := LexM.ensures_value_meets _ _ _ facing hx
    exact ⟨others, .value⟩
  · cases hx

theorem unit_of_topValue (lays : r.cursor.Lays false [] pieces)
    (h : topValue false r = .ok l r') : ∃ s rest, pieces = .unit l s :: rest := by
  obtain ⟨_, -, hx⟩ := lex_eq_ok h
  obtain ⟨b, c, found, hx⟩ := bind_eq_ok.mp hx
  obtain ⟨p, rest, rfl, meets⟩ := LexM.ensures_toPiece _ _ _ lays found
  obtain ⟨-, s, rfl⟩ := LexM.ensures_value_meets _ _ _ meets hx
  exact ⟨s, rest, rfl⟩

theorem end_of_afterTopValue (lays : r.cursor.Lays false [] pieces)
    (h : afterTopValue false r = .ok l r') : pieces = [] := by
  cases pieces with
  | nil => rfl
  | cons p rest =>
      obtain ⟨_, -, hx⟩ := lex_eq_ok h
      obtain ⟨b, c, found, -⟩ := LexM.attains_toPiece _ lays
      cases (bind_of_ok (LexM.skipBlank_of_toByte found)).symm.trans hx

private theorem takes_of_findMember {found : Option UInt8} (lays : r.cursor.Lays false [] pieces)
    (h : findMember false first r = .ok found r') :
    match found with
    | none => ∃ rest, (memberPlace first).Takes false pieces .endObject rest
    | some b => ∃ p rest, r'.cursor.Meets false [] p rest b ∧ ∀ text s, p = .unit (.string text) s →
        (memberPlace first).Takes false pieces (.name text) rest := by
  obtain ⟨c', rfl, hx⟩ := lex_eq_ok h
  obtain ⟨b, c, skipped, hx⟩ := bind_eq_ok.mp hx
  obtain ⟨p, rest, rfl, meets⟩ := LexM.ensures_toPiece _ _ _ lays skipped
  split at hx
  · rename_i closing
    subst closing
    obtain rfl := LexM.eq_sign_of_meets meets (by decide)
    obtain ⟨_, _, -, ⟨⟩⟩ := bind_eq_ok.mp hx
    cases first with
    | true => exact ⟨rest, .noMember⟩
    | false => exact ⟨rest, .lastMember⟩
  · cases first with
    | true =>
        cases hx
        refine ⟨p, rest, meets, ?_⟩
        rintro text s rfl
        exact .member
    | false =>
        rw [if_neg nofun] at hx
        split at hx
        · rename_i comma
          subst comma
          obtain ⟨_, _, past, hx⟩ := bind_eq_ok.mp hx
          obtain ⟨b, c, skipped, hx⟩ := bind_eq_ok.mp hx
          obtain ⟨rfl, next, others, rfl, facing⟩ := next_of_sign meets (by decide) past skipped
          split at hx
          · cases hx
          · cases hx
            refine ⟨next, others, facing, ?_⟩
            rintro text s rfl
            exact .nextMember
        · cases hx

theorem takes_of_member {last : Option String} (lays : r.cursor.Lays false [] pieces)
    (h : member false first last r = .ok l r') :
    ∃ rest, (memberPlace first).Takes false pieces l rest := by
  obtain ⟨found, r₁, looked, rest⟩ := bind_eq_ok.mp h
  have takes := takes_of_findMember lays looked
  cases found with
  | none =>
      cases rest
      exact takes
  | some b =>
      obtain ⟨p, others, meets, takes⟩ := takes
      obtain ⟨_, _, ⟨⟩, named⟩ := bind_eq_ok.mp rest
      obtain ⟨_, -, named⟩ := lex_eq_ok named
      obtain ⟨-, text, s, rfl, rfl⟩ := LexM.ensures_name_meets _ _ _ meets named
      exact ⟨others, takes text s rfl⟩

end ReadM

end TypedJson
