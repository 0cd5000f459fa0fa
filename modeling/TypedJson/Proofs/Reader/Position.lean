import TypedJson.Proofs.Grammar.Position
import TypedJson.Proofs.Reader.Next

set_option autoImplicit false
set_option relaxedAutoImplicit false

namespace TypedJson

open Operation
open Utf8 (encode)
open Bare (Stops)
open Grammar

/-! What stops an unquoted literal. -/

theorem Bare.stops_blank {w : List Char} (hw : Grammar.Blank w) {bs : List UInt8} (hbs : Stops bs) :
    Stops (encode w ++ bs) := by
  cases w with
  | nil => exact hbs
  | cons c w =>
      rcases hw c (by simp) with rfl | rfl | rfl | rfl <;>
      · change Ascii.isLiteral _ = false
        decide

namespace Grammar

def Place.BehindValue : List Place → Prop
  | [] | .nextItem :: _ | .nextMember :: _ => True
  | _ => False

variable {N : List Char → Prop} {places : List Place} {room : Nat} {bs : List UInt8}
variable {evs : List Event}

theorem stops_of_follow (hp : Place.BehindValue places) (h : Follow N places room bs evs) :
    Stops bs := by
  cases places with
  | nil =>
      obtain ⟨-, w, hw, rfl⟩ := h
      have stops : Stops (encode w ++ []) := Bare.stops_blank hw trivial
      rwa [List.append_nil] at stops
  | cons place places =>
      cases place with
      | nextItem =>
          obtain ⟨w, _, hw, rfl, ⟨rest, _, _, rfl, _⟩ | ⟨u, rest, _, rfl, _⟩⟩ :=
            follow_nextItem.mp h
          · exact Bare.stops_blank hw rfl
          · exact Bare.stops_blank hw rfl
      | nextMember =>
          obtain ⟨w, _, hw, rfl, ⟨rest, _, _, rfl, _⟩ | ⟨u, rest, _, rfl, _⟩⟩ :=
            follow_nextMember.mp h
          · exact Bare.stops_blank hw rfl
          · exact Bare.stops_blank hw rfl
      | firstItem => exact absurd hp id
      | firstMember => exact absurd hp id
      | memberValue => exact absurd hp id

theorem value_ahead {lenient : Bool} (hN : Numerals lenient N)
    (h : ValueThen N places room bs evs) (hp : Place.BehindValue places) :
    ∃ b u l rest, bs = b :: u ∧ Blank.Solid b ∧ b ≠ Ascii.closeBracket ∧
      Attains (fun c => c.At b u) (LexM.value lenient b)
        (fun a c => a = l ∧ c.Over rest) ∧
      Behind N places room rest evs l := by
  obtain ⟨l, s, rest, hl, rfl, behind⟩ := valueThen_iff.mp h
  have stops : l ≠ .beginObject → l ≠ .beginArray → Stops rest := by
    intro object array
    cases hl with
    | object => exact absurd rfl object
    | array => exact absurd rfl array
    | string _ =>
        obtain ⟨_, _, hf⟩ := behind
        exact stops_of_follow hp hf
    | number _ =>
        obtain ⟨_, _, hf⟩ := behind
        exact stops_of_follow hp hf
    | yes =>
        obtain ⟨_, _, hf⟩ := behind
        exact stops_of_follow hp hf
    | no =>
        obtain ⟨_, _, hf⟩ := behind
        exact stops_of_follow hp hf
    | null =>
        obtain ⟨_, _, hf⟩ := behind
        exact stops_of_follow hp hf
  obtain ⟨b, u, hb, solid, ne, hx⟩ := LexM.attains_value hN hl stops
  exact ⟨b, u, l, rest, hb, solid, ne, hx, behind⟩

end Grammar

namespace ReadM

/-- The operation answers `a` and moves the cursor from where it has `P` to where it has `Q`,
whatever else the reader is about. -/
def Draws {α : Type} (x : ReadM α) (P : Cursor → Prop) (a : α) (Q : Cursor → Prop) : Prop :=
  ∀ r : Reader, P r.cursor → ∃ c, x r = .ok a { r with cursor := c } ∧ Q c

/-- The operation takes a unit from these bytes and leaves the cursor with `P`, whatever else the
reader is about. -/
def Lexes {α : Type} (x : ReadM α) (bs : List UInt8) (a : α) (P : Cursor → Prop) : Prop :=
  ∀ r : Reader, r.cursor.Over bs → ∃ c, x r = .ok a { r with cursor := c } ∧ P c

variable {α : Type} {N : List Char → Prop} {places : List Place} {room : Nat} {bs rest : List UInt8}
variable {evs : List Event} {lenient : Bool} {l : Lexeme}

theorem draws_lex {x : LexM α} {a : α} {P Q : Cursor → Prop}
    (hx : Attains P x fun a' c => a' = a ∧ Q c) : Draws (lex x) P a Q := by
  intro r hr
  obtain ⟨a, c, ha, rfl, hc⟩ := hx r.cursor hr
  exact ⟨c, lex_of_ok ha, hc⟩

theorem lexes_lex {x : LexM α} {a : α} {P : Cursor → Prop}
    (hx : Attains (fun c => c.Over bs) x fun a' c => a' = a ∧ P c) : Lexes (lex x) bs a P :=
  draws_lex hx

/-! What is lexed behind blank text, and behind a mark. -/

section

variable {f : UInt8 → LexM α} {a : α} {P : Cursor → Prop} {w : List Char} {b d : UInt8}

theorem attains_behind_blank (hw : Grammar.Blank w) (solid : Blank.Solid b)
    (hx : Attains (fun c => c.At b rest) (f b) fun a' c => a' = a ∧ P c) :
    Attains (fun c => c.Over (encode w ++ b :: rest)) (LexM.skipBlankToByte lenient >>= f)
      fun a' c => a' = a ∧ P c := by
  refine (LexM.attains_skipBlankToByte hw solid).bind fun b' => ?_
  rintro c ⟨rfl, hc⟩
  exact hx c hc

theorem attains_behind_mark (hw : Grammar.Blank w) (solid : Blank.Solid b)
    (hx : Attains (fun c => c.At b rest) (f b) fun a' c => a' = a ∧ P c) :
    Attains (fun c => c.At d (encode w ++ b :: rest))
      (do LexM.advance; let b ← LexM.skipBlankToByte lenient; f b) fun a' c => a' = a ∧ P c :=
  LexM.attains_advance.bind fun _ => attains_behind_blank hw solid hx

theorem attains_mark : Attains (fun c => c.At d rest) (do LexM.advance; pure a) fun a' c =>
    a' = a ∧ c.Over rest :=
  LexM.attains_advance.bind fun _ => Attains.pure fun _ h => ⟨rfl, h⟩

end

/-! Whatever the grammar admits is lexed. -/

section

variable (hN : Numerals lenient N)
include hN

theorem lexes_firstItem (h : Follow N (.firstItem :: places) room bs evs) :
    ∃ l rest, Lexes (firstItem lenient) bs l (fun c => c.Over rest) ∧
      Behind N (.nextItem :: places) room rest evs l := by
  obtain ⟨w, _, hw, rfl, ⟨rest, evs', hf, rfl, rfl⟩ | value⟩ := follow_firstItem.mp h
  · refine ⟨.endArray, rest, lexes_lex (attains_behind_blank hw ⟨rfl, by decide, by decide⟩ ?_),
      evs', rfl, hf⟩
    rw [if_pos rfl]
    exact attains_mark
  · obtain ⟨b, u, l, rest, rfl, solid, ne, hx, behind⟩ := value_ahead hN value trivial
    refine ⟨l, rest, lexes_lex (attains_behind_blank hw solid ?_), behind⟩
    rw [if_neg ne]
    exact hx

theorem lexes_nextItem (h : Follow N (.nextItem :: places) room bs evs) :
    ∃ l rest, Lexes (nextItem lenient) bs l (fun c => c.Over rest) ∧
      Behind N (.nextItem :: places) room rest evs l := by
  obtain ⟨w, _, hw, rfl, ⟨rest, evs', hf, rfl, rfl⟩ | ⟨v, _, hv, rfl, value⟩⟩ :=
    follow_nextItem.mp h
  · refine ⟨.endArray, rest, lexes_lex (attains_behind_blank hw ⟨rfl, by decide, by decide⟩ ?_),
      evs', rfl, hf⟩
    rw [if_pos rfl]
    exact attains_mark
  · obtain ⟨b, u, l, rest, rfl, solid, ne, hx, behind⟩ := value_ahead hN value trivial
    refine ⟨l, rest, lexes_lex (attains_behind_blank hw ⟨rfl, by decide, by decide⟩ ?_), behind⟩
    rw [if_neg (by decide), if_pos rfl]
    refine attains_behind_mark hv solid ?_
    rw [if_neg ne]
    exact hx

theorem lexes_memberValue (h : Follow N (.memberValue :: places) room bs evs) :
    ∃ l rest, Lexes (memberValue lenient) bs l (fun c => c.Over rest) ∧
      Behind N (.nextMember :: places) room rest evs l := by
  obtain ⟨w, v, _, hw, hv, rfl, value⟩ := follow_memberValue.mp h
  obtain ⟨b, u, l, rest, rfl, solid, ne, hx, behind⟩ := value_ahead hN value trivial
  refine ⟨l, rest, lexes_lex (attains_behind_blank hw ⟨rfl, by decide, by decide⟩ ?_), behind⟩
  rw [if_pos rfl]
  exact attains_behind_mark hv solid hx

theorem lexes_topValue {w : List Char} (hw : Grammar.Blank w)
    (value : ValueThen N [] room bs evs) :
    ∃ l rest, Lexes (topValue lenient) (encode w ++ bs) l (fun c => c.Over rest) ∧
      Behind N [] room rest evs l := by
  obtain ⟨b, u, l, rest, rfl, solid, ne, hx, behind⟩ := value_ahead hN value trivial
  exact ⟨l, rest, lexes_lex (attains_behind_blank hw solid hx), behind⟩

end

theorem lexes_afterTopValue (h : Follow N [] room bs evs) :
    Lexes (afterTopValue lenient) bs .endDocument (fun c => c.Over []) ∧
      Behind N [] room [] evs .endDocument := by
  obtain ⟨rfl, w, hw, rfl⟩ := h
  refine ⟨lexes_lex (Attains.bind (LexM.attains_skipBlank hw) fun a => ?_), rfl, rfl, rfl⟩
  rintro c ⟨rfl, hc⟩
  exact ⟨_, c, rfl, rfl, hc⟩

def memberPlace (first : Bool) : Place :=
  if first then .firstMember else .nextMember

private theorem lexes_findMember_end (lenient first : Bool) {w : List Char}
    (hw : Grammar.Blank w) (rest : List UInt8) :
    Lexes (findMember lenient first) (encode w ++ Ascii.closeBrace :: rest) none
      fun c => c.Over rest := by
  refine lexes_lex (attains_behind_blank hw ⟨rfl, by decide, by decide⟩ ?_)
  rw [if_pos rfl]
  exact attains_mark

theorem lexes_findMember (lenient : Bool) {first : Bool}
    (h : Follow N (memberPlace first :: places) room bs evs) :
    (∃ rest, Lexes (findMember lenient first) bs none (fun c => c.Over rest) ∧
        ∃ evs', evs = .endObject :: evs' ∧ Follow N places (room + 1) rest evs') ∨
      ∃ u, Lexes (findMember lenient first) bs (some Ascii.doubleQuote)
          (fun c => c.At Ascii.doubleQuote u) ∧
        NameThen N places room (Ascii.doubleQuote :: u) evs := by
  have quote {rest : List UInt8} (h : NameThen N places room rest evs) :
      ∃ u, rest = Ascii.doubleQuote :: u := by
    obtain ⟨_, _, _, _, hn, -, rfl, -⟩ := h
    obtain ⟨u, hu, -⟩ := LexM.attains_quoted false _ hn
    exact ⟨u, hu⟩
  cases first with
  | true =>
      obtain ⟨w, _, hw, rfl, ⟨rest, evs', hf, rfl, rfl⟩ | name⟩ := follow_firstMember.mp h
      · exact .inl ⟨rest, lexes_findMember_end lenient _ hw rest, evs', rfl, hf⟩
      · obtain ⟨u, rfl⟩ := quote name
        refine .inr ⟨u, lexes_lex (attains_behind_blank hw ⟨rfl, by decide, by decide⟩ ?_), name⟩
        exact Attains.pure fun _ hc => ⟨rfl, hc⟩
  | false =>
      obtain ⟨w, _, hw, rfl, ⟨rest, evs', hf, rfl, rfl⟩ | ⟨v, _, hv, rfl, name⟩⟩ :=
        follow_nextMember.mp h
      · exact .inl ⟨rest, lexes_findMember_end lenient _ hw rest, evs', rfl, hf⟩
      · obtain ⟨u, rfl⟩ := quote name
        refine .inr ⟨u, lexes_lex (attains_behind_blank hw ⟨rfl, by decide, by decide⟩ ?_), name⟩
        refine attains_behind_mark hv ⟨rfl, by decide, by decide⟩ ?_
        exact Attains.pure fun _ hc => ⟨rfl, hc⟩

theorem member_of_follow (lenient : Bool) {first : Bool} (last : Option String) {r : Reader}
    (hr : r.cursor.Over bs)
    (h : Follow N (memberPlace first :: places) room bs evs) :
    ∃ c rest, c.Over rest ∧
      ((member lenient first last r = .ok .endObject { r with cursor := c } ∧
          ∃ evs', evs = .endObject :: evs' ∧ Follow N places (room + 1) rest evs') ∨
        ∃ s, member lenient first last r =
            .ok (.name s) { r.setContainer (.object .named last) with cursor := c } ∧
          Behind N (.memberValue :: places) room rest evs (.name s)) := by
  obtain ⟨rest, hx, behind⟩ | ⟨u, hx, name, n, rest, evs', hn, hf, hu, rfl⟩ :=
    lexes_findMember lenient h
  · obtain ⟨c, hc, held⟩ := hx r hr
    exact ⟨c, rest, held, .inl ⟨bind_of_ok hc, behind⟩⟩
  · obtain ⟨c, hc, held⟩ := hx r hr
    obtain ⟨v, hv, hy⟩ := LexM.attains_name lenient rest hn
    cases hu.trans hv
    obtain ⟨_, c', hx, rfl, held'⟩ := hy c held
    have hc' := lex_of_ok (r := { r with cursor := c }.setContainer (.object .named last)) hx
    exact ⟨c', rest, held', .inr ⟨name, (bind_of_ok hc).trans hc', evs', rfl, hf⟩⟩

/-! Whatever is lexed in a strict document is admitted by the grammar. -/

section

variable {r r' : Reader}

private theorem valueThen_of_opening {s : List Char}
    (hl : Opening Grammar.Number l s) (behind : Behind Grammar.Number places room rest evs l) :
    ValueThen Grammar.Number places room (encode s ++ rest) evs :=
  valueThen_iff.mpr ⟨l, s, rest, hl, rfl, behind⟩

/-- The unit is within the document, and whatever may follow behind it, in front of the rest, may
follow in front of it. -/
def Leads (place place' : Place) (bs : List UInt8) (l : Lexeme) (rest : List UInt8) : Prop :=
  l ≠ .endDocument ∧ ∀ places room evs, Behind Grammar.Number (place' :: places) room rest evs l →
    Follow Grammar.Number (place :: places) room bs evs

private theorem byte_of_lex {f : UInt8 → LexM α} {a : α} (hr : r.cursor.Over bs)
    (h : lex (LexM.skipBlankToByte false >>= f) r = .ok a r') :
    ∃ c', r' = { r with cursor := c' } ∧ ∃ w b rest c, Grammar.Blank w ∧
      bs = encode w ++ b :: rest ∧ c.At b rest ∧ f b c = .ok a c' := by
  obtain ⟨c', rfl, hx⟩ := lex_eq_ok h
  obtain ⟨b, c, hs, hx⟩ := bind_eq_ok.mp hx
  obtain ⟨w, rest, hw, hbs, hc⟩ := LexM.ensures_skipBlankToByte_over _ _ _ hr hs
  exact ⟨c', rfl, w, b, rest, c, hw, hbs, hc, hx⟩

private theorem byte_of_mark {f : UInt8 → LexM α} {a : α} {b : UInt8} {c c' : Cursor}
    (hc : c.At b bs)
    (h : (do LexM.advance; let b ← LexM.skipBlankToByte false; f b) c = .ok a c') :
    ∃ v b' rest c₁, Grammar.Blank v ∧ bs = encode v ++ b' :: rest ∧ c₁.At b' rest ∧
      f b' c₁ = .ok a c' := by
  obtain ⟨_, c, ha, hx⟩ := bind_eq_ok.mp h
  obtain ⟨b', c, hs, hx⟩ := bind_eq_ok.mp hx
  obtain ⟨v, rest, hv, hbs, ho⟩ :=
    LexM.ensures_skipBlankToByte_over _ _ _ (LexM.ensures_advance_over _ _ _ hc ha) hs
  exact ⟨v, b', rest, c, hv, hbs, ho, hx⟩

theorem follow_of_firstItem (hr : r.cursor.Over bs) (h : firstItem false r = .ok l r') :
    ∃ c, r' = { r with cursor := c } ∧ ∃ rest, c.Over rest ∧
      Leads .firstItem .nextItem bs l rest := by
  obtain ⟨c', rfl, w, b, rest, c, hw, rfl, hc, hx⟩ := byte_of_lex hr h
  refine ⟨c', rfl, ?_⟩
  split at hx
  · rename_i hb
    obtain ⟨_, c, ha, hx⟩ := bind_eq_ok.mp hx
    cases hx
    refine ⟨rest, LexM.ensures_advance_over _ _ _ hc ha, nofun, ?_⟩
    rintro places room _ ⟨evs', rfl, hf⟩
    exact follow_firstItem.mpr ⟨w, _, hw, rfl, .inl ⟨rest, evs', hf, by rw [hb], rfl⟩⟩
  · obtain ⟨s, rest', hl, hbs, hc⟩ := LexM.ensures_value_over c l c' hc hx
    refine ⟨rest', hc, hl.ne_endDocument, fun places room evs behind => ?_⟩
    exact follow_firstItem.mpr ⟨w, _, hw, rfl, .inr (hbs ▸ valueThen_of_opening hl behind)⟩

theorem follow_of_nextItem (hr : r.cursor.Over bs) (h : nextItem false r = .ok l r') :
    ∃ c, r' = { r with cursor := c } ∧ ∃ rest, c.Over rest ∧
      Leads .nextItem .nextItem bs l rest := by
  obtain ⟨c', rfl, w, b, rest, c, hw, rfl, hc, hx⟩ := byte_of_lex hr h
  refine ⟨c', rfl, ?_⟩
  split at hx
  · rename_i hb
    obtain ⟨_, c, ha, hx⟩ := bind_eq_ok.mp hx
    cases hx
    refine ⟨rest, LexM.ensures_advance_over _ _ _ hc ha, nofun, ?_⟩
    rintro places room _ ⟨evs', rfl, hf⟩
    exact follow_nextItem.mpr ⟨w, _, hw, rfl, .inl ⟨rest, evs', hf, by rw [hb], rfl⟩⟩
  · split at hx
    · rename_i hb
      obtain ⟨v, b', rest, c, hv, rfl, ho, hx⟩ := byte_of_mark hc hx
      split at hx
      · cases hx
      · obtain ⟨s, rest', hl, hbs, hc'⟩ := LexM.ensures_value_over c l c' ho hx
        refine ⟨rest', hc', hl.ne_endDocument, fun places room evs behind => ?_⟩
        exact follow_nextItem.mpr ⟨w, _, hw, rfl,
          .inr ⟨v, _, hv, by rw [hb], hbs ▸ valueThen_of_opening hl behind⟩⟩
    · cases hx

theorem follow_of_memberValue (hr : r.cursor.Over bs) (h : memberValue false r = .ok l r') :
    ∃ c, r' = { r with cursor := c } ∧ ∃ rest, c.Over rest ∧
      Leads .memberValue .nextMember bs l rest := by
  obtain ⟨c', rfl, w, b, rest, c, hw, rfl, hc, hx⟩ := byte_of_lex hr h
  refine ⟨c', rfl, ?_⟩
  split at hx
  · rename_i hb
    obtain ⟨v, b', rest, c, hv, rfl, ho, hx⟩ := byte_of_mark hc hx
    obtain ⟨s, rest', hl, hbs, hc'⟩ := LexM.ensures_value_over c l c' ho hx
    refine ⟨rest', hc', hl.ne_endDocument, fun places room evs behind => ?_⟩
    exact follow_memberValue.mpr ⟨w, v, _, hw, hv, by rw [hb],
      hbs ▸ valueThen_of_opening hl behind⟩
  · cases hx

theorem follow_of_topValue (hr : r.cursor.Over bs) (h : topValue false r = .ok l r') :
    ∃ c, r' = { r with cursor := c } ∧ ∃ rest, c.Over rest ∧ l ≠ .endDocument ∧ ∀ places room evs,
      Behind Grammar.Number places room rest evs l →
        ∃ w rest, Grammar.Blank w ∧ bs = encode w ++ rest ∧
          ValueThen Grammar.Number places room rest evs := by
  obtain ⟨c', rfl, w, b, rest, c, hw, rfl, hc, hx⟩ := byte_of_lex hr h
  refine ⟨c', rfl, ?_⟩
  obtain ⟨s, rest', hl, hbs, hc⟩ := LexM.ensures_value_over c l c' hc hx
  refine ⟨rest', hc, hl.ne_endDocument, fun places room evs behind => ?_⟩
  exact ⟨w, _, hw, rfl, hbs ▸ valueThen_of_opening hl behind⟩

theorem follow_of_afterTopValue (hr : r.cursor.Over bs) (h : afterTopValue false r = .ok l r') :
    ∃ c, r' = { r with cursor := c } ∧ c.Over [] ∧ l = .endDocument ∧
      Follow Grammar.Number [] room bs [] := by
  obtain ⟨c', rfl, hx⟩ := lex_eq_ok h
  obtain ⟨a, c, hs, hx⟩ := bind_eq_ok.mp hx
  obtain ⟨w, rest, hw, rfl, ha, hc⟩ := LexM.ensures_skipBlank_over _ _ _ hr hs
  refine ⟨c', rfl, ?_⟩
  cases a with
  | none =>
      cases hx
      cases rest with
      | nil => exact ⟨hc, rfl, rfl, w, hw, by rw [List.append_nil]⟩
      | cons b rest => cases ha
  | some b => cases hx

/-- What a search for a member comes to: the end of the object, or the byte in front of which there
may follow a name. -/
private def Found (place : Place) (bs : List UInt8) : Option UInt8 → Cursor → Prop
  | none, c => ∃ rest, c.Over rest ∧ Leads place .memberValue bs .endObject rest
  | some b, c => ∃ u, c.At b u ∧ ∀ places room evs,
      NameThen Grammar.Number places room (b :: u) evs →
        Follow Grammar.Number (place :: places) room bs evs

private theorem found_of_findMember {first : Bool} {a : Option UInt8} (hr : r.cursor.Over bs)
    (h : findMember false first r = .ok a r') :
    ∃ c, r' = { r with cursor := c } ∧ Found (memberPlace first) bs a c := by
  obtain ⟨c', rfl, w, b, rest, c, hw, rfl, hc, hx⟩ := byte_of_lex hr h
  refine ⟨c', rfl, ?_⟩
  split at hx
  · rename_i hb
    obtain ⟨_, c, ha, hx⟩ := bind_eq_ok.mp hx
    cases hx
    refine ⟨rest, LexM.ensures_advance_over _ _ _ hc ha, nofun, ?_⟩
    rintro places room _ ⟨evs', rfl, hf⟩
    have ends : EndThen Grammar.Number Ascii.closeBrace .endObject places room (b :: rest)
        (.endObject :: evs') := ⟨rest, evs', hf, by rw [hb], rfl⟩
    cases first with
    | true => exact follow_firstMember.mpr ⟨w, _, hw, rfl, .inl ends⟩
    | false => exact follow_nextMember.mpr ⟨w, _, hw, rfl, .inl ends⟩
  · cases first with
    | true =>
        cases hx
        refine ⟨rest, hc, fun places room evs name => ?_⟩
        exact follow_firstMember.mpr ⟨w, _, hw, rfl, .inr name⟩
    | false =>
        rw [if_neg nofun] at hx
        split at hx
        · rename_i hb
          obtain ⟨v, b', rest, c, hv, rfl, ho, hx⟩ := byte_of_mark hc hx
          split at hx
          · cases hx
          · cases hx
            refine ⟨rest, ho, fun places room evs name => ?_⟩
            exact follow_nextMember.mpr ⟨w, _, hw, rfl, .inr ⟨v, _, hv, by rw [hb], name⟩⟩
        · cases hx

theorem follow_of_member {first : Bool} {last : Option String} (hr : r.cursor.Over bs)
    (h : member false first last r = .ok l r') :
    ∃ c rest, c.Over rest ∧ Leads (memberPlace first) .memberValue bs l rest ∧
      ((l = .endObject ∧ r' = { r with cursor := c }) ∨
        ∃ s, l = .name s ∧ r' = { r.setContainer (.object .named last) with cursor := c }) := by
  obtain ⟨a, r'', hm, h⟩ := bind_eq_ok.mp h
  obtain ⟨c, rfl, found⟩ := found_of_findMember hr hm
  cases a with
  | none =>
      cases h
      obtain ⟨rest, hc, leads⟩ := found
      exact ⟨c, rest, hc, leads, .inl ⟨rfl, rfl⟩⟩
  | some b =>
      obtain ⟨_, _, ⟨⟩, h⟩ := bind_eq_ok.mp h
      obtain ⟨u, hc, found⟩ := found
      obtain ⟨c', rfl, hx⟩ := lex_eq_ok h
      obtain ⟨s, q, rest, rfl, hq, hu, ho⟩ := LexM.ensures_name_over _ _ _ hc hx
      refine ⟨c', rest, ho, ⟨nofun, ?_⟩, .inr ⟨s, rfl, rfl⟩⟩
      rintro places room _ ⟨evs', rfl, hf⟩
      exact found places room _ ⟨s, q, rest, evs', hq, hf, hu, rfl⟩

end

end ReadM

end TypedJson
