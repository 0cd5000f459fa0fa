import Mathlib.Data.List.Chain
import TypedJson.Proofs.Grammar.Position
import TypedJson.Proofs.Lexing.Span

/-!
# Layouts

A text cut into its pieces: scalars, brackets, commas and colons, with gaps between them. A strict
layout has whitespace in its gaps. A lenient layout of the same pieces may have comments there too,
and a comma in front of a closing bracket. Every text of the grammar has a strict layout.
-/

set_option autoImplicit false
set_option relaxedAutoImplicit false

namespace TypedJson

def Lexeme.opens : Lexeme → Bool
  | .beginObject | .beginArray => true
  | _ => false

namespace Grammar

open Utf8 (encode)
open Bare (Stops)

/-- What may stand between two pieces, in front of what is behind it: whitespace and, in lenient
layouts, comments. -/
inductive Gap (lenient : Bool) : List UInt8 → List UInt8 → Prop where
  | none {rest : List UInt8} : Gap lenient [] rest
  | blank {b : UInt8} {gap rest : List UInt8} : Ascii.isBlank b = true → Gap lenient gap rest →
      Gap lenient (b :: gap) rest
  | comment {text gap rest : List UInt8} : lenient = true → Comment text (gap ++ rest) →
      Gap lenient gap rest → Gap lenient (text ++ gap) rest

/-- A piece of a text that no gap may divide: the first unit of a value or a member name, as it is
spelled, or one byte of punctuation. -/
inductive Piece where
  | unit (l : Lexeme) (spelling : List Char)
  | sign (b : UInt8)

namespace Piece

def signs : List UInt8 :=
  [Ascii.comma, Ascii.colon, Ascii.closeBracket, Ascii.closeBrace]

def Valid : Piece → Prop
  | .unit l spelling => Opening Number l spelling
  | .sign b => b ∈ signs

/-- A piece is spelled as the grammar has it, and a scalar or a name is delimited by what comes
behind it. -/
def Fits : Piece → List UInt8 → Prop
  | .unit l spelling, rest => Opening Number l spelling ∧ (l.opens = false → Stops rest)
  | .sign b, _ => b ∈ signs

def bytes : Piece → List UInt8
  | .unit _ spelling => encode spelling
  | .sign b => [b]

def opens : Piece → Bool
  | .unit l _ => l.opens
  | .sign _ => false

/-- Whether one piece may come next to another: behind a scalar or a name there is punctuation. -/
def Joins : Piece → Piece → Prop
  | .unit l _, .unit _ _ => l.opens = true
  | _, _ => True

end Piece

/-- Pieces with gaps in front of them, between them and behind the last one, in front of the bytes
`behind`. -/
inductive Laid (lenient : Bool) (behind : List UInt8) : List Piece → List UInt8 → Prop where
  | done {gap : List UInt8} : Gap lenient gap behind → Laid lenient behind [] (gap ++ behind)
  | piece {gap bytes : List UInt8} {p : Piece} {pieces : List Piece} :
      Gap lenient gap (p.bytes ++ bytes) → p.Valid → Laid lenient behind pieces bytes →
      Laid lenient behind (p :: pieces) (gap ++ (p.bytes ++ bytes))

/-- Text that is cut into pieces, none of which runs into the next one or into what is `behind`. -/
structure Cut (lenient : Bool) (behind : List UInt8) (pieces : List Piece) (text : List UInt8) :
    Prop where
  laid : Laid lenient behind pieces text
  apart : pieces.IsChain Piece.Joins
  stops : Stops behind

/-- The same pieces, but for commas in front of closing brackets. There is no such comma right
behind an opening bracket: `fresh` tells whether one, or nothing, comes before the first piece. -/
inductive Trailing : Bool → List Piece → List Piece → Prop where
  | nil {fresh : Bool} : Trailing fresh [] []
  | keep {fresh : Bool} {p : Piece} {pieces pieces' : List Piece} :
      Trailing p.opens pieces pieces' → Trailing fresh (p :: pieces) (p :: pieces')
  | comma {b : UInt8} {pieces pieces' : List Piece} :
      b = Ascii.closeBracket ∨ b = Ascii.closeBrace → Trailing false pieces pieces' →
      Trailing false (.sign b :: pieces) (.sign Ascii.comma :: .sign b :: pieces')

/-- The pieces of some texts, decorated with commas, whitespace and comments, one text after the
other, with at least one blank or comment between two texts. -/
inductive Decorated : List (List Piece) → List UInt8 → Prop where
  | last {pieces pieces' : List Piece} {bytes : List UInt8} : Trailing true pieces pieces' →
      Laid true [] pieces' bytes → Decorated [pieces] bytes
  | more {pieces pieces' : List Piece} {texts : List (List Piece)} {gap rest bytes : List UInt8} :
      Trailing true pieces pieces' → Laid true (gap ++ rest) pieces' bytes → gap ≠ [] →
      Gap true gap rest → Decorated texts rest → Decorated (pieces :: texts) bytes

variable {lenient : Bool} {gap gap' rest behind bytes : List UInt8} {pieces pieces' : List Piece}
variable {w s : List Char} {b : UInt8} {l : Lexeme} {p : Piece}

/-! Gaps. -/

theorem Gap.of_blank (hw : Blank w) : Gap lenient (encode w) rest := by
  induction w with
  | nil => exact .none
  | cons c w ih =>
      obtain ⟨hc, rest⟩ := List.forall_mem_cons.mp hw
      have later := ih rest
      rw [Utf8.encode_cons]
      rcases hc with rfl | rfl | rfl | rfl <;> exact .blank rfl later

theorem Gap.of_comment {text : List UInt8} (h : Comment text rest) : Gap true text rest := by
  rw [← List.append_nil text]
  exact .comment rfl h .none

theorem Gap.append (h : Gap lenient gap (gap' ++ rest)) (h' : Gap lenient gap' rest) :
    Gap lenient (gap ++ gap') rest := by
  generalize between : gap' ++ rest = front at h
  induction h with
  | none => exact h'
  | blank hb _ ih => exact .blank hb (ih between)
  | @comment text gap front allowed comment _ ih =>
      subst between
      rw [List.append_assoc]
      refine .comment allowed ?_ (ih rfl)
      rwa [List.append_assoc]

theorem Gap.stops (h : Gap lenient gap rest) (hrest : gap = [] → Stops rest) :
    Stops (gap ++ rest) := by
  cases h with
  | none => exact hrest rfl
  | blank hb _ =>
      simp only [Ascii.isBlank, Bool.or_eq_true, decide_eq_true_eq] at hb
      rcases hb with ((rfl | rfl) | rfl) | rfl <;> rfl
  | comment _ comment _ =>
      cases comment with
      | block _ => rfl
      | line mark _ _ => rcases mark with rfl | rfl <;> rfl

/-! Layouts, piece by piece. -/

theorem Laid.widen (h : Laid lenient behind pieces bytes) (hg : Gap lenient gap bytes) :
    Laid lenient behind pieces (gap ++ bytes) := by
  cases h with
  | done h =>
      rw [← List.append_assoc]
      exact .done (hg.append h)
  | piece h valid rest =>
      rw [← List.append_assoc]
      exact .piece (hg.append h) valid rest

theorem Laid.sign (h : Laid lenient behind pieces bytes) (hb : b ∈ Piece.signs) :
    Laid lenient behind (.sign b :: pieces) (b :: bytes) :=
  .piece (p := .sign b) .none hb h

theorem Laid.unit (h : Laid lenient behind pieces bytes) (hl : Opening Number l s) :
    Laid lenient behind (.unit l s :: pieces) (encode s ++ bytes) :=
  .piece (p := .unit l s) .none hl h

theorem Piece.mem_signs_iff : b ∈ signs ↔ b = Ascii.comma ∨ b = Ascii.colon ∨
    b = Ascii.closeBracket ∨ b = Ascii.closeBrace := by
  simp only [signs, List.mem_cons, List.not_mem_nil, or_false]

theorem Piece.literal_of_sign (h : b ∈ signs) : Ascii.isLiteral b = false := by
  rcases mem_signs_iff.mp h with rfl | rfl | rfl | rfl <;> rfl

theorem Cut.stops_unit (h : Cut lenient behind pieces bytes)
    (apart : (.unit l s :: pieces).IsChain Piece.Joins) (scalar : l.opens = false) :
    Stops bytes := by
  obtain ⟨laid, -, stops⟩ := h
  cases laid with
  | done gap => exact gap.stops fun _ => stops
  | @piece gap _ p _ gaps valid _ =>
      refine gaps.stops fun _ => ?_
      cases p with
      | sign b => exact Piece.literal_of_sign valid
      | unit l' s' =>
          have opens : l.opens = true := (List.isChain_cons_cons.mp apart).1
          cases scalar.symm.trans opens

theorem Cut.first (h : Cut lenient behind (p :: pieces) bytes) :
    ∃ gap rest, bytes = gap ++ (p.bytes ++ rest) ∧ Gap lenient gap (p.bytes ++ rest) ∧
      p.Fits rest ∧ Cut lenient behind pieces rest := by
  obtain ⟨laid, apart, stops⟩ := h
  cases laid with
  | @piece gap rest _ _ gaps valid laid =>
      have later : Cut lenient behind pieces rest := ⟨laid, (List.isChain_cons.mp apart).2, stops⟩
      refine ⟨gap, rest, rfl, gaps, ?_, later⟩
      cases p with
      | unit l s => exact ⟨valid, later.stops_unit apart⟩
      | sign b => exact valid

theorem Piece.joins_sign (p : Piece) (b : UInt8) : p.Joins (.sign b) := by
  cases p <;> trivial

theorem Trailing.head? {fresh : Bool} (h : Trailing fresh pieces pieces') :
    pieces'.head? = pieces.head? ∨ pieces'.head? = some (.sign Ascii.comma) := by
  cases h with
  | nil | keep _ => exact .inl rfl
  | comma _ _ => exact .inr rfl

theorem Trailing.apart {fresh : Bool} (h : Trailing fresh pieces pieces')
    (apart : pieces.IsChain Piece.Joins) : pieces'.IsChain Piece.Joins := by
  induction h with
  | nil => exact .nil
  | @keep fresh p pieces pieces' h ih =>
      obtain ⟨next, apart⟩ := List.isChain_cons.mp apart
      refine List.isChain_cons.mpr ⟨fun q head => ?_, ih apart⟩
      rcases h.head? with same | comma
      · exact next q (same ▸ head)
      · cases comma.symm.trans head
        exact p.joins_sign Ascii.comma
  | comma closes h ih =>
      obtain ⟨-, apart⟩ := List.isChain_cons.mp apart
      exact .cons_cons trivial (List.isChain_cons.mpr ⟨fun _ _ => trivial, ih apart⟩)

/-! Every text of the grammar has pieces. -/

/-- The text has pieces that can be laid out in front of others; with `led`, it does not begin with
a scalar. -/
def Divides (led : Bool) (s : List Char) : Prop :=
  ∃ pieces : List Piece, pieces.IsChain Piece.Joins ∧
    (led = true → ∀ p ∈ pieces.head?, ∃ b, p = .sign b) ∧
    ∀ (behind : List UInt8) (rest : List Piece) (bytes : List UInt8),
      Laid false behind rest bytes → Laid false behind (pieces ++ rest) (encode s ++ bytes)

variable {led : Bool}

theorem Divides.nil : Divides led [] :=
  ⟨[], .nil, nofun, fun _ _ _ h => h⟩

theorem Divides.opening (hl : Opening Number l s) : Divides false s :=
  ⟨[.unit l s], .singleton _, nofun, fun _ _ _ h => h.unit hl⟩

theorem Divides.blank (h : Divides led s) (hw : Blank w) : Divides led (w ++ s) := by
  obtain ⟨pieces, apart, head, lay⟩ := h
  refine ⟨pieces, apart, head, fun behind rest bytes h => ?_⟩
  rw [Utf8.encode_append, List.append_assoc]
  exact (lay behind rest bytes h).widen (.of_blank hw)

theorem Divides.sign {c : Char} (h : Divides led s) (hc : String.utf8EncodeChar c = [b])
    (hb : b ∈ Piece.signs) : Divides true (c :: s) := by
  obtain ⟨pieces, apart, -, lay⟩ := h
  refine ⟨.sign b :: pieces, List.isChain_cons.mpr ⟨fun _ _ => trivial, apart⟩, ?_, ?_⟩
  · rintro - _ ⟨⟩
    exact ⟨b, rfl⟩
  · intro behind rest bytes h
    rw [Utf8.encode_cons, hc]
    exact (lay behind rest bytes h).sign hb

theorem Divides.bracket {c : Char} (h : Divides led s) (hl : Opening Number l [c])
    (opens : l.opens = true) : Divides false (c :: s) := by
  obtain ⟨pieces, apart, -, lay⟩ := h
  refine ⟨.unit l [c] :: pieces, List.isChain_cons.mpr ⟨fun q _ => ?_, apart⟩, nofun, ?_⟩
  · cases q with
    | unit l' s' => exact opens
    | sign b => trivial
  · intro behind rest bytes h
    have front := (lay behind rest bytes h).unit hl
    rwa [← List.append_assoc, ← Utf8.encode_append, List.singleton_append] at front

theorem Divides.append {s' : List Char} (h : Divides false s) (h' : Divides true s') :
    Divides false (s ++ s') := by
  obtain ⟨pieces, apart, -, lay⟩ := h
  obtain ⟨pieces', apart', head, lay'⟩ := h'
  refine ⟨pieces ++ pieces', List.isChain_append.mpr ⟨apart, apart', ?_⟩, nofun, ?_⟩
  · intro p _ q first
    obtain ⟨b, rfl⟩ := head rfl q first
    exact p.joins_sign b
  · intro behind rest bytes h
    rw [Utf8.encode_append, List.append_assoc, List.append_assoc]
    exact lay behind _ _ (lay' behind rest bytes h)

theorem Divides.any (h : Divides true s) : Divides false s := by
  obtain ⟨pieces, apart, -, lay⟩ := h
  exact ⟨pieces, apart, nofun, lay⟩

private theorem closing {close : Char} (hc : close = ']' ∨ close = '}') :
    ∃ b ∈ Piece.signs, String.utf8EncodeChar close = [b] := by
  rcases hc with rfl | rfl
  · exact ⟨Ascii.closeBracket, by decide, rfl⟩
  · exact ⟨Ascii.closeBrace, by decide, rfl⟩

section

variable {α : Type} {close : Char} {P : α → List Char → Prop} {as : List α}

theorem divides_tail (hc : close = ']' ∨ close = '}') (h : Tail close P as s)
    (elements : ∀ a ∈ as, ∀ v, P a v → Divides false v) : Divides true s := by
  induction h with
  | done hw =>
      obtain ⟨b, sign, hb⟩ := closing hc
      have nothing : Divides true [] := .nil
      exact (nothing.sign hb sign).blank hw
  | @more w u v s a as hw hu hv hs ih =>
      obtain ⟨first, others⟩ := List.forall_mem_cons.mp elements
      have item : Divides false (v ++ s) := (first v hv).append (ih others)
      exact ((item.blank hu).sign (b := Ascii.comma) rfl (by decide)).blank hw

theorem divides_elements (hc : close = ']' ∨ close = '}') (h : Elements close P as s)
    (elements : ∀ a ∈ as, ∀ v, P a v → Divides false v) : Divides false s := by
  cases h with
  | none hw => exact (divides_tail hc (.done (P := P) hw) nofun).any
  | some hu hv hs =>
      obtain ⟨first, others⟩ := List.forall_mem_cons.mp elements
      exact ((first _ hv).append (divides_tail hc hs others)).blank hu

end

theorem divides_member {P : Tree → List Char → Prop} {member : String × Tree}
    (h : Member P member s) (value : ∀ v, P member.2 v → Divides false v) : Divides false s := by
  cases h with
  | named hn hv =>
      cases hv with
      | @colon w u v t hw hu hv =>
          have behind : Divides true (w ++ ':' :: (u ++ v)) :=
            (((value v hv).blank hu).sign (b := Ascii.colon) rfl (by decide)).blank hw
          exact (Divides.opening (.string hn)).append behind

theorem divides_value (t : Tree) (v : List Char) (h : Value Number t v) : Divides false v := by
  induction t using Tree.induction generalizing v with
  | object members ih =>
      cases h with
      | object hs =>
          have inner := divides_elements (.inr rfl) hs fun m hm v hv => divides_member hv (ih m hm)
          exact inner.bracket .object rfl
  | array items ih =>
      cases h with
      | array hs => exact (divides_elements (.inl rfl) hs ih).bracket .array rfl
  | string text =>
      cases h with
      | string hq => exact .opening (.string hq)
  | number literal =>
      cases h with
      | number hn => exact .opening (.number hn)
  | boolean value =>
      cases h with
      | yes => exact .opening .yes
      | no => exact .opening .no
  | null =>
      cases h with
      | null => exact .opening .null

/-- Every text of the grammar can be cut into pieces. -/
theorem Text.exists_cut {t : Tree} {cs : List Char} (h : Text Number t cs) :
    ∃ pieces, Cut false [] pieces (encode cs) := by
  cases h with
  | @padded u v w t hu hv hw =>
      obtain ⟨pieces, apart, -, lay⟩ := (divides_value t v hv).blank hu
      have padding : Laid false [] [] (encode w ++ []) := .done (.of_blank hw)
      have text := lay [] [] _ padding
      rw [List.append_nil, List.append_nil, ← Utf8.encode_append, List.append_assoc] at text
      exact ⟨pieces, text, apart, trivial⟩

end Grammar

end TypedJson
