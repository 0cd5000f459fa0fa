import Mathlib.Data.List.Forall2
import TypedJson.Proofs.Reader.Mirror
import TypedJson.Proofs.Reader.Recognition

set_option autoImplicit false
set_option relaxedAutoImplicit false

namespace TypedJson

open Operation
open Bare (Stops)
open Grammar (Comment Cut Decorated EndsLine Gap Laid Piece Trailing)

namespace Reader

variable {behind : List UInt8} {depth : Nat} {r r' d : Reader}

/-! One text. -/

/-- A lenient reader outside of all containers, in front of a gap and then of these bytes. -/
structure Outside (depth : Nat) (behind : List UInt8) (d : Reader) : Prop where
  lenient : d.settings.lenient = true
  unseen : d.lookahead = none
  containers : d.containers = []
  room : d.room = depth
  gap : ∃ gap, Gap true gap behind ∧ d.cursor.Over (gap ++ behind)

theorem Mirrors.ends (h : Mirrors behind depth r d)
    (step : ReadM.nextEvent r = .ok none r') :
    Outside depth behind d ∧ d.documentStarted = true := by
  obtain ⟨l, _, look, event, -, rfl⟩ := ReadM.nextEvent_eq_ok step
  obtain rfl : l = .endDocument := Lexeme.event?_inj event
  obtain ⟨_, next, rfl⟩ := ReadM.nextLexeme_of_peek h.unseen look
  have shows := (ReadM.shows_of_nextLexeme next).1
  have places : r.places = [] := by
    cases places : r.places with
    | nil => rfl
    | cons place outer =>
        rw [places] at shows
        exact absurd rfl shows.ne_endDocument
  have containers : r.containers = [] := List.map_eq_nil_iff.mp places
  have started : r.documentStarted = true := by
    cases started : r.documentStarted with
    | true => rfl
    | false =>
        rw [ReadM.nextLexeme_topValue containers started] at next
        cases (ReadM.shows_topValue next).1
  obtain ⟨fresh, pieces, pieces', -, trailing, lays, lays'⟩ := h.laid
  rw [ReadM.nextLexeme_afterTopValue containers started, h.strict] at next
  obtain rfl := ReadM.end_of_afterTopValue lays next
  cases trailing with
  | nil =>
      have total := h.total
      rw [places, List.length_nil, Nat.add_zero] at total
      obtain ⟨_, held, ⟨done, -, -⟩⟩ := lays'
      cases done with
      | @done gap allowed =>
          exact ⟨⟨h.lenient, h.unseen', h.containers.trans containers, h.room.trans total, gap,
            allowed, held⟩, h.started started⟩

theorem Mirrors.run {fuel : Nat} {evs : List Event} (h : Mirrors behind depth r d)
    (enough : r.unitsLeft < fuel) (read : eventsWithin fuel r = ((evs, none), r')) :
    ∃ d', Consumes evs d d' ∧ Outside depth behind d' ∧ d'.documentStarted = true := by
  induction fuel generalizing evs r d with
  | zero => omega
  | succ fuel ih =>
      simp only [eventsWithin] at read
      cases step : ReadM.nextEvent r with
      | error error r₁ => simp [step] at read
      | ok a r₁ =>
          have less := ReadM.ensures_nextEvent r.unitsLeft r a r₁ (Nat.le_refl _) step
          simp only [step] at read
          cases a with
          | none =>
              cases read
              exact ⟨d, .nil, h.ends step⟩
          | some e =>
              have less := less rfl
              obtain ⟨d₁, step', h'⟩ := h.nextEvent step
              obtain ⟨⟨⟨evs', error⟩, r₂⟩, later⟩ : ∃ x, eventsWithin fuel r₁ = x := ⟨_, rfl⟩
              simp only [later] at read
              cases read
              obtain ⟨d', rest, outside⟩ := ih h' (by omega) later
              exact ⟨d', .cons step' rest, outside⟩

/-- A strict reader that allows for this nesting depth hands out these units for the text. -/
def Accepts (depth : Nat) (text : List UInt8) (evs : List Event) : Prop :=
  ∃ (source : Source) (settings : ReaderSettings) (r : Reader), source.Delivers text .endOfData ∧
    settings.lenient = false ∧ settings.maxNestingDepth = depth ∧
    (new source settings).events = ((evs, none), r)

variable {text bytes gap rest : List UInt8} {pieces pieces' : List Piece} {evs : List Event}

/-- Over a decorated text the lenient reader takes the units of the text. -/
theorem Outside.run (h : Outside depth bytes d) (accepts : Accepts depth text evs)
    (cut : Cut false [] pieces text) (trailing : Trailing true pieces pieces')
    (laid : Laid true rest pieces' bytes) (stops : Stops rest) :
    ∃ d', Consumes evs d d' ∧ Outside depth rest d' ∧ d'.documentStarted = true := by
  obtain ⟨source, settings, r, delivers, strict, deep, read⟩ := accepts
  have lays : d.cursor.Lays true rest pieces' := by
    obtain ⟨_, allowed, held⟩ := h.gap
    exact ⟨_, held, laid.widen allowed, trailing.apart cut.apart, stops⟩
  have mirrors : Mirrors rest depth (new source settings) d := by
    constructor
    case strict => exact strict
    case lenient => exact h.lenient
    case unseen => rfl
    case unseen' => exact h.unseen
    case containers => exact h.containers
    case room => exact h.room.trans deep.symm
    case total => exact deep
    case started => exact nofun
    case unbegun => exact fun _ => rfl
    case inner => exact nofun
    case laid =>
      exact ⟨true, pieces, pieces', fun _ _ _ => rfl, trailing,
        ⟨text, Cursor.holds_start delivers, cut⟩, lays⟩
  exact mirrors.run (Nat.lt_succ_self _) read

/-! Several texts, and the end of the document. -/

theorem Outside.past (h : Outside depth (gap ++ rest) d) (hg : Gap true gap rest) :
    Outside depth rest d := by
  obtain ⟨front, allowed, held⟩ := h.gap
  rw [← List.append_assoc] at held
  exact { h with gap := ⟨front ++ gap, allowed.append hg, held⟩ }

theorem Outside.runAll {texts : List (List UInt8)} {evss : List (List Event)}
    {divided : List (List Piece)} (h : Outside depth bytes d)
    (accepted : List.Forall₂ (Accepts depth) texts evss)
    (cuts : List.Forall₂ (Cut false []) divided texts) (decorated : Decorated divided bytes) :
    ∃ d', Consumes evss.flatten d d' ∧ Outside depth [] d' ∧ d'.documentStarted = true := by
  induction decorated generalizing d texts evss with
  | last trailing laid =>
      cases cuts with
      | cons cut none =>
          cases none
          cases accepted with
          | cons accepts none =>
              cases none
              rw [List.flatten_singleton]
              exact h.run accepts cut trailing laid trivial
  | more trailing laid separate gap _ ih =>
      cases cuts with
      | cons cut cuts =>
          cases accepted with
          | cons accepts accepted =>
              have stops := gap.stops fun empty => absurd empty separate
              obtain ⟨d₁, front, outside, -⟩ := h.run accepts cut trailing laid stops
              obtain ⟨d', rest, finished⟩ := ih (outside.past gap) accepted cuts
              exact ⟨d', front.append rest, finished⟩

theorem Outside.peekLexeme (h : Outside depth [] d) (started : d.documentStarted = true) :
    ∃ d', ReadM.peekLexeme d = .ok .endDocument d' := by
  obtain ⟨gap, allowed, held⟩ := h.gap
  obtain ⟨c, run, -⟩ := ReadM.afterTopValue_of_end d ⟨_, held, .done allowed, .nil, trivial⟩
  rw [← h.lenient, ← ReadM.nextLexeme_afterTopValue h.containers started] at run
  exact ⟨_, (ReadM.peekLexeme_of_none h.unseen).trans (bind_of_ok run)⟩

/-- A text that is accepted can be cut into pieces, in one way only. -/
theorem Accepts.existsUnique_cut (h : Accepts depth text evs) :
    ∃! pieces, Cut false [] pieces text := by
  obtain ⟨source, settings, r, delivers, strict, -, read⟩ := h
  have held : (Cursor.start source).Over text := Cursor.holds_start delivers
  have between : ReadM.Between (new source settings) := ⟨⟨text, held⟩, rfl, fun _ => rfl⟩
  have expected := expects_of_eventsWithin strict between (Nat.lt_succ_self _) read
  obtain ⟨t, cs, same, grammatical, -⟩ := (expects_new delivers).mp expected
  obtain ⟨pieces, cut⟩ := grammatical.exists_cut
  rw [← same] at cut
  exact ⟨pieces, cut, fun _ cut' => LexM.pieces_unique ⟨text, held, cut'⟩ ⟨text, held, cut⟩⟩

/-- However the texts are cut into pieces, and however these are decorated: a lenient reader hands
out the units of all the texts and comes to the end of the document, and behind the last unit
nothing but blank space is left. -/
theorem decorations_immaterial {texts : List (List UInt8)} {evss : List (List Event)}
    (accepted : List.Forall₂ (Accepts depth) texts evss) :
    (∀ text ∈ texts, ∃! pieces, Cut false [] pieces text) ∧
      ∀ (divided : List (List Piece)) (bytes : List UInt8) (source : Source)
        (settings : ReaderSettings), List.Forall₂ (Cut false []) divided texts →
        Decorated divided bytes → source.Delivers bytes .endOfData → settings.lenient = true →
        settings.maxNestingDepth = depth →
        (∃ r, (new source settings).events = ((evss.flatten, none), r) ∧
          r.lookahead = some .endDocument) ∧
        ∃ r r', Consumes evss.flatten (new source settings) r ∧ ReadM.finish r = .ok () r' := by
  constructor
  · induction accepted with
    | nil => exact nofun
    | cons accepts _ ih => exact List.forall_mem_cons.mpr ⟨accepts.existsUnique_cut, ih⟩
  · intro divided bytes source settings cuts decorated delivers lenient deep
    have start : Outside depth bytes (new source settings) :=
      ⟨lenient, rfl, rfl, deep, [], .none, Cursor.holds_start delivers⟩
    obtain ⟨r, consumed, outside, started⟩ := start.runAll accepted cuts decorated
    obtain ⟨r', look⟩ := outside.peekLexeme started
    have last : ReadM.nextEvent r = .ok none (r'.behind .endDocument) :=
      ReadM.nextEvent_of_peek look (by simp [HasRoom])
    have all := events_of_consumes consumed last
    exact ⟨⟨_, all, ReadM.lookahead_of_peek look⟩, r, r', consumed, ReadM.expect_of_peek look rfl⟩

/-- The texts `[null]` and `true`, as the bytes of `/*]*/[null,#"\n] //\rtrue#`. -/
theorem decorations_immaterial_twoTexts :
    ∃ source : Source, source = ⟨[.data 0x2F [0x2A, 0x5D, 0x2A, 0x2F, 0x5B, 0x6E, 0x75, 0x6C, 0x6C,
        0x2C, 0x23, 0x22, 0x0A, 0x5D, 0x20, 0x2F, 0x2F, 0x0D, 0x74, 0x72, 0x75, 0x65, 0x23]],
        .endOfData⟩ ∧
      (∃ r, (new source { lenient := true }).events =
          (([.beginArray, .null, .endArray, .boolean true], none), r) ∧
        r.lookahead = some .endDocument) ∧
      ∃ r r', Consumes [.beginArray, .null, .endArray, .boolean true]
        (new source { lenient := true }) r ∧ ReadM.finish r = .ok () r' := by
  have delivers (b : UInt8) (bs : List UInt8) :
      Source.Delivers ⟨[.data b bs], .endOfData⟩ (b :: bs) .endOfData := by
    rw [← List.append_nil (b :: bs)]
    exact .data .exhausted
  have accepts (b : UInt8) (bs : List UInt8) (evs : List Event)
      (read : (new ⟨[.data b bs], .endOfData⟩).events.1 = (evs, none)) :
      Accepts 128 (b :: bs) evs :=
    ⟨⟨[.data b bs], .endOfData⟩, {}, _, delivers b bs, rfl, rfl, Prod.ext read rfl⟩
  have array : Accepts 128 [0x5B, 0x6E, 0x75, 0x6C, 0x6C, 0x5D] [.beginArray, .null, .endArray] :=
    accepts 0x5B [0x6E, 0x75, 0x6C, 0x6C, 0x5D] _ (by decide +kernel)
  have truth : Accepts 128 [0x74, 0x72, 0x75, 0x65] [.boolean true] :=
    accepts 0x74 [0x72, 0x75, 0x65] _ (by decide +kernel)
  -- the texts as they are
  have arrayCut : Cut false [] _ [0x5B, 0x6E, 0x75, 0x6C, 0x6C, 0x5D] :=
    ⟨(((Laid.done .none).sign (b := Ascii.closeBracket) (by decide)).unit .null).unit .array,
      by simp [Piece.Joins, Lexeme.opens], trivial⟩
  have truthCut : Cut false [] _ [0x74, 0x72, 0x75, 0x65] :=
    ⟨(Laid.done .none).unit .yes, .singleton _, trivial⟩
  -- the same pieces, decorated
  have last : Gap true [0x23] [] := .of_comment (@Comment.line [0x23] [] _ (.inr rfl) nofun nofun)
  have truthDecorated : Laid true [] _ [0x74, 0x72, 0x75, 0x65, 0x23] := (Laid.done last).unit .yes
  have between : Gap true [0x20, 0x2F, 0x2F, 0x0D] [0x74, 0x72, 0x75, 0x65, 0x23] := by
    have comment : Gap true [0x2F, 0x2F] [0x0D, 0x74, 0x72, 0x75, 0x65, 0x23] :=
      .of_comment (@Comment.line [0x2F, 0x2F] [] _ (.inl rfl) nofun (by simp [EndsLine]))
    exact .blank rfl (comment.append (.blank rfl .none))
  have quoted : Gap true [0x23, 0x22, 0x0A]
      (0x5D :: [0x20, 0x2F, 0x2F, 0x0D, 0x74, 0x72, 0x75, 0x65, 0x23]) := by
    have comment : Gap true [0x23, 0x22]
        [0x0A, 0x5D, 0x20, 0x2F, 0x2F, 0x0D, 0x74, 0x72, 0x75, 0x65, 0x23] :=
      .of_comment (@Comment.line [0x23] [0x22] _ (.inr rfl) (by simp [EndsLine]; decide)
        (by simp [EndsLine]))
    exact comment.append (.blank rfl .none)
  have closed := ((Laid.done (@Gap.none true _)).sign (b := Ascii.closeBracket)
    (by decide)).widen quoted
  have items := (closed.sign (b := Ascii.comma) (by decide)).unit .null
  have arrayDecorated := (items.unit .array).widen
    (.of_comment (@Comment.block [0x5D] _ (by decide)))
  have trailing : Trailing true
      [.unit .beginArray ['['], .unit .null "null".toList, .sign Ascii.closeBracket]
      [.unit .beginArray ['['], .unit .null "null".toList, .sign Ascii.comma,
        .sign Ascii.closeBracket] := .keep (.keep (.comma (.inl rfl) .nil))
  have decorated := Decorated.more trailing arrayDecorated (List.cons_ne_nil _ _) between
    (.last (.keep .nil) truthDecorated)
  exact ⟨_, rfl, (decorations_immaterial (.cons array (.cons truth .nil))).2 _ _ _ _
    (.cons arrayCut (.cons truthCut .nil)) decorated (delivers _ _) rfl rfl⟩

end Reader

end TypedJson
