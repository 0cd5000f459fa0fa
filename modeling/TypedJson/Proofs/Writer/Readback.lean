import TypedJson.Proofs.Number.Numeral
import TypedJson.Proofs.Reader.Recognition
import TypedJson.Proofs.Writer.Text

set_option autoImplicit false
set_option relaxedAutoImplicit false

namespace TypedJson

open Operation
open Utf8 (encode)

/-- The numeral of a double is a number or one of the words. -/
theorem Number.numeral_double {nonFinite : Bool} {x : Number.Double}
    (h : x.isFinite = true ∨ nonFinite = true) :
    Grammar.Numeral nonFinite x.numeral := by
  by_cases finite : x.isFinite = true
  · exact .inl (number_numeral (by decide) finite)
  · refine .inr ⟨h.resolve_left finite, ?_⟩
    cases x with
    | nan => decide
    | signed negative code =>
        have infinite : code.val = Format.double.infinity := by
          have bound := code.isLt
          simp only [Binary.isFinite, decide_eq_true_eq] at finite
          omega
        rw [Binary.numeral, if_pos infinite]
        cases negative with
        | false => decide
        | true => decide

namespace Writer

variable {N : List Char → Prop} {t : Tree} {calls : List Call} {settings : WriterSettings}
variable {sink : Sink}

/-- Writes a document unit by unit, and closes it. -/
def document (calls : List Call) : WriteM Unit := do
  calls.forM Call.run
  WriteM.close

theorem attains_close {w : Writer} {o : Outlet} {out : List UInt8} (isOpen : w.isClosed = false)
    (complete : w.containers = []) (nonEmpty : w.isEmpty = false) (ho : o.Holds out) :
    ∃ w', WriteM.close { w with outlet := o } = .ok () w' ∧ w'.outlet.sink.received = out ∧
      w'.outlet.Holds out := by
  obtain ⟨_, o', hx, has, empty⟩ := Outlet.attains_flush o ho
  have holds : o'.Holds out := ⟨has.1, by rw [empty, Array.toList_empty, List.append_nil, has.2]⟩
  refine ⟨{ w with outlet := o', isClosed := true }, ?_, has.2, holds⟩
  have opened : ¬ w.isClosed = true := by simp [isOpen]
  have whole : ¬ (!w.containers.isEmpty) = true := by simp [complete]
  have written : ¬ w.isEmpty = true := by simp [nonEmpty]
  unfold WriteM.close
  rw [get_bind]
  dsimp only
  rw [if_neg opened, if_neg whole, if_neg written]
  have flush : WriteM.output Outlet.flush { w with outlet := o } =
      .ok () { w with outlet := o' } := by
    simp only [WriteM.output, hx]
  exact bind_of_ok flush

theorem document_text (h : calls.map Call.event = t.events)
    (fits : ∀ c ∈ calls, c.Fits N settings) :
    ∃ cs, Grammar.Value N t cs ∧ ∀ sink : Sink, sink.Reliable →
      ∃ w, document calls (new sink settings) = .ok () w ∧
        w.outlet.sink.received = sink.received ++ encode cs ∧
        w.outlet.Holds (sink.received ++ encode cs) := by
  obtain ⟨cs, lays, value⟩ := lays_value (w := new {} settings) t h fits rfl ⟨rfl, rfl, .inl rfl⟩
  refine ⟨cs, value, fun sink reliable => ?_⟩
  obtain ⟨o, hx, ho⟩ := lays _ _ (Outlet.holds_new reliable)
  have complete : (new {} settings).begun.containers = [] := begun_containers _
  obtain ⟨w, hc, received, holds⟩ := attains_close (begun_isClosed _) complete rfl ho
  exact ⟨w, (bind_of_ok hx).trans hc, received, holds⟩

def Call.IsValid : Call → Prop
  | double x => x.isFinite = true
  | literal s => Number.isLiteral s.toList = true
  | _ => True

theorem Call.IsValid.fits {c : Call} (h : c.IsValid) : c.Fits Grammar.Number settings := by
  cases c with
  | integer n => exact Number.number_integerText n
  | double x => exact ⟨.inl h, Number.number_numeral (by decide) h⟩
  | literal s => exact ⟨h, Number.isLiteral_iff.mp h⟩
  | _ => exact trivial

/-- What has been written unit by unit, over whatever sink that does not fail and with whatever
settings, a reader that allows for the nesting reads back unit by unit, from whatever source that
delivers it. -/
theorem reads_back (h : calls.map Call.event = t.events) (valid : ∀ c ∈ calls, c.IsValid)
    (reliable : sink.Reliable) {readerSettings : ReaderSettings}
    (room : t.depth ≤ readerSettings.maxNestingDepth) :
    ∃ w bytes, document calls (new sink settings) = .ok () w ∧
      w.outlet.sink.received = sink.received ++ bytes ∧
      ∀ source : Source, source.Delivers bytes .endOfData →
        ∃ r, (Reader.new source readerSettings).events = ((t.events, none), r) ∧
          r.lookahead = some .endDocument := by
  have fits : ∀ c ∈ calls, c.Fits Grammar.Number settings := fun c hc => (valid c hc).fits
  obtain ⟨cs, value, run⟩ := document_text h fits
  obtain ⟨w, hx, received, -⟩ := run sink reliable
  refine ⟨w, encode cs, hx, received, fun source delivers => ?_⟩
  have text := Grammar.Text.of_value value
  exact Reader.events_of_expects (Grammar.numerals_number _)
    ((Reader.expects_new delivers).mpr ⟨t, cs, rfl, text, room, rfl⟩)

/-- An object with two members of one name, on lines of its own. -/
theorem reads_back_twoMembers :
    ∃ w bytes, document [.beginObject, .name "a", .beginArray, .integer (-1), .literal "1e5",
        .endArray, .name "a", .string "\u2028", .endObject] (new {} { pretty := true }) = .ok () w ∧
      w.outlet.sink.received = bytes ∧
      ∀ source : Source, source.Delivers bytes .endOfData →
        ∃ r, (Reader.new source).events = (([.beginObject, .name "a", .beginArray, .number "-1",
          .number "1e5", .endArray, .name "a", .string "\u2028", .endObject], none), r) ∧
          r.lookahead = some .endDocument := by
  have reliable : ({} : Sink).Reliable := ⟨nofun, ⟨1023, rfl⟩, nofun, rfl⟩
  exact reads_back (t := .object [("a", .array [.number "-1", .number "1e5"]),
    ("a", .string "\u2028")]) (by decide) (by simp [Call.IsValid]; decide) reliable (by decide)

end Writer

end TypedJson
