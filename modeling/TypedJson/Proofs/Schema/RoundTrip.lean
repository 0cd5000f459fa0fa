import TypedJson.Proofs.Reader.Recognition
import TypedJson.Proofs.Schema.Reading
import TypedJson.Proofs.Schema.Writing
import TypedJson.Proofs.Writer.Readback
import TypedJson.Sample.Catalog

set_option autoImplicit false
set_option relaxedAutoImplicit false

namespace TypedJson

open Operation
open Utf8 (encode)
open Grammar (Numeral)

variable {κ : Type} [DecidableEq κ] {catalog : Catalog κ} {t : FieldType κ} {v : Value κ}
variable {settings : WriterSettings} {readerSettings : ReaderSettings} {nonFinite : Bool}

namespace EmitM

theorem document_text (lenient : nonFinite = true → settings.lenient = true)
    (typed : HasType catalog t v) (hs : ∀ s ∈ v.scalars, s.isFinite = true ∨ nonFinite = true) :
    ∃ cs, Grammar.Value (Numeral nonFinite) (v.tree catalog) cs ∧ ∀ sink : Sink, sink.Reliable →
      ∃ w, document catalog v (Writer.new sink settings) = .ok () w ∧
        w.outlet.sink.received = sink.received ++ encode cs ∧
        w.outlet.Holds (sink.received ++ encode cs) := by
  obtain ⟨calls, events, fits, run⟩ := writes_value lenient typed hs
  obtain ⟨cs, value, written⟩ := Writer.document_text events fits
  refine ⟨cs, value, fun sink reliable => ?_⟩
  obtain ⟨w, hx, received, holds⟩ := written sink reliable
  obtain ⟨_, w', hx, closed⟩ := bind_eq_ok.mp hx
  obtain ⟨_, hv⟩ := run _ _ hx
  refine ⟨w, (bind_of_ok hv).trans ?_, received, holds⟩
  rw [write, closed]

end EmitM

namespace BindM

/-- From a text of the JSON value of a typed value, the value is read, collapsed. -/
theorem document_value (lenient : nonFinite = true → readerSettings.lenient = true)
    (typed : HasType catalog t v) (hs : ∀ s ∈ v.scalars, s.isFinite = true ∨ nonFinite = true)
    {cs : List Char} (value : Grammar.Value (Numeral nonFinite) (v.tree catalog) cs)
    (room : (v.tree catalog).depth ≤ readerSettings.maxNestingDepth) {source : Source}
    (delivers : source.Delivers (encode cs) .endOfData) :
    ∃ r, document catalog t (Reader.new source readerSettings) = .ok v.collapse r := by
  have text := Grammar.Text.of_value value
  have hN := Grammar.numerals_numeral lenient
  have expects : Reader.Expects (Numeral nonFinite) readerSettings (v.tree catalog).events
      (Reader.new source readerSettings) :=
    (Reader.expects_new delivers).mpr ⟨_, cs, rfl, text, room, rfl⟩
  have fuel := ReadM.length_le_unitsLeft hN expects
  have field := attains_fieldBy hN lenient typed hs
    (Nat.le_succ_of_le fuel) (Nat.le_succ_of_le fuel) []
  rw [List.append_nil] at field
  obtain ⟨_, r, hx, rfl, rest⟩ := field _ expects
  obtain ⟨_, r', hfinish, -⟩ := attains_read (ReadM.attains_finish hN) r rest
  exact ⟨r', (bind_of_ok hx).trans (bind_of_ok hfinish)⟩

end BindM

namespace Document

/-- A typed value without infinite floats and NaNs, written over whatever sink that does not fail
and with whatever settings, comes back from whatever source that delivers the document, to a reader
that allows for the nesting. If both are lenient, the floats may be infinite or NaN. -/
theorem round_trip (settings : WriterSettings) (readerSettings : ReaderSettings)
    (typed : HasType catalog t v) {sink : Sink} (reliable : sink.Reliable)
    (floats : (∀ s ∈ v.scalars, s.isFinite = true) ∨
      (settings.lenient = true ∧ readerSettings.lenient = true))
    (room : (v.tree catalog).depth ≤ readerSettings.maxNestingDepth) :
    ∃ w cs, EmitM.document catalog v (Writer.new sink settings) = .ok () w ∧
      w.outlet.sink.received = sink.received ++ encode cs ∧
      Grammar.Value (Numeral (settings.lenient && readerSettings.lenient)) (v.tree catalog) cs ∧
      ∀ source : Source, source.Delivers (encode cs) .endOfData →
        ∃ r, BindM.document catalog t (Reader.new source readerSettings) = .ok v.collapse r := by
  generalize both : (settings.lenient && readerSettings.lenient) = nonFinite
  have writing : nonFinite = true → settings.lenient = true := by
    rintro rfl
    exact (Bool.and_eq_true _ _ ▸ both).1
  have reading : nonFinite = true → readerSettings.lenient = true := by
    rintro rfl
    exact (Bool.and_eq_true _ _ ▸ both).2
  have hs : ∀ s ∈ v.scalars, s.isFinite = true ∨ nonFinite = true := by
    intro s h
    rcases floats with finite | ⟨writer, reader⟩
    · exact .inl (finite s h)
    · right
      rw [← both, writer, reader]
      rfl
  obtain ⟨cs, value, run⟩ := EmitM.document_text writing typed hs
  obtain ⟨w, hx, received, -⟩ := run sink reliable
  exact ⟨w, cs, hx, received, value, fun source delivers =>
    BindM.document_value reading typed hs value room delivers⟩

/-- A record of a type that extends another, and an option over nothing, which comes back as
nothing. -/
theorem round_trip_documents :
    ∃ w cs, EmitM.document Sample.catalog
        (.list [.present (.present (.record .document [.scalar (.integer (-7)), .absent,
          .scalar (.text "\u00e4")])), .present .absent])
        (Writer.new {} { pretty := true }) = .ok () w ∧
      w.outlet.sink.received = encode cs ∧
      ∀ source : Source, source.Delivers (encode cs) .endOfData →
        ∃ r, BindM.document Sample.catalog (.list (.optional (.optional (.record .document))))
          (Reader.new source) = .ok (.list [.present (.present (.record .document
            [.scalar (.integer (-7)), .absent, .scalar (.text "\u00e4")])), .absent]) r := by
  have declared : (Sample.catalog .document).IsDeclared :=
    ⟨⟨_, _, rfl⟩, by decide, _, rfl⟩
  have record : HasType Sample.catalog (.record .document)
      (.record .document [.scalar (.integer (-7)), .absent, .scalar (.text "\u00e4")]) := by
    apply HasType.record declared rfl rfl
    intro i f v hf hv
    match i with
    | 0 =>
        cases hf
        cases hv
        exact .scalar rfl
    | 1 =>
        cases hf
        cases hv
        exact .absent
    | 2 =>
        cases hf
        cases hv
        exact .scalar rfl
    | i + 3 => cases hv
  have typed : HasType Sample.catalog (.list (.optional (.optional (.record .document))))
      (.list [.present (.present (.record .document [.scalar (.integer (-7)), .absent,
        .scalar (.text "\u00e4")])), .present .absent]) := by
    apply HasType.list
    intro v hv
    rcases List.mem_cons.mp hv with rfl | hv
    · exact .present (.present record)
    · obtain rfl := List.mem_singleton.mp hv
      exact .present .absent
  have reliable : ({} : Sink).Reliable := ⟨nofun, ⟨1023, rfl⟩, nofun, rfl⟩
  obtain ⟨w, cs, hx, received, -, reads⟩ :=
    round_trip { pretty := true } {} typed reliable (.inl (by decide)) (by decide)
  exact ⟨w, cs, hx, received, reads⟩

end Document

end TypedJson
