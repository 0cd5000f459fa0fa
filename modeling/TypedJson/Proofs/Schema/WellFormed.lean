import TypedJson.Proofs.Reader.Span
import TypedJson.Proofs.Schema.Consumption

/-!
# Malformed documents

No ill-formed UTF-8 outside comments gets past a reader: reading to the end of the document, in
whichever way, fails. Comments are skipped byte by byte, and what they consist of is not looked at.
-/

set_option autoImplicit false
set_option relaxedAutoImplicit false

namespace TypedJson.Document

open Operation
open Utf8 (encode)
open Grammar (WellFormed)
open Reader (AllSucceed Sound)

variable {κ : Type} [DecidableEq κ] {source : Source} {bytes : List UInt8}

/-- A document is well-formed, but for the content of its comments, if it has been read to its end:
by the plain loop, by calls that succeed and then require the end, or by a type. Comments are for
lenient readers. -/
theorem wellFormed_of_read (catalog : Catalog κ) (settings : ReaderSettings)
    (delivers : source.Delivers bytes .endOfData) :
    (∀ evs r, (Reader.new source settings).events = ((evs, none), r) →
      WellFormed settings.lenient bytes) ∧
    (∀ lenient calls, (settings.lenient = true ∨ .setLenient true ∈ calls → lenient = true) →
      AllSucceed ((Reader.new source settings).session (calls ++ [.finish])).1 →
      WellFormed lenient bytes) ∧
    ∀ t v, parse catalog t source settings = .ok v → WellFormed settings.lenient bytes := by
  have start : (Reader.new source settings).Sound settings.lenient bytes :=
    Reader.sound_new delivers id
  refine ⟨?_, ?_, ?_⟩
  · intro evs r loop
    have span := start.eventsWithin (Nat.lt_succ_self _) loop
    exact span.wellFormed
  · intro lenient calls allowed succeed
    have sound : (Reader.new source settings).Sound lenient bytes :=
      Reader.sound_new delivers fun given => allowed (.inl given)
    have span := sound.session (fun switched => allowed (.inr switched)) succeed
    exact span.wellFormed
  · intro t v parsed
    obtain ⟨r, r', read, finished⟩ := parse_eq_ok parsed
    obtain ⟨⟨tree, consumes⟩, -⟩ := BindM.field_eq_ok read
    have span := (start.passes consumes.passes).finish finished
    exact span.wellFormed

/-- A string, and behind it a comment. The reader has been strict to begin with. -/
theorem wellFormed_of_read_comment :
    ∃ source bytes, source = ⟨[.data 0x22 [0xC3], .interrupted, .data 0xA4 [0x22, 0x23, 0xC3, 0xA9]],
        .endOfData⟩ ∧ source.Delivers bytes .endOfData ∧
      (∃ r, (Reader.new source { lenient := true }).events = (([.string "ä"], none), r)) ∧
      AllSucceed ((Reader.new source).session [.nextString, .setLenient true, .finish]).1 ∧
      (∃ v, parse Sample.catalog (.scalar .text) source { lenient := true } = .ok v) ∧
      WellFormed true bytes := by
  have delivers : Source.Delivers
      ⟨[.data 0x22 [0xC3], .interrupted, .data 0xA4 [0x22, 0x23, 0xC3, 0xA9]], .endOfData⟩
      [0x22, 0xC3, 0xA4, 0x22, 0x23, 0xC3, 0xA9] .endOfData :=
    .data (.interrupted (.data .exhausted))
  have read := wellFormed_of_read Sample.catalog {} delivers
  have succeed : AllSucceed ((Reader.new ⟨[.data 0x22 [0xC3], .interrupted,
      .data 0xA4 [0x22, 0x23, 0xC3, 0xA9]], .endOfData⟩).session
        [.nextString, .setLenient true, .finish]).1 := by
    decide +kernel
  have answer : ((parse Sample.catalog (.scalar .text) ⟨[.data 0x22 [0xC3], .interrupted,
      .data 0xA4 [0x22, 0x23, 0xC3, 0xA9]], .endOfData⟩ { lenient := true }).toOption.map
        Value.scalars) = some [.text "ä"] := by
    decide +kernel
  obtain ⟨v, parsed, -⟩ := Option.map_eq_some_iff.mp answer
  refine ⟨_, _, rfl, delivers, ⟨_, Prod.ext (by decide +kernel) rfl⟩, succeed,
    ⟨v, ok_of_toOption parsed⟩, ?_⟩
  exact read.2.1 true [.nextString, .setLenient true] (fun _ => rfl) succeed

/-- Within a comment, a byte that no character is encoded with. -/
theorem not_wellFormed_of_read :
    ¬ ∀ (source : Source) (bytes : List UInt8) (settings : ReaderSettings) (evs : List Event)
      (r : Reader), source.Delivers bytes .endOfData →
        (Reader.new source settings).events = ((evs, none), r) → ∃ cs, bytes = encode cs := by
  intro claim
  have delivers : Source.Delivers ⟨[.data 0x2F [0x2A, 0xFF, 0x2A, 0x2F, 0x31]], .endOfData⟩
      [0x2F, 0x2A, 0xFF, 0x2A, 0x2F, 0x31] .endOfData :=
    .data .exhausted
  obtain ⟨cs, text⟩ := claim _ _ { lenient := true } [.number "1"] _ delivers
    (Prod.ext (by decide +kernel) rfl)
  obtain ⟨-, cs, text⟩ | ⟨n, length⟩ := Utf8.encode_eq_cons text.symm
  · obtain ⟨-, cs, text⟩ | ⟨n, length⟩ := Utf8.encode_eq_cons text
    · obtain ⟨ascii, -⟩ | ⟨n, length⟩ := Utf8.encode_eq_cons text
      · exact absurd ascii (by decide)
      · cases length
    · cases length
  · cases length

end TypedJson.Document
