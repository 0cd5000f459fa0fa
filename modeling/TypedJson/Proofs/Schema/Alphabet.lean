import TypedJson.Proofs.Schema.Visits
import TypedJson.Proofs.Writer.Alphabet
import TypedJson.Document
import TypedJson.Sample.Catalog

set_option autoImplicit false
set_option relaxedAutoImplicit false

namespace TypedJson

open Operation
open Utf8 (encode)

namespace Writer

variable {w w' : Writer}

theorem after_append (requests later : List Request) :
    w.after (requests ++ later) = (w.after requests).after later := by
  induction requests generalizing w with
  | nil => rfl
  | cons q requests ih => exact ih

theorem after_calls {calls : List Call} (h : calls.forM Call.run w = .ok () w') :
    w.after (calls.map Request.call) = w' := by
  induction calls generalizing w with
  | nil =>
      cases h
      rfl
  | cons c calls ih =>
      obtain ⟨_, v, first, rest⟩ := bind_eq_ok.mp h
      have step : final (Request.run (.call c) w) = v := congrArg final first
      rw [List.map_cons, after, step]
      exact ih rest

end Writer

namespace Document

variable {κ : Type} [DecidableEq κ] {catalog : Catalog κ} {v : Value κ} {settings : WriterSettings}

theorem composed_of_bytes {out : List UInt8} (h : bytes catalog v settings = .ok out) :
    ∃ cs, out = encode cs ∧ Composed settings.pretty settings.escape cs := by
  unfold bytes at h
  split at h
  · rename_i w written
    cases h
    obtain ⟨_, closed, document, release⟩ := bind_eq_ok.mp written
    obtain ⟨_, begun, value, close⟩ := bind_eq_ok.mp document
    obtain ⟨t, emits⟩ : ∃ t : Tree, EmitM.Emits t.events (EmitM.value catalog v) :=
      EmitM.exists_tree_value v
    obtain ⟨calls, -, run⟩ := emits
    have session : (Writer.new {} settings).after (calls.map .call ++ [.close]) = closed := by
      rw [Writer.after_append, Writer.after_calls (run _ _ _ value)]
      exact congrArg final (EmitM.run_of_write close)
    obtain ⟨_, cs, -, -, composed, emptied⟩ :=
      Writer.composed_of_session Sink.reliable_new settings (calls.map .call ++ [.close])
    rw [session] at emptied
    exact ⟨cs, emptied w (.inr (.inr (EmitM.run_of_write release))), composed⟩
  · cases h

/-- Over a sink that does not fail, what a session puts out is a text of layout and units. At no
moment is any byte with the sink that the settings exclude, and once the buffer has been emptied the
sink has the encoding of the whole text. Hence decoding the bytes of a document loses nothing. -/
theorem output_in_alphabet (settings : WriterSettings) :
    (∀ sink : Sink, sink.Reliable → ∀ requests : List Writer.Request,
      let w := (Writer.new sink settings).after requests
      ∃ sent cs, w.outlet.sink.received = sink.received ++ sent ∧
        sent ++ w.outlet.buffer.toList = encode cs ∧
        Composed settings.pretty settings.escape cs ∧
        Clean settings.pretty settings.escape sent ∧
        Clean settings.pretty settings.escape (encode cs) ∧
        ∀ v, w.Empties v → v.outlet.sink.received = sink.received ++ encode cs) ∧
    ∀ (catalog : Catalog κ) (v : Value κ) (text : String),
      render catalog v settings = .ok text →
        bytes catalog v settings = .ok (encode text.toList) ∧
          Composed settings.pretty settings.escape text.toList ∧
          Clean settings.pretty settings.escape (encode text.toList) := by
  constructor
  · intro sink reliable requests w
    obtain ⟨sent, cs, received, due, composed, emptied⟩ :=
      Writer.composed_of_session reliable settings requests
    have cut : sent <+: encode cs := ⟨_, due⟩
    exact ⟨sent, cs, received, due, composed, composed.clean.of_prefix cut, composed.clean, emptied⟩
  · intro catalog v text rendered
    unfold render at rendered
    cases written : bytes catalog v settings with
    | error e =>
        rw [written] at rendered
        cases rendered
    | ok out =>
        obtain ⟨cs, rfl, composed⟩ := composed_of_bytes written
        rw [written] at rendered
        have decoded : text = String.ofList cs := by
          rw [← Utf8.decode_encode]
          exact (Except.ok.inj rendered).symm
        rw [decoded, String.toList_ofList]
        exact ⟨rfl, composed, composed.clean⟩

/-- Everything is escaped that can be, over a sink that is slow. -/
theorem output_in_alphabet_escaped :
    let settings : WriterSettings := { pretty := true, escape := ⟨true, true⟩ }
    let sink : Sink := { replies := [.interrupted, .accepted 2] }
    let requests : List Writer.Request := [.call .beginArray, .call (.string "<\n\u00e9"), .flush]
    let v : Value Sample.Key := .list [.scalar (.text "<\u2028\u00e9")]
    let text := "[\n  \"\\u003C\\u2028\\u00E9\"\n]"
    sink.Reliable ∧
      (∃ sent, ((Writer.new sink settings).after requests).outlet.sink.received = sent ∧
        Clean true ⟨true, true⟩ sent) ∧
      render Sample.catalog v settings = .ok text ∧
      bytes Sample.catalog v settings = .ok (encode text.toList) := by
  intro settings sink requests v text
  have reliable : sink.Reliable := Sink.reliable_of_replies (by simp [Acceptance.IsReliable])
  have rendered : render Sample.catalog v settings = .ok text :=
    by decide +kernel
  obtain ⟨session, document⟩ := output_in_alphabet (κ := Sample.Key) settings
  obtain ⟨sent, cs, received, -, -, clean, -⟩ := session sink reliable requests
  obtain ⟨whole, -⟩ := document Sample.catalog v text rendered
  exact ⟨reliable, ⟨sent, received, clean⟩, rendered, whole⟩

end Document

end TypedJson
