import TypedJson.Schema.Reading
import TypedJson.Schema.Writing
import TypedJson.Text.Utf8

set_option autoImplicit false
set_option relaxedAutoImplicit false

namespace TypedJson.Document

variable {κ : Type} [DecidableEq κ]

/-- The outcome of an operation, without the state it leaves. -/
def outcome {ε σ α : Type} : EStateM.Result ε σ α → Except ε α
  | .ok a _ => .ok a
  | .error e _ => .error e

/-- Reads a document from a source. -/
def parse (catalog : Catalog κ) (t : FieldType κ) (source : Source)
    (settings : ReaderSettings := {}) : Except BindError (Value κ) :=
  outcome (BindM.document catalog t (Reader.new source settings))

/-- Writes a document to a sink. -/
def writeTo (catalog : Catalog κ) (sink : Sink) (v : Value κ) (settings : WriterSettings := {}) :
    EStateM.Result BindError Writer Unit :=
  (do EmitM.document catalog v
      EmitM.write WriteM.release : EmitM Unit) (Writer.new sink settings)

/-- The bytes of a document. -/
def bytes (catalog : Catalog κ) (v : Value κ) (settings : WriterSettings := {}) :
    Except BindError (List UInt8) :=
  match writeTo catalog {} v settings with
  | .ok () w => .ok w.outlet.sink.received
  | .error e _ => .error e

/-- The text of a document. -/
def render (catalog : Catalog κ) (v : Value κ) (settings : WriterSettings := {}) :
    Except BindError String :=
  (bytes catalog v settings).map Utf8.decode

end TypedJson.Document
