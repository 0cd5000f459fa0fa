import TypedJson.Number.Literal
import TypedJson.Number.Decimal
import TypedJson.Number.Binary
import TypedJson.Number.Shortest
import TypedJson.Number.Layout
import TypedJson.Number.Conversion
import TypedJson.Number.Arithmetic
import TypedJson.Text.Ascii
import TypedJson.Text.Utf8
import TypedJson.Text.Utf16
import TypedJson.Text.Escape
import TypedJson.DataFault
import TypedJson.Input.Source
import TypedJson.Input.Mark
import TypedJson.Input.Cursor
import TypedJson.Lexing.Fault
import TypedJson.Lexing.Blank
import TypedJson.Lexing.Character
import TypedJson.Lexing.Quoted
import TypedJson.Lexing.Bare
import TypedJson.Lexing.Lexeme
import TypedJson.Scalar
import TypedJson.Event
import TypedJson.Reader.Location
import TypedJson.Reader.Error
import TypedJson.Reader.Basic
import TypedJson.Reader.Scalar
import TypedJson.Reader.Events
import TypedJson.Output.Sink
import TypedJson.Output.Outlet
import TypedJson.Writer.Error
import TypedJson.Writer.Basic
import TypedJson.Schema.Descriptor
import TypedJson.Schema.Declaration
import TypedJson.Schema.Error
import TypedJson.Schema.Dispatch
import TypedJson.Schema.Reading
import TypedJson.Schema.Writing
import TypedJson.Schema.Support
import TypedJson.Schema.Registry
import TypedJson.Document
import TypedJson.Copy
import TypedJson.Sample.Key
import TypedJson.Sample.Layers
import TypedJson.Sample.Temperature
import TypedJson.Sample.Catalog
import TypedJson.Proofs.Operation
import TypedJson.Proofs.Input.Stream
import TypedJson.Proofs.Input.Coupling
import TypedJson.Proofs.Lexing.Coupled
import TypedJson.Proofs.Reader.Coupled
import TypedJson.Proofs.Lexing.Progress
import TypedJson.Proofs.Reader.Progress
import TypedJson.Proofs.Input.Delivery
import TypedJson.Proofs.Reader.Session
import TypedJson.Proofs.Grammar.Text
import TypedJson.Proofs.Number.Literal
import TypedJson.Proofs.Lexing.Outcome
import TypedJson.Proofs.Lexing.Spelling
import TypedJson.Proofs.Lexing.Exact
import TypedJson.Proofs.Grammar.Position
import TypedJson.Proofs.Reader.Position
import TypedJson.Proofs.Reader.Expects
import TypedJson.Proofs.Reader.Recognition
import TypedJson.Proofs.Output.Reliable
import TypedJson.Proofs.Output.Total
import TypedJson.Proofs.Text.Escape
import TypedJson.Proofs.Number.IntegerText
import TypedJson.Proofs.Writer.Layout
import TypedJson.Proofs.Writer.Text
import TypedJson.Proofs.Grammar.Completion
import TypedJson.Proofs.Writer.Readback
import TypedJson.Proofs.Writer.Call
import TypedJson.Proofs.Writer.Session
import TypedJson.Proofs.Number.Rounding
import TypedJson.Proofs.Number.Widening
import TypedJson.Proofs.Number.Numeral
import TypedJson.Proofs.Number.Nearest
import TypedJson.Proofs.Number.Exact
import TypedJson.Proofs.Schema.Descriptor
import TypedJson.Proofs.Schema.Dispatch
import TypedJson.Proofs.Schema.Typing
import TypedJson.Proofs.Schema.Writing
import TypedJson.Proofs.Reader.Values
import TypedJson.Proofs.Schema.Reading
import TypedJson.Proofs.Schema.RoundTrip
import TypedJson.Proofs.Writer.Acceptance
import TypedJson.Proofs.Writer.Failure
import TypedJson.Proofs.Reader.Consumption
import TypedJson.Proofs.Reader.Skipping
import TypedJson.Proofs.Reader.Steps
import TypedJson.Proofs.Reader.Scalars
import TypedJson.Proofs.Reader.Numbers
import TypedJson.Proofs.Reader.Decoding
import TypedJson.Proofs.Reader.Passage
import TypedJson.Proofs.Reader.Trail
import TypedJson.Proofs.Schema.Consumption
import TypedJson.Proofs.Schema.Loop
import TypedJson.Proofs.Schema.Members
import TypedJson.Proofs.Schema.Fuel
import TypedJson.Proofs.Schema.Decoding
import TypedJson.Proofs.Schema.Context
import TypedJson.Proofs.Schema.Update
import TypedJson.Proofs.Schema.Finite
import TypedJson.Proofs.Schema.Registry
import TypedJson.Proofs.Schema.History
import TypedJson.Proofs.Reader.Faults
import TypedJson.Proofs.Lexing.Span
import TypedJson.Proofs.Reader.Span
import TypedJson.Proofs.Schema.WellFormed
import TypedJson.Proofs.Reader.Recovery
import TypedJson.Proofs.Writer.Refusal
import TypedJson.Proofs.Output.Prefix
import TypedJson.Proofs.Output.Attempts
import TypedJson.Proofs.Writer.Emission
import TypedJson.Proofs.Schema.Streaming
import TypedJson.Proofs.Lexing.Lenient
import TypedJson.Proofs.Reader.Lenient
import TypedJson.Proofs.Schema.Lenient
import TypedJson.Proofs.Input.Mark
import TypedJson.Proofs.Reader.Location
import TypedJson.Proofs.Schema.Addressing
import TypedJson.Proofs.Schema.Visits
import TypedJson.Proofs.Grammar.Layout
import TypedJson.Proofs.Lexing.Gap
import TypedJson.Proofs.Reader.Layout
import TypedJson.Proofs.Reader.Mirror
import TypedJson.Proofs.Reader.Decoration
import TypedJson.Proofs.Schema.Lookup
import TypedJson.Proofs.Schema.Draft
import TypedJson.Proofs.Schema.Validity
import TypedJson.Proofs.Schema.Kept
import TypedJson.Proofs.Schema.Invalid
import TypedJson.Proofs.Text.Alphabet
import TypedJson.Proofs.Writer.Alphabet
import TypedJson.Proofs.Schema.Alphabet
import TypedJson.Proofs.Reader.Quotation
import TypedJson.Proofs.Schema.Collection
import TypedJson.Proofs.Schema.Steps
import TypedJson.Proofs.Schema.NonFinite
import TypedJson.Proofs.Text.Quoting
import TypedJson.Proofs.Writer.Pieces
import TypedJson.Proofs.Writer.Lines
import TypedJson.Proofs.Number.Regular
import TypedJson.Proofs.Checked.Operation
import TypedJson.Proofs.Checked.Output
import TypedJson.Proofs.Checked.Writer
import TypedJson.Proofs.Checked.Window
import TypedJson.Proofs.Checked.Lexing
import TypedJson.Proofs.Checked.Reader
import TypedJson.Proofs.Checked.Reading
import TypedJson.Proofs.Checked.Skipping
import TypedJson.Proofs.Checked.Session
import TypedJson.Proofs.Reader.Ending
import TypedJson.Proofs.Checked.Schema
import TypedJson.Proofs.Checked.Binding
import TypedJson.Proofs.Checked.Termination
