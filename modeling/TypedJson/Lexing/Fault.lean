import TypedJson.Input.Cursor

/-!
# Faults of the text

The ways in which a text can fail to be JSON, and the monad of operations on a cursor that may find
one. A failing operation leaves the cursor where the fault was found.
-/

set_option autoImplicit false
set_option relaxedAutoImplicit false

namespace TypedJson

inductive SyntaxFault where
  | commentsNotEnabled
  | incompleteComment
  | blockCommentNotClosed
  | invalidLiteral
  | unexpectedClosingBracket
  | unexpectedComma
  | missingComma
  | trailingCommaNotEnabled
  | unexpectedColon
  | missingColon
  | malformedNumber
  | expectingMemberNameOrObjectEnd
  | malformedJson
  | notEscapedControlCharacter
  | unknownEscapeSequence
  | malformedEscapeSequence
  | unpairedSurrogate
  | incompleteDocument
  | trailingData
  | maxNestingDepthExceeded
  deriving DecidableEq, Repr

def SyntaxFault.name : SyntaxFault → String
  | .commentsNotEnabled => "CommentsNotEnabled"
  | .incompleteComment => "IncompleteComment"
  | .blockCommentNotClosed => "BlockCommentNotClosed"
  | .invalidLiteral => "InvalidLiteral"
  | .unexpectedClosingBracket => "UnexpectedClosingBracket"
  | .unexpectedComma => "UnexpectedComma"
  | .missingComma => "MissingComma"
  | .trailingCommaNotEnabled => "TrailingCommaNotEnabled"
  | .unexpectedColon => "UnexpectedColon"
  | .missingColon => "MissingColon"
  | .malformedNumber => "MalformedNumber"
  | .expectingMemberNameOrObjectEnd => "ExpectingMemberNameOrObjectEnd"
  | .malformedJson => "MalformedJson"
  | .notEscapedControlCharacter => "NotEscapedControlCharacter"
  | .unknownEscapeSequence => "UnknownEscapeSequence"
  | .malformedEscapeSequence => "MalformedEscapeSequence"
  | .unpairedSurrogate => "UnpairedSurrogatePairEscapeSequence"
  | .incompleteDocument => "IncompleteDocument"
  | .trailingData => "TrailingData"
  | .maxNestingDepthExceeded => "MaxNestingDepthExceeded"

/-- A fault met while lexing: of the text, or of the data below it. -/
inductive LexFault where
  | text (fault : SyntaxFault)
  | data (fault : DataFault)
  deriving DecidableEq, Repr

abbrev LexM := EStateM LexFault Cursor

namespace LexM

def scan {σ α : Type} (m : Scanner LexFault σ α) (s : σ) : LexM α := fun c =>
  match m.scan .data s c with
  | (.ok a, c') => .ok a c'
  | (.error e, c') => .error e c'

def advance : LexM Unit :=
  modify Cursor.advance

def fail {α : Type} (fault : SyntaxFault) : LexM α :=
  throw (.text fault)

end LexM

end TypedJson
