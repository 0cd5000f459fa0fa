import TypedJson.Lexing.Fault

set_option autoImplicit false
set_option relaxedAutoImplicit false

namespace TypedJson.Blank

/-- Where skipping stands: between comments, behind the slash that opens one, in a line comment, or
in a block comment whose last byte was a star or not. -/
inductive Phase where
  | between
  | slash
  | line
  | block (star : Bool)
  deriving DecidableEq, Repr

def move (lenient : Bool) : Phase → UInt8 → Move LexFault Phase (Option UInt8)
  | .between, b =>
      if Ascii.isBlank b then .shift .between
      else if b = Ascii.slash then
        if lenient then .shift .slash else .halt (.error (.text .commentsNotEnabled))
      else if b = Ascii.hash ∧ lenient then .shift .line
      else .halt (.ok (some b))
  | .slash, b =>
      if b = Ascii.slash then .shift .line
      else if b = Ascii.star then .shift (.block false)
      else .finish (.error (.text .incompleteComment))
  | .line, b =>
      if b = Ascii.lineFeed ∨ b = Ascii.carriageReturn then .shift .between else .shift .line
  | .block star, b =>
      if star ∧ b = Ascii.slash then .shift .between else .shift (.block (b = Ascii.star))

/-- The end of the data may follow anything but an open comment. -/
def atEnd : Phase → Except LexFault (Option UInt8)
  | .between | .line => .ok none
  | .slash => .error (.text .incompleteComment)
  | .block _ => .error (.text .blockCommentNotClosed)

/-- Skips blank space; the answer is the next byte, which is not consumed. -/
def scanner (lenient : Bool) : Scanner LexFault Phase (Option UInt8) :=
  ⟨move lenient, atEnd⟩

end TypedJson.Blank

namespace TypedJson.LexM

def skipBlank (lenient : Bool) : LexM (Option UInt8) :=
  scan (Blank.scanner lenient) .between

/-- Skips blank space where the document has to go on. -/
def skipBlankToByte (lenient : Bool) : LexM UInt8 := do
  match ← skipBlank lenient with
  | some b => pure b
  | none => fail .incompleteDocument

end TypedJson.LexM
