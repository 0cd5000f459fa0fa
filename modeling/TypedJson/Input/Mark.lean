import TypedJson.Text.Ascii

set_option autoImplicit false
set_option relaxedAutoImplicit false

namespace TypedJson

/-- A place in the data. `afterReturn` remembers a carriage return whose line feed may follow. -/
structure Mark where
  line : Nat := 0
  column : Nat := 0
  bytes : Nat := 0
  afterReturn : Bool := false
  deriving DecidableEq, Repr

namespace Mark

/-- Bytes inside a multibyte character; such a byte opens no column. -/
def isContinuation (b : UInt8) : Bool := 0x80 ≤ b ∧ b ≤ 0xBF

def advance (m : Mark) (b : UInt8) : Mark :=
  if b = Ascii.lineFeed then
    ⟨if m.afterReturn then m.line else m.line + 1, 0, m.bytes + 1, false⟩
  else if b = Ascii.carriageReturn then ⟨m.line + 1, 0, m.bytes + 1, true⟩
  else if isContinuation b then ⟨m.line, m.column, m.bytes + 1, false⟩
  else ⟨m.line, m.column + 1, m.bytes + 1, false⟩

def advanceAll (m : Mark) (bytes : List UInt8) : Mark :=
  bytes.foldl advance m

end Mark

end TypedJson
