set_option autoImplicit false
set_option relaxedAutoImplicit false

namespace TypedJson.Ascii

abbrev tab : UInt8 := 0x09
abbrev lineFeed : UInt8 := 0x0A
abbrev formFeed : UInt8 := 0x0C
abbrev carriageReturn : UInt8 := 0x0D
abbrev space : UInt8 := 0x20
abbrev doubleQuote : UInt8 := 0x22
abbrev hash : UInt8 := 0x23
abbrev singleQuote : UInt8 := 0x27
abbrev star : UInt8 := 0x2A
abbrev comma : UInt8 := 0x2C
abbrev slash : UInt8 := 0x2F
abbrev colon : UInt8 := 0x3A
abbrev semicolon : UInt8 := 0x3B
abbrev equals : UInt8 := 0x3D
abbrev openBracket : UInt8 := 0x5B
abbrev backslash : UInt8 := 0x5C
abbrev closeBracket : UInt8 := 0x5D
abbrev openBrace : UInt8 := 0x7B
abbrev closeBrace : UInt8 := 0x7D

def toChar (b : UInt8) : Char := Char.ofNat b.toNat

/-- Insignificant whitespace: space, tab, line feed and carriage return. -/
def isBlank (b : UInt8) : Bool :=
  b = space || b = tab || b = lineFeed || b = carriageReturn

def delimiters : List UInt8 :=
  [slash, backslash, semicolon, hash, equals, openBrace, closeBrace, openBracket, closeBracket,
    colon, comma, space, tab, formFeed, carriageReturn, lineFeed, doubleQuote, singleQuote]

def isLiteral (b : UInt8) : Bool := !delimiters.contains b

def hexValue? (b : UInt8) : Option Nat :=
  if 0x30 ≤ b ∧ b ≤ 0x39 then some (b.toNat - 0x30)
  else if 0x41 ≤ b ∧ b ≤ 0x46 then some (b.toNat - 0x41 + 10)
  else if 0x61 ≤ b ∧ b ≤ 0x66 then some (b.toNat - 0x61 + 10)
  else none

end TypedJson.Ascii
