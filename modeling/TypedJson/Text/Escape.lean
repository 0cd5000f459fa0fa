import TypedJson.Text.Utf16

set_option autoImplicit false
set_option relaxedAutoImplicit false

namespace TypedJson

/-- Which characters are escaped although the grammar does not ask for it. -/
structure EscapeRules where
  allNonAscii : Bool := false
  htmlSafe : Bool := false
  deriving DecidableEq, Repr

namespace Escape

def hexDigit (n : Nat) : Char :=
  if n < 10 then Char.ofNat (0x30 + n) else Char.ofNat (0x41 + (n - 10))

def unit (n : Nat) : List Char :=
  ['\\', 'u', hexDigit (n / 0x1000 % 16), hexDigit (n / 0x100 % 16), hexDigit (n / 0x10 % 16),
    hexDigit (n % 16)]

def isHtml (c : Char) : Bool :=
  c = '<' || c = '>' || c = '&' || c = '=' || c = '\''

/-- Escaped are always the quote, the backslash, control characters and the two line separators
that end a line in script code. -/
def isNeeded (rules : EscapeRules) (c : Char) : Bool :=
  c = '"' || c = '\\' || c.toNat < 0x20 || c = '\u2028' || c = '\u2029' ||
    (rules.allNonAscii && 0x80 ≤ c.toNat) || (rules.htmlSafe && isHtml c)

/-- The escape sequence of a character; a short one where the grammar has one. -/
def sequence (c : Char) : List Char :=
  if c = '"' then ['\\', '"']
  else if c = '\\' then ['\\', '\\']
  else if c = '\x08' then ['\\', 'b']
  else if c = '\x0c' then ['\\', 'f']
  else if c = '\n' then ['\\', 'n']
  else if c = '\r' then ['\\', 'r']
  else if c = '\t' then ['\\', 't']
  else (Utf16.units c).flatMap unit

def char (rules : EscapeRules) (c : Char) : List Char :=
  if isNeeded rules c then sequence c else [c]

def quoted (rules : EscapeRules) (cs : List Char) : List Char :=
  '"' :: (cs.flatMap (char rules) ++ ['"'])

end Escape

end TypedJson
