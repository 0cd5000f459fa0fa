import TypedJson.Lexing.Blank
import TypedJson.Lexing.Quoted
import TypedJson.Lexing.Bare
import TypedJson.Number.Conversion

set_option autoImplicit false
set_option relaxedAutoImplicit false

namespace TypedJson

inductive Token where
  | beginObject
  | endObject
  | beginArray
  | endArray
  | name
  | string
  | number
  | boolean
  | null
  | endDocument
  deriving DecidableEq, Repr

def Token.text : Token → String
  | .beginObject => "BeginObject"
  | .endObject => "EndObject"
  | .beginArray => "BeginArray"
  | .endArray => "EndArray"
  | .name => "Name"
  | .string => "String"
  | .number => "Number"
  | .boolean => "Boolean"
  | .null => "Null"
  | .endDocument => "EndDocument"

/-- A unit of a document. Names and strings are decoded, numbers are kept as written. -/
inductive Lexeme where
  | beginObject
  | endObject
  | beginArray
  | endArray
  | name (text : String)
  | string (text : String)
  | number (literal : String)
  | boolean (value : Bool)
  | null
  | endDocument
  deriving DecidableEq, Repr

def Lexeme.token : Lexeme → Token
  | .beginObject => .beginObject
  | .endObject => .endObject
  | .beginArray => .beginArray
  | .endArray => .endArray
  | .name _ => .name
  | .string _ => .string
  | .number _ => .number
  | .boolean _ => .boolean
  | .null => .null
  | .endDocument => .endDocument

namespace Lexing

/-- The fault of a literal that no strict document contains, by its first character. -/
def literalFault (cs : List Char) : SyntaxFault :=
  match cs with
  | [] => .malformedJson
  | c :: _ =>
      if c = '-' ∨ c.isDigit then .malformedNumber
      else if c = 't' ∨ c = 'f' ∨ c = 'n' then .invalidLiteral
      else .malformedJson

/-- What an unquoted literal means as a value. A lenient document may use the words for non-finite
numbers, and any other literal as a string. -/
def classify (lenient : Bool) (s : String) : Except SyntaxFault Lexeme :=
  if s = "true" then .ok (.boolean true)
  else if s = "false" then .ok (.boolean false)
  else if s = "null" then .ok .null
  else if Number.isLiteral s.toList then .ok (.number s)
  else if lenient then
    if s ∈ Number.nonFiniteWords then .ok (.number s) else .ok (.string s)
  else .error (literalFault s.toList)

end Lexing

namespace LexM

def bareValue (lenient : Bool) : LexM Lexeme := do
  match Lexing.classify lenient (← bare) with
  | .ok l => pure l
  | .error fault => fail fault

/-- Whether a byte opens a quoted text: the double quote, and in lenient documents the single. -/
def opensQuoted (lenient : Bool) (b : UInt8) : Bool :=
  b = Ascii.doubleQuote || (b = Ascii.singleQuote && lenient)

/-- Reads a value, or the opening bracket of one, in front of whose first byte the cursor stands. -/
def value (lenient : Bool) (b : UInt8) : LexM Lexeme :=
  if b = Ascii.openBrace then do advance; pure .beginObject
  else if b = Ascii.openBracket then do advance; pure .beginArray
  else if opensQuoted lenient b then do
    advance
    pure (.string (← quoted ⟨b, lenient⟩))
  else if b = Ascii.closeBracket ∨ b = Ascii.closeBrace then fail .unexpectedClosingBracket
  else if b = Ascii.comma then fail .unexpectedComma
  else if b = Ascii.colon then fail .unexpectedColon
  else if Ascii.isLiteral b then bareValue lenient
  else fail .malformedJson

def name (lenient : Bool) (b : UInt8) : LexM Lexeme :=
  if opensQuoted lenient b then do
    advance
    pure (.name (← quoted ⟨b, lenient⟩))
  else if lenient ∧ Ascii.isLiteral b then do pure (.name (← bare))
  else fail .expectingMemberNameOrObjectEnd

end LexM

end TypedJson
