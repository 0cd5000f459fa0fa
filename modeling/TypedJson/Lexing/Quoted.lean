import TypedJson.Lexing.Character
import TypedJson.Text.Utf16

set_option autoImplicit false
set_option relaxedAutoImplicit false

namespace TypedJson.Quoted

/-- Where a quoted text stands. The hexadecimal phases hold the value of the digits read and the
number of digits missing; from `mark` on, a high surrogate waits for its partner. -/
inductive Phase where
  | plain
  | escape
  | unit (value missing : Nat)
  | mark (high : Nat)
  | letter (high : Nat)
  | partner (high value missing : Nat)
  | character (p : Lexing.Incomplete)
  deriving DecidableEq, Repr

/-- The characters read so far, the last one first, and the phase. -/
structure State where
  text : List Char := []
  phase : Phase := .plain
  deriving DecidableEq, Repr

/-- Which quote ends the text, and whether the single quote may be escaped. -/
structure Rules where
  quote : UInt8
  lenient : Bool
  deriving DecidableEq, Repr

namespace State

def push (s : State) (c : Char) : State := ⟨c :: s.text, .plain⟩

end State

def escaped? (lenient : Bool) (b : UInt8) : Option Char :=
  if b = Ascii.doubleQuote ∨ b = Ascii.backslash ∨ b = Ascii.slash then some (Ascii.toChar b)
  else if b = Ascii.singleQuote ∧ lenient then some '\''
  else if b = 0x62 then some '\x08'
  else if b = 0x66 then some '\x0c'
  else if b = 0x6E then some '\n'
  else if b = 0x72 then some '\r'
  else if b = 0x74 then some '\t'
  else none

abbrev unitLetter : UInt8 := 0x75

def plainMove (rules : Rules) (s : State) (b : UInt8) : Move LexFault State String :=
  if b = rules.quote then .finish (.ok (String.ofList s.text.reverse))
  else if b = Ascii.backslash then .shift { s with phase := .escape }
  else if b < 0x20 then .halt (.error (.text .notEscapedControlCharacter))
  else if b < 0x80 then .shift (s.push (Ascii.toChar b))
  else Lexing.openCharacter (fun p => { s with phase := .character p }) b

/-- A complete unit is a character, or a high surrogate, or a fault. -/
def unitMove (s : State) (value : Nat) : Move LexFault State String :=
  if Utf16.isHigh value then .shift { s with phase := .mark value }
  else if Utf16.isLow value then .finish (.error (.text .unpairedSurrogate))
  else .shift (s.push (Char.ofNat value))

/-- The unit behind a high surrogate has to be a low one. -/
def partnerMove (s : State) (high value : Nat) : Move LexFault State String :=
  if Utf16.isLow value then .shift (s.push (Utf16.pair high value))
  else .finish (.error (.text .unpairedSurrogate))

def move (rules : Rules) (s : State) (b : UInt8) : Move LexFault State String :=
  match s.phase with
  | .plain => plainMove rules s b
  | .escape =>
      if b = unitLetter then .shift { s with phase := .unit 0 4 }
      else
        match escaped? rules.lenient b with
        | some c => .shift (s.push c)
        | none => .finish (.error (.text .unknownEscapeSequence))
  | .unit value missing =>
      match Ascii.hexValue? b with
      | none => .finish (.error (.text .malformedEscapeSequence))
      | some d =>
          if 1 < missing then .shift { s with phase := .unit (16 * value + d) (missing - 1) }
          else unitMove s (16 * value + d)
  | .mark high =>
      if b = Ascii.backslash then .shift { s with phase := .letter high }
      else .finish (.error (.text .unpairedSurrogate))
  | .letter high =>
      if b = unitLetter then .shift { s with phase := .partner high 0 4 }
      else .finish (.error (.text .unpairedSurrogate))
  | .partner high value missing =>
      match Ascii.hexValue? b with
      | none => .finish (.error (.text .malformedEscapeSequence))
      | some d =>
          if 1 < missing then
            .shift { s with phase := .partner high (16 * value + d) (missing - 1) }
          else partnerMove s high (16 * value + d)
  | .character p =>
      Lexing.continueCharacter (fun p => { s with phase := .character p }) s.push p b

/-- The end of the data never ends a quoted text; the fault tells what was being read. -/
def atEnd (s : State) : Except LexFault String :=
  match s.phase with
  | .plain => .error (.text .incompleteDocument)
  | .escape | .unit _ _ | .partner _ _ _ => .error (.text .malformedEscapeSequence)
  | .mark _ | .letter _ => .error (.text .unpairedSurrogate)
  | .character _ => .error (.data .malformedText)

def scanner (rules : Rules) : Scanner LexFault State String :=
  ⟨move rules, atEnd⟩

end TypedJson.Quoted

namespace TypedJson.LexM

/-- Reads the content of a text whose opening quote has been consumed. -/
def quoted (rules : Quoted.Rules) : LexM String :=
  scan (Quoted.scanner rules) {}

end TypedJson.LexM
