import TypedJson.Lexing.Character

set_option autoImplicit false
set_option relaxedAutoImplicit false

namespace TypedJson.Bare

/-- Between characters, or inside a multibyte one. -/
inductive Phase where
  | plain
  | character (p : Lexing.Incomplete)
  deriving DecidableEq, Repr

/-- The characters read so far, the last one first, and the phase. -/
structure State where
  text : List Char := []
  phase : Phase := .plain
  deriving DecidableEq, Repr

def State.push (s : State) (c : Char) : State := ⟨c :: s.text, .plain⟩

def move (s : State) (b : UInt8) : Move LexFault State String :=
  match s.phase with
  | .plain =>
      if ¬ Ascii.isLiteral b then .halt (.ok (String.ofList s.text.reverse))
      else if b < 0x80 then .shift (s.push (Ascii.toChar b))
      else Lexing.openCharacter (fun p => { s with phase := .character p }) b
  | .character p =>
      Lexing.continueCharacter (fun p => { s with phase := .character p }) s.push p b

/-- The end of the data ends a literal too, but not inside a character. -/
def atEnd (s : State) : Except LexFault String :=
  match s.phase with
  | .plain => .ok (String.ofList s.text.reverse)
  | .character _ => .error (.data .malformedText)

def scanner : Scanner LexFault State String :=
  ⟨move, atEnd⟩

end TypedJson.Bare

namespace TypedJson.LexM

def bare : LexM String :=
  scan Bare.scanner {}

end TypedJson.LexM
