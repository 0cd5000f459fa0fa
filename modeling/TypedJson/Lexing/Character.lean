import TypedJson.Lexing.Fault
import TypedJson.Text.Utf8

/-!
# Multibyte characters

Names, strings and unquoted literals collect multibyte characters in the same way: the first byte
says how many bytes belong to the character, and the character is checked when all are there.
-/

set_option autoImplicit false
set_option relaxedAutoImplicit false

namespace TypedJson.Lexing

structure Incomplete where
  bytes : List UInt8
  missing : Nat
  deriving DecidableEq, Repr

/-- Opens a multibyte character at its first byte, unless no character starts with that byte. -/
def openCharacter {σ α : Type} (next : Incomplete → σ) (b : UInt8) : Move LexFault σ α :=
  match Utf8.sequenceLength? b with
  | some n => .shift (next ⟨[b], n - 1⟩)
  | none => .halt (.error (.data .malformedText))

/-- Takes one more byte of a multibyte character; the last one completes the character. -/
def continueCharacter {σ α : Type} (next : Incomplete → σ) (complete : Char → σ) (p : Incomplete)
    (b : UInt8) : Move LexFault σ α :=
  let bytes := p.bytes ++ [b]
  if 1 < p.missing then .shift (next ⟨bytes, p.missing - 1⟩)
  else
    match Utf8.decodeOne? bytes with
    | some c => .shift (complete c)
    | none => .finish (.error (.data .malformedText))

end TypedJson.Lexing
