/-!
# Number literals

The grammar of number literals (RFC 8259, section 6) as a finite automaton over characters:
an optional minus, a whole part without superfluous leading zero, an optional fraction and an
optional exponent. `isLiteral` runs the automaton over a whole text.
-/

set_option autoImplicit false
set_option relaxedAutoImplicit false

namespace TypedJson.Number

inductive Phase where
  | start
  | minus
  | zero
  | whole
  | point
  | fraction
  | exponentMark
  | exponentSign
  | exponent
  deriving DecidableEq, Repr

/-- What may follow a complete whole part: a fraction or an exponent. -/
def Phase.afterWhole (c : Char) : Option Phase :=
  if c = '.' then some .point
  else if c = 'e' ∨ c = 'E' then some .exponentMark
  else none

/-- The first digit of the whole part; a leading zero admits no further digit. -/
def Phase.firstDigit (c : Char) : Option Phase :=
  if c = '0' then some .zero
  else if c.isDigit then some .whole
  else none

def Phase.next : Phase → Char → Option Phase
  | .start, c => if c = '-' then some .minus else firstDigit c
  | .minus, c => firstDigit c
  | .zero, c => afterWhole c
  | .whole, c => if c.isDigit then some .whole else afterWhole c
  | .point, c => if c.isDigit then some .fraction else none
  | .fraction, c =>
      if c.isDigit then some .fraction
      else if c = 'e' ∨ c = 'E' then some .exponentMark
      else none
  | .exponentMark, c =>
      if c = '-' ∨ c = '+' then some .exponentSign
      else if c.isDigit then some .exponent
      else none
  | .exponentSign, c => if c.isDigit then some .exponent else none
  | .exponent, c => if c.isDigit then some .exponent else none

/-- A literal may end after a digit of any of its three parts. -/
def Phase.isFinal : Phase → Bool
  | .zero | .whole | .fraction | .exponent => true
  | _ => false

def Phase.run (p : Phase) (cs : List Char) : Option Phase :=
  cs.foldlM Phase.next p

/-- Whether the characters are exactly one number literal, without blanks around it. -/
def isLiteral (cs : List Char) : Bool :=
  match Phase.start.run cs with
  | some p => p.isFinal
  | none => false

def isWhole (cs : List Char) : Bool :=
  cs.all fun c => c ≠ '.' ∧ c ≠ 'e' ∧ c ≠ 'E'

@[simp] theorem Phase.run_nil (p : Phase) : p.run [] = some p := rfl

@[simp] theorem Phase.run_cons (p : Phase) (c : Char) (cs : List Char) :
    p.run (c :: cs) = (p.next c).bind fun q => q.run cs := rfl

end TypedJson.Number
