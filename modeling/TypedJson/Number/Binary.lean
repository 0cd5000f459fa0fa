import TypedJson.Number.Decimal

/-!
# Binary floating point

Floating-point numbers of a binary interchange format, given by the integer code of their
magnitude, and the correctly rounded conversions into a format: from a quotient of natural numbers,
from a decimal, and from another format. All arithmetic is exact; a tie goes to the even code.
-/

set_option autoImplicit false
set_option relaxedAutoImplicit false

namespace TypedJson.Number

/-- A binary format: bits of the significand, exponent of its last bit in the least binade, and
the code of infinity. -/
structure Format where
  precision : Nat
  leastExponent : Int
  infinity : Nat
  deriving DecidableEq, Repr

namespace Format

def double : Format := ⟨53, -1074, 0x7FF0000000000000⟩

def single : Format := ⟨24, -149, 0x7F800000⟩

/-- The distance between the codes of two neighbouring binades. -/
def binade (f : Format) : Nat := Nat.pow 2 (f.precision - 1)

def signBit (f : Format) : Nat := f.infinity + f.binade

end Format

/-- A number of a binary format. Codes of magnitudes are ordered as the magnitudes are, and
infinity has the greatest code. -/
inductive Binary (f : Format) where
  | nan
  | signed (negative : Bool) (code : Fin (f.infinity + 1))
  deriving DecidableEq, Repr

/-- The quotient of two natural numbers rounded to the nearest, a tie to the even neighbour. -/
def roundQuotient (num den : Nat) : Nat :=
  let q := num / den
  let r := num % den
  if 2 * r < den then q
  else if den < 2 * r then q + 1
  else q + q % 2

/-- Numerator and denominator of `num / den / 2 ^ e`. -/
def scaleDown (num den : Nat) (e : Int) : Nat × Nat :=
  if 0 ≤ e then (num, den * Nat.pow 2 e.toNat) else (num * Nat.pow 2 (-e).toNat, den)

namespace Format

variable (f : Format)

/-- The exponent of the last significand bit for a positive quotient: the quotient scaled by it
has `precision` bits before the point, or fewer where the format has no lower exponent. -/
def exponentFor (num den : Nat) : Int :=
  let guess : Int := (num.log2 : Int) - den.log2 - f.precision
  let (n, d) := scaleDown num den guess
  max f.leastExponent (if n / d < Nat.pow 2 f.precision then guess else guess + 1)

/-- The code of the number nearest to a positive quotient; from the overflow bound on, infinity. -/
def nearest (num den : Nat) : Fin (f.infinity + 1) :=
  if num = 0 then 0
  else
    let e := f.exponentFor num den
    let (n, d) := scaleDown num den e
    let code := (e - f.leastExponent).toNat * f.binade + roundQuotient n d
    ⟨min f.infinity code, by omega⟩

def infinityCode : Fin (f.infinity + 1) := ⟨f.infinity, by omega⟩

/-- The code of the number nearest to `digits * 10 ^ exponent`. -/
def nearestDecimal (digits : Nat) (exponent : Int) : Fin (f.infinity + 1) :=
  if 0 ≤ exponent then f.nearest (digits * Nat.pow 10 exponent.toNat) 1
  else f.nearest digits (Nat.pow 10 (-exponent).toNat)

end Format

namespace Binary

variable {f : Format}

def ofDecimal (f : Format) (d : Decimal) : Binary f :=
  .signed d.negative (f.nearestDecimal d.digits d.exponent)

def zero (f : Format) : Binary f := .signed false 0

def infinity (f : Format) (negative : Bool) : Binary f := .signed negative f.infinityCode

def isFinite : Binary f → Bool
  | .nan => false
  | .signed _ code => code.val < f.infinity

def isInfinite : Binary f → Bool
  | .nan => false
  | .signed _ code => code.val = f.infinity

def significand (f : Format) (code : Nat) : Nat :=
  if code < f.binade then code else f.binade + code % f.binade

def exponent (f : Format) (code : Nat) : Int :=
  if code < f.binade then f.leastExponent
  else f.leastExponent + (code / f.binade : Nat) - 1

def quotient (f : Format) (code : Nat) : Nat × Nat :=
  scaleDown (significand f code) 1 (-exponent f code)

/-- The number of another format nearest to this one; widening is exact. -/
def convert (g : Format) : Binary f → Binary g
  | .nan => .nan
  | .signed negative code =>
      if code.val = f.infinity then infinity g negative
      else
        let (n, d) := quotient f code
        .signed negative (g.nearest n d)

def toInt? : Binary f → Option Int
  | .nan => none
  | .signed negative code =>
      let (n, d) := quotient f code
      if n % d = 0 then some (if negative then -((n / d : Nat) : Int) else ((n / d : Nat) : Int))
      else none

/-- The number with the given interchange bits; every NaN code gives the one NaN. -/
def ofBits (f : Format) (bits : Nat) : Binary f :=
  let code := bits % f.signBit
  if h : code ≤ f.infinity then .signed (bits / f.signBit % 2 = 1) ⟨code, by omega⟩ else .nan

/-- The interchange bits; NaN has the quiet bit alone. -/
def toBits : Binary f → Nat
  | .nan => f.infinity + f.binade / 2
  | .signed negative code => (if negative then f.signBit else 0) + code.val

end Binary

abbrev Double := Binary Format.double

abbrev Single := Binary Format.single

end TypedJson.Number
