import TypedJson.Number.Literal

/-!
# Exact decimals

The value of a number literal, as a signed natural number times a power of ten. Nothing is rounded
here: rounding belongs to the binary formats. Only the exponent has a bound: it is read until it
reaches `exponentLimit`, and the digits behind that place do not count.
-/

set_option autoImplicit false
set_option relaxedAutoImplicit false

namespace TypedJson.Number

/-- The value `digits * 10 ^ exponent`, with its sign; zero has a sign too. -/
structure Decimal where
  negative : Bool
  digits : Nat
  exponent : Int
  deriving DecidableEq, Repr

def digitValue (c : Char) : Nat :=
  c.toNat - '0'.toNat

def ofDigits (cs : List Char) : Nat :=
  cs.foldl (fun n c => 10 * n + digitValue c) 0

/-- The number of decimal digits of a positive number. -/
def digitCount (n : Nat) : Nat :=
  (Nat.toDigits 10 n).length

def integerText (n : Int) : List Char :=
  if n < 0 then '-' :: Nat.toDigits 10 n.natAbs else Nat.toDigits 10 n.natAbs

namespace Decimal

/-- The exponent from which on further digits of it do not count. -/
def exponentLimit : Nat := 0x10000

def exponentMagnitude (cs : List Char) : Nat :=
  cs.foldl (fun n c => if n < exponentLimit then 10 * n + digitValue c else n) 0

/-- The exponent part of a literal, behind its mark. -/
def exponentOf : List Char → Int
  | '-' :: cs => -(exponentMagnitude cs : Int)
  | '+' :: cs => exponentMagnitude cs
  | cs => exponentMagnitude cs

/-- The fraction digits of a literal and its exponent, from what follows the whole part. -/
def fractionAndExponent : List Char → List Char × Int
  | '.' :: cs => (cs.takeWhile Char.isDigit, exponentOf ((cs.dropWhile Char.isDigit).drop 1))
  | cs => ([], exponentOf (cs.drop 1))

def ofUnsigned (negative : Bool) (cs : List Char) : Decimal :=
  let (fraction, exponent) := fractionAndExponent (cs.dropWhile Char.isDigit)
  { negative
    digits := ofDigits (cs.takeWhile Char.isDigit ++ fraction)
    exponent := exponent - fraction.length }

/-- The value of a number literal; meaningful for literals only. -/
def ofLiteral : List Char → Decimal
  | '-' :: cs => ofUnsigned true cs
  | cs => ofUnsigned false cs

def toInt (d : Decimal) : Int :=
  if d.negative then -(d.digits : Int) else d.digits

end Decimal

end TypedJson.Number
