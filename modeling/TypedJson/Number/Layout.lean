import TypedJson.Number.Shortest

set_option autoImplicit false
set_option relaxedAutoImplicit false

namespace TypedJson.Number

/-- The decisions of a text form: which decimal exponents are written without an exponent mark,
and whether a whole number shows a fraction. -/
structure Layout where
  positional : Int → Bool
  wholeFraction : Bool

namespace Layout

/-- Positional from `0.0001` up to, and excluding, `10 ^ 16`; a whole number ends in `.0`. -/
def numeral : Layout := ⟨fun e => -4 ≤ e ∧ e < 16, true⟩

/-- Always positional, whole numbers without a fraction. -/
def plain : Layout := ⟨fun _ => true, false⟩

/-- Digits with the point behind the first `point` of them, zeros filled in where needed. -/
def setPoint (l : Layout) (digits : List Char) (point : Int) : List Char :=
  if point ≤ 0 then '0' :: '.' :: (List.replicate (-point).toNat '0' ++ digits)
  else if point < digits.length then
    digits.take point.toNat ++ '.' :: digits.drop point.toNat
  else
    digits ++ List.replicate (point.toNat - digits.length) '0' ++
      if l.wholeFraction then ['.', '0'] else []

def setExponent (digits : List Char) (exponent : Int) : List Char :=
  let mantissa := match digits with
    | [] | [_] => digits
    | d :: rest => d :: '.' :: rest
  mantissa ++ 'e' :: integerText exponent

def magnitudeText (l : Layout) (s : Shortest.Scaled) : List Char :=
  let digits := Nat.toDigits 10 s.digits
  let point : Int := digits.length + s.exponent
  if s.digits = 0 ∨ l.positional (point - 1) then l.setPoint digits point
  else setExponent digits (point - 1)

def finiteText (l : Layout) {f : Format} (negative : Bool) (code : Fin (f.infinity + 1)) :
    List Char :=
  let text := l.magnitudeText (Shortest.shortest f code)
  if negative then '-' :: text else text

end Layout

/-- The text of a number in a document: the words of the lenient grammar for non-finite numbers. -/
def Binary.numeral {f : Format} : Binary f → List Char
  | .nan => "NaN".toList
  | .signed negative code =>
      if code.val = f.infinity then (if negative then "-Infinity" else "Infinity").toList
      else Layout.numeral.finiteText negative code

def Binary.plainText {f : Format} : Binary f → List Char
  | .nan => "NaN".toList
  | .signed negative code =>
      if code.val = f.infinity then (if negative then "-inf" else "inf").toList
      else Layout.plain.finiteText negative code

end TypedJson.Number
