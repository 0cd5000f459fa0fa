import TypedJson.Number.Binary

set_option autoImplicit false
set_option relaxedAutoImplicit false

namespace TypedJson.Number

/-- The integer types of fields. -/
inductive IntegerType where
  | int8
  | int16
  | int32
  | int64
  | uint8
  | uint16
  deriving DecidableEq, Repr

namespace IntegerType

def least : IntegerType → Int
  | .int8 => -128
  | .int16 => -32768
  | .int32 => -2147483648
  | .int64 => -9223372036854775808
  | .uint8 => 0
  | .uint16 => 0

def greatest : IntegerType → Int
  | .int8 => 127
  | .int16 => 32767
  | .int32 => 2147483647
  | .int64 => 9223372036854775807
  | .uint8 => 255
  | .uint16 => 65535

def admits (t : IntegerType) (n : Int) : Bool :=
  t.least ≤ n ∧ n ≤ t.greatest

def name : IntegerType → String
  | .int8 => "i8"
  | .int16 => "i16"
  | .int32 => "i32"
  | .int64 => "i64"
  | .uint8 => "u8"
  | .uint16 => "u16"

end IntegerType

def doubleName : String := "f64"

/-- Why a text has no value of the requested number type. -/
inductive ConversionFault where
  | format
  | range
  deriving DecidableEq, Repr

def nonFiniteWords : List String := ["NaN", "Infinity", "-Infinity"]

/-- The 64-bit integer of a literal. A literal with fraction or exponent is first rounded to double
precision; its value counts if that is integral. -/
def toInt64 (cs : List Char) : Except ConversionFault Int :=
  if ¬ isLiteral cs then .error .format
  else
    let d := Decimal.ofLiteral cs
    if isWhole cs then
      if IntegerType.int64.admits d.toInt then .ok d.toInt else .error .range
    else
      let x := Binary.ofDecimal Format.double d
      if x.isInfinite then .error .range
      else
        match x.toInt? with
        | none => .error .format
        | some n => if IntegerType.int64.admits n then .ok n else .error .range

/-- The double of a literal. A lenient reading admits the words for non-finite numbers and lets a
literal overflow to infinity. -/
def toDouble (lenient : Bool) (s : String) : Except ConversionFault Double :=
  if lenient ∧ s ∈ nonFiniteWords then
    .ok (if s = "NaN" then .nan else .infinity _ (s = "-Infinity"))
  else if ¬ isLiteral s.toList then .error .format
  else
    let x := Binary.ofDecimal Format.double (Decimal.ofLiteral s.toList)
    if x.isInfinite ∧ ¬ lenient then .error .range else .ok x

end TypedJson.Number
